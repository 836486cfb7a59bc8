/-
MarkovLogic/Proofs/Linear/Start.lean

The first tableau of a program.

A program says which functions from its variables to the field satisfy it
(`Program.Satisfies`).  If its bounds and rows pass the checks, it is built into the
tableau of its placed rows (`build_eq_ok_iff`), where the slack columns follow the
variables and the artificial ones follow these.  That tableau is canonical, and it
stands at a point within its bounds (`feasible_first`).

The points that count for it are the functions that satisfy the program, continued
to the slack columns (`satisfies_of_admits`, `exists_admits`).

Main statements: `build_eq_ok_iff`, `feasible_first`, `satisfies_of_admits`,
`exists_admits`.
-/
import MarkovLogic.Proofs.Linear.Phases
import MarkovLogic.Proofs.Linear.Placement

namespace MarkovLogic.Linear

open scoped ExactField

variable {K : Type} [Field K] [LinearOrder K]

namespace Program

/-! ### Programs -/

/-- The upper bound of a variable. -/
def upperAt (p : Program K) (j : Nat) : Option K :=
  p.vars[j]?.bind Variable.upper

/-- The upper bounds are not negative, and the rows mention only variables that are
there. -/
structure IsValid (p : Program K) : Prop where
  upper_nonneg : ∀ v ∈ p.vars, ∀ u, v.upper = some u → 0 ≤ u
  lt_size : ∀ row ∈ p.rows, ∀ t ∈ row.terms, t.1 < p.vars.size

/-- The function respects the bounds and satisfies the rows. -/
structure Satisfies (p : Program K) (x : Nat → K) : Prop where
  bounds : ∀ j < p.vars.size, 0 ≤ x j ∧ ∀ u, p.upperAt j = some u → x j ≤ u
  rows : ∀ row ∈ p.rows, row.relation.Compares (SparseRow.dot row.terms x) row.rhs

/-- Only the values at the variables count. -/
theorem IsValid.satisfies_congr {p : Program K} (h : p.IsValid) {x y : Nat → K}
    (hxy : ∀ j < p.vars.size, x j = y j) (hx : p.Satisfies x) : p.Satisfies y where
  bounds j hj := hxy j hj ▸ hx.bounds j hj
  rows row hrow := by
    have hdot : SparseRow.dot row.terms x = SparseRow.dot row.terms y :=
      SparseRow.dot_congr fun t ht => hxy t.1 (h.lt_size row hrow t ht)
    exact hdot ▸ hx.rows row hrow

end Program

namespace Tableau

variable {p : Program K}

/-! ### The checks -/

theorem checkUpper_eq_ok_iff {v : Variable K} :
    checkUpper v = .ok () ↔ ∀ u, v.upper = some u → 0 ≤ u := by
  rw [checkUpper]
  rcases v.upper with _ | u
  · simp
  · simp only [ExactField.isNaN_eq, Bool.false_eq_true, false_or, Option.some.injEq]
    split
    · rename_i hneg
      simpa using hneg
    · rename_i hnonneg
      simpa using hnonneg

theorem checkRow_eq_ok_iff {n : Nat} {row : Row K} {r : NormalRow K} :
    checkRow n row = .ok r ↔ (∀ t ∈ row.terms, t.1 < n) ∧ normalRow row = r := by
  rw [checkRow]
  split
  · rename_i t hfind
    have hge : n ≤ t.1 :=
      of_decide_eq_true (List.find?_some (p := fun t : Nat × K => decide (n ≤ t.1)) hfind)
    refine ⟨nofun, fun h => ?_⟩
    exact absurd (h.1 t (List.mem_of_find?_eq_some hfind)) hge.not_gt
  · rename_i hfind
    have hlt : ∀ t ∈ row.terms, t.1 < n := by simpa using hfind
    have hfinite : (!Scalar.isFinite row.rhs ||
        row.terms.any fun t => !Scalar.isFinite t.2) = false := by simp
    rw [hfinite]
    exact ⟨fun h => ⟨hlt, Except.ok.inj h⟩, fun h => congrArg Except.ok h.2⟩

/-! ### Building -/

/-- The normal forms of the rows. -/
def normalRows (p : Program K) : List (NormalRow K) :=
  p.rows.toList.map normalRow

/-- The columns of the variables, the slack columns and the artificial columns. -/
def firstColumns (p : Program K) : Array (Column K) :=
  p.vars.map (fun v => ⟨.structural, v.upper, false⟩) ++
    Array.replicate (slackCount (normalRows p)) ⟨.slack, none, false⟩ ++
    Array.replicate (artificialCount (normalRows p)) ⟨.artificial, none, false⟩

/-- The tableau of the placed rows. -/
def first (p : Program K) : Tableau K where
  rows := (placeRows p.vars.size (p.vars.size + slackCount (normalRows p)) (normalRows p)).toArray
  columns := firstColumns p
  reduced := (firstColumns p).map fun _ => 0
  objective := 0
  steps := 0

/-- **Building succeeds for valid programs, with the tableau of the placed rows.** -/
theorem build_eq_ok_iff {t : Tableau K} : build p = .ok t ↔ p.IsValid ∧ first p = t := by
  have hnormal {rs : List (NormalRow K)} :
      p.rows.toList.mapM (checkRow p.vars.size) = .ok rs ↔
        (∀ row ∈ p.rows, ∀ t ∈ row.terms, t.1 < p.vars.size) ∧ normalRows p = rs := by
    simp only [mapM_eq_ok_iff, checkRow_eq_ok_iff, normalRows, ← List.forall₂_map_left_iff,
      List.forall₂_and_left, Array.mem_toList_iff, List.forall₂_eq_eq_eq]
  have hbounds : p.vars.toList.forM checkUpper = .ok () ↔
      ∀ v ∈ p.vars, ∀ u, v.upper = some u → 0 ≤ u := by
    simp only [forM_eq_ok_iff, checkUpper_eq_ok_iff, Array.mem_toList_iff]
  rw [build, bind_eq_ok_iff]
  constructor
  · rintro ⟨⟨⟩, hchecked, h⟩
    obtain ⟨rs, hrs, h⟩ := bind_eq_ok_iff.mp h
    obtain ⟨hlt, rfl⟩ := hnormal.mp hrs
    exact ⟨⟨hbounds.mp hchecked, hlt⟩, Except.ok.inj h⟩
  · rintro ⟨hvalid, rfl⟩
    refine ⟨(), hbounds.mpr hvalid.upper_nonneg, ?_⟩
    exact bind_eq_ok_iff.mpr ⟨normalRows p, hnormal.mpr ⟨hvalid.lt_size, rfl⟩, rfl⟩

/-! ### The columns -/

theorem size_firstColumns (p : Program K) : (firstColumns p).size =
    p.vars.size + slackCount (normalRows p) + artificialCount (normalRows p) := by
  rw [firstColumns, Array.size_append, Array.size_append, Array.size_map, Array.size_replicate,
    Array.size_replicate]

theorem getElem?_firstColumns (p : Program K) (j : Nat) : (firstColumns p)[j]? =
    if j < p.vars.size then p.vars[j]?.map fun v => ⟨.structural, v.upper, false⟩
    else if j < p.vars.size + slackCount (normalRows p) then some ⟨.slack, none, false⟩
    else if j < (firstColumns p).size then some ⟨.artificial, none, false⟩
    else none := by
  rw [size_firstColumns, firstColumns, Array.getElem?_append, Array.getElem?_append]
  simp only [Array.getElem?_map, Array.getElem?_replicate, Array.size_append, Array.size_map,
    Array.size_replicate]
  split_ifs <;> first | rfl | omega

/-- Only the variables have upper bounds. -/
theorem upperOf_first (p : Program K) (j : Nat) : (first p).upperOf j = p.upperAt j := by
  rw [upperOf, first, getElem?_firstColumns, Program.upperAt]
  split_ifs with hj
  · cases p.vars[j]? <;> rfl
  all_goals rw [Array.getElem?_eq_none (not_lt.mp hj)]; rfl

/-- The artificial columns are the last ones. -/
theorem kindOf_first_eq_artificial_iff (p : Program K) (j : Nat) :
    (first p).kindOf j = .artificial ↔ p.vars.size + slackCount (normalRows p) ≤ j := by
  rw [kindOf, first, getElem?_firstColumns]
  split_ifs with hj hj'
  · rw [Array.getElem?_eq_getElem hj]
    exact iff_of_false (fun hkind => by cases hkind) (by omega)
  · exact iff_of_false (fun hkind => by cases hkind) (by omega)
  · exact iff_of_true rfl (by omega)
  · exact iff_of_true rfl (by omega)

theorem artificialsUnbounded_first (p : Program K) : (first p).ArtificialsUnbounded := by
  intro j hj
  rw [kindOf_first_eq_artificial_iff] at hj
  rw [upperOf_first, Program.upperAt, Array.getElem?_eq_none (by omega)]
  rfl

/-- No column is flipped at first. -/
theorem not_flipped_first {col : Column K} (h : col ∈ (first p).columns) : col.flipped = false := by
  obtain ⟨j, hj⟩ := Array.mem_iff_getElem?.mp h
  rw [first, getElem?_firstColumns] at hj
  split_ifs at hj
  · obtain ⟨v, -, rfl⟩ := Option.map_eq_some_iff.mp hj
    rfl
  · exact Option.some.inj hj ▸ rfl
  · exact Option.some.inj hj ▸ rfl

theorem store_first (p : Program K) (x : Nat → K) : (first p).store x = x := by
  funext j
  have hflipped : (first p).isFlipped j = false := by
    rw [isFlipped]
    rcases hcol : (first p).columns[j]? with _ | col
    · rfl
    · exact not_flipped_first (Array.mem_of_getElem? hcol)
  rw [store, hflipped]
  rfl

/-! ### The tableau is feasible -/

theorem isNormal_normalRows [IsStrictOrderedRing K] (h : p.IsValid) :
    ∀ r ∈ normalRows p, r.IsNormal p.vars.size := by
  intro r hr
  obtain ⟨row, hrow, rfl⟩ := List.mem_map.mp hr
  exact isNormal_normalRow (h.lt_size row (Array.mem_toList_iff.mp hrow))

theorem reducedCost_first (p : Program K) (j : Nat) : (first p).reducedCost j = 0 := by
  rw [reducedCost, first, Array.getD_eq_getD_getElem?, Array.getElem?_map]
  cases (firstColumns p)[j]? <;> rfl

/-- Each row of the first tableau is a normal row with columns of its own. -/
theorem exists_of_mem_first {row : TableauRow K} (hrow : row ∈ (first p).rows) :
    ∃ r ∈ normalRows p, ∃ s a, row = placeRow s a r ∧ p.vars.size ≤ s ∧
      s + slacksOf r.relation ≤ a := by
  obtain ⟨r, hr, s, a, heq, hbounds⟩ := exists_of_mem_placeRows (List.mem_toArray.mp hrow)
  exact ⟨r, hr, s, a, heq, by omega⟩

theorem canonical_first [IsStrictOrderedRing K] (h : p.IsValid) : Canonical (first p) := by
  have hnormal := isNormal_normalRows h
  refine ⟨Array.size_map, ?_, ?_, ?_, ?_, ?_, ?_⟩
  · intro row hrow
    obtain ⟨r, hr, s, a, rfl, hs, ha⟩ := exists_of_mem_first hrow
    exact sorted_placeRow (hnormal r hr) hs ha
  · intro row hrow
    obtain ⟨r, hr, s, a, rfl, -⟩ := exists_of_mem_first hrow
    exact nonzero_placeRow (hnormal r hr)
  · intro row hrow j hj
    have hcolumn := (columns_placeRows hnormal (List.mem_toArray.mp hrow)).2 j hj
    rw [Added] at hcolumn
    rw [first, size_firstColumns]
    omega
  · intro row hrow
    obtain ⟨r, hr, s, a, rfl, -⟩ := exists_of_mem_first hrow
    exact List.mem_append_right _ (own_extra s a r.relation)
  · -- the rows are apart from each other in the order in which they are placed
    intro i k row row' hrow hrow' hne
    have hapart := pairwise_placeRows hnormal le_rfl
      (le_refl (p.vars.size + slackCount (normalRows p)))
    rw [first, List.getElem?_toArray] at hrow hrow'
    obtain ⟨hi, rfl⟩ := List.getElem?_eq_some_iff.mp hrow
    obtain ⟨hk, rfl⟩ := List.getElem?_eq_some_iff.mp hrow'
    rcases Nat.lt_or_gt_of_ne hne with hlt | hlt
    · exact (List.pairwise_iff_getElem.mp hapart i k hi hk hlt).2
    · exact (List.pairwise_iff_getElem.mp hapart k i hk hi hlt).1
  · intro col hcol hflipped
    rw [not_flipped_first hcol] at hflipped
    cases hflipped

/-- **The first tableau stands at a point within the bounds.** -/
theorem feasible_first [IsStrictOrderedRing K] (h : p.IsValid) : Feasible (first p) := by
  have hnormal := isNormal_normalRows h
  refine ⟨canonical_first h, fun row _ => reducedCost_first p row.basic, ?_, ?_⟩
  · intro row hrow
    have hbasic := (columns_placeRows hnormal (List.mem_toArray.mp hrow)).1
    obtain ⟨r, hr, s, a, rfl, -⟩ := exists_of_mem_first hrow
    refine ⟨(hnormal r hr).nonneg, fun u hu => ?_⟩
    -- the basic columns are not variables
    rw [Added] at hbasic
    rw [upperOf_first, Program.upperAt, Array.getElem?_eq_none (by omega)] at hu
    cases hu
  · intro j u hu
    rw [upperOf_first] at hu
    obtain ⟨v, hv, hupper⟩ := Option.bind_eq_some_iff.mp hu
    exact h.upper_nonneg v (Array.mem_of_getElem? hv) u hupper

/-! ### The points that count -/

theorem size_vars_le (p : Program K) : p.vars.size ≤ (first p).columns.size := by
  rw [first, size_firstColumns]
  omega

theorem solves_first_iff (p : Program K) (x : Nat → K) : (first p).Solves x ↔
    ∀ row ∈ placeRows p.vars.size (p.vars.size + slackCount (normalRows p)) (normalRows p),
      row.entries.dot x = row.value := by
  rw [Solves, store_first, first]
  simp only [List.mem_toArray]

/-- The rows of the program and their normal forms say the same. -/
theorem holds_normalRows_iff [IsStrictOrderedRing K] (p : Program K) (x : Nat → K) :
    (∀ r ∈ normalRows p, r.Holds x) ↔
      ∀ row ∈ p.rows, row.relation.Compares (SparseRow.dot row.terms x) row.rhs := by
  simp only [normalRows, List.forall_mem_map, Array.mem_toList_iff, holds_normalRow]

/-- **A point that counts satisfies the program.** -/
theorem satisfies_of_admits [IsStrictOrderedRing K] (h : p.IsValid) {x : Nat → K}
    (hx : (first p).Admits x) : p.Satisfies x := by
  have hsize : (first p).columns.size = _ := size_firstColumns p
  refine ⟨fun j hj => ?_, ?_⟩
  · rw [← upperOf_first]
    exact hx.within j (hj.trans_le (size_vars_le p))
  · rw [← holds_normalRows_iff]
    refine holds_of_dot_placeRows (isNormal_normalRows h) ((solves_first_iff p x).mp hx.solves)
      (fun j _ hlt => (hx.within j (by omega)).1) fun j hge hlt => ?_
    exact hx.withoutArtificials j (by omega) ((kindOf_first_eq_artificial_iff p j).mpr hge)

/-- **A function that satisfies the program is continued to a point that counts.** -/
theorem exists_admits [IsStrictOrderedRing K] (h : p.IsValid) {x : Nat → K}
    (hx : p.Satisfies x) : ∃ y, (first p).Admits y ∧ ∀ j < p.vars.size, y j = x j := by
  have hnormal := isNormal_normalRows h
  -- the values beyond the variables do not count
  let x₀ (j : Nat) : K := if j < p.vars.size then x j else 0
  have hagree : ∀ j < p.vars.size, x j = x₀ j := fun j hj => (if_pos hj).symm
  have hx₀ := h.satisfies_congr hagree hx
  have hbeyond (j : Nat) (hj : p.vars.size ≤ j) : x₀ j = 0 := if_neg (by omega)
  have hnonneg (j : Nat) : 0 ≤ x₀ j := by
    by_cases hj : j < p.vars.size
    · exact (hx₀.bounds j hj).1
    · exact (hbeyond j (not_lt.mp hj)).ge
  obtain ⟨hfill, hrows⟩ := fill_spec hnormal le_rfl (le_refl _)
    ((holds_normalRows_iff p x₀).mpr hx₀.rows) hnonneg fun j hj => hbeyond j (by omega)
  have hkept (j : Nat) (hj : j < p.vars.size ∨ p.vars.size + slackCount (normalRows p) ≤ j) :
      fill p.vars.size (normalRows p) x₀ j = x₀ j := fill_of_lt_or_ge x₀ hj
  refine ⟨fill p.vars.size (normalRows p) x₀, ⟨(solves_first_iff p _).mpr hrows, ?_, ?_⟩,
    fun j hj => (hkept j (.inl hj)).trans (hagree j hj).symm⟩
  · intro j _
    refine ⟨hfill j, fun u hu => ?_⟩
    rw [upperOf_first] at hu
    have hj : j < p.vars.size := by
      by_contra hge
      rw [Program.upperAt, Array.getElem?_eq_none (not_lt.mp hge)] at hu
      cases hu
    rw [hkept j (.inl hj)]
    exact (hx₀.bounds j hj).2 u hu
  · intro j _ hkind
    have hge := (kindOf_first_eq_artificial_iff p j).mp hkind
    rw [hkept j (.inr hge), hbeyond j (by omega)]

end Tableau

end MarkovLogic.Linear
