/-
MarkovLogic/Proofs/Linear/Phases.lean

What the two phases come to.

A feasible tableau stands at a vertex, which solves it, is within the bounds, and is
worth the objective.  If no column may enter, no other solution within the bounds is
worth more (`Feasible.worth_le`).  If a column may grow without limit, the worth
grows along a ray of solutions (`Feasible.ray`).

Phase one asks for the negated sum of the artificial columns.  That is never more
than zero, so the phase does not run along a ray; if its optimum is below zero, no
solution has all artificial columns at zero, and otherwise the vertex has.  Then the
artificial columns are pivoted out of the basis where that is possible, one row after
the other, and where it is not, the row has artificial columns only (`Expelled`).
Phase two keeps these out, so its conclusions are about the solutions with artificial
columns at zero.

Main statements: `phaseOne_cases`, `phaseTwo_cases`.
-/
import MarkovLogic.Proofs.Linear.Pricing
import MarkovLogic.Proofs.Linear.Steps

namespace MarkovLogic.Linear

open scoped ExactField

variable {K : Type} [Field K] [LinearOrder K]

namespace Tableau

variable {t t' : Tableau K} {c : Nat} {θ : K}

/-! ### Vertices and rays -/

/-- All artificial columns are at zero. -/
def WithoutArtificials (t : Tableau K) (x : Nat → K) : Prop :=
  ∀ j < t.columns.size, t.kindOf j = .artificial → x j = 0

/-- The vertex at which the tableau stands. -/
def vertex (t : Tableau K) : Nat → K :=
  t.store (t.complete fun _ => 0)

/-- The point that is reached when column `c` grows to `θ`. -/
def ray (t : Tableau K) (c : Nat) (θ : K) : Nat → K :=
  t.store (t.complete (Pi.single c θ))

/-- A column without an upper bound is stored as it is. -/
theorem store_of_upperOf_eq_none (h : Canonical t) {j : Nat} (hu : t.upperOf j = none)
    (x : Nat → K) : t.store x j = x j := by
  rw [store, if_neg]
  intro hflipped
  rcases hcol : t.columns[j]? with _ | col
  · rw [isFlipped, hcol] at hflipped
    cases hflipped
  · rw [isFlipped, hcol] at hflipped
    rw [upperOf, hcol] at hu
    have hsome := h.flipped col (Array.mem_of_getElem? hcol) hflipped
    rw [show col.upper = none from hu] at hsome
    cases hsome

/-- A choice for the columns that are not basic, within the bounds there and in the
rows, is completed to a solution within the bounds. -/
theorem Feasible.completion [IsStrictOrderedRing K] (h : Feasible t) {w : Nat → K}
    (hbasic : ∀ row ∈ t.rows, w row.basic = 0) (hw : t.Within w)
    (hrows : ∀ row ∈ t.rows, t.Fits row.basic (row.value - row.entries.dot w)) :
    t.Solves (t.store (t.complete w)) ∧ t.Within (t.store (t.complete w)) ∧
      t.worth (t.store (t.complete w)) = t.objective - form t.reduced w :=
  ⟨h.canonical.solves_complete hbasic,
    h.canonical.within_store (h.canonical.within_complete hw hrows),
    h.canonical.worth_complete h.priced w⟩

/-- Along a ray that the bounds allow there are solutions within the bounds, and
they gain what the reduced cost says. -/
theorem Feasible.ray [IsStrictOrderedRing K] (h : Feasible t) (hc : c < t.columns.size)
    (hbasic : ∀ row ∈ t.rows, row.basic ≠ c) (hfits : t.Fits c θ) (hallows : t.Allows c θ) :
    t.Solves (t.ray c θ) ∧ t.Within (t.ray c θ) ∧
      t.worth (t.ray c θ) = t.objective - t.reducedCost c * θ := by
  have hothers (j : Nat) (hne : j ≠ c) : Pi.single (M := fun _ => K) c θ j = 0 :=
    Pi.single_eq_of_ne (M := fun _ => K) hne θ
  -- both forms have but one term
  have hdot (row : TableauRow K) (hrow : row ∈ t.rows) :
      row.entries.dot (Pi.single c θ) = row.entries.coeff c * θ := by
    rw [SparseRow.dot_eq_mul (h.canonical.sorted row hrow) (j := c), Pi.single_eq_same]
    exact fun e _ hne => hothers e.1 hne
  have hform : form t.reduced (Pi.single c θ) = t.reducedCost c * θ := by
    rw [form, Finset.sum_eq_single_of_mem c (Finset.mem_range.mpr
      (h.canonical.size_reduced ▸ hc)), Pi.single_eq_same, reducedCost]
    intro j _ hne
    rw [hothers j hne, mul_zero]
  rw [Tableau.ray, ← hform]
  apply h.completion
  · exact fun row hrow => hothers row.basic (hbasic row hrow)
  · intro j _
    by_cases hj : j = c
    · subst hj
      rw [Pi.single_eq_same]
      exact hfits
    · rw [Pi.single_eq_of_ne hj]
      exact ⟨le_rfl, h.upper_nonneg j⟩
  · intro row hrow
    rw [hdot row hrow]
    exact hallows row hrow

theorem Feasible.vertex [IsStrictOrderedRing K] (h : Feasible t) :
    t.Solves t.vertex ∧ t.Within t.vertex ∧ t.worth t.vertex = t.objective := by
  have hform : form t.reduced (fun _ => 0) = 0 := Finset.sum_eq_zero fun j _ => mul_zero _
  have hcompletion := h.completion (w := fun _ => 0) (fun _ _ => rfl)
    (fun j _ => ⟨le_rfl, h.upper_nonneg j⟩) fun row hrow => by
      rw [SparseRow.dot_eq_zero fun e _ => mul_zero _, sub_zero]
      exact h.fits row hrow
  rwa [hform, sub_zero] at hcompletion

/-- **If no column may enter, no solution is worth more than the vertex.** -/
theorem Feasible.worth_le [IsStrictOrderedRing K] (h : Feasible t)
    (hunbounded : t.ArtificialsUnbounded) {allowArtificial : Bool}
    (hoptimal : Concludes allowArtificial t .optimal) {x : Nat → K}
    (hwithin : t.Within x) (hx : allowArtificial = true ∨ t.WithoutArtificials x) :
    t.worth x ≤ t.objective := by
  rw [worth, form, h.canonical.size_reduced]
  refine sub_le_self _ (Finset.sum_nonneg fun j hj => ?_)
  have hj := Finset.mem_range.mp hj
  have hstored := (h.canonical.within_store hwithin j hj).1
  by_cases hallowed : allowArtificial = true ∨ t.kindOf j ≠ .artificial
  · exact mul_nonneg (hoptimal j hj hallowed) hstored
  · -- the column is at zero
    push Not at hallowed
    have hzero : t.store x j = 0 := by
      rw [store_of_upperOf_eq_none h.canonical (hunbounded j hallowed.2)]
      exact hx.resolve_left hallowed.1 j hj hallowed.2
    rw [hzero, mul_zero]

/-- **If a column may grow without limit, its ray leads beyond every worth.** -/
theorem Feasible.exists_ray [IsStrictOrderedRing K] (h : Feasible t) {allowArtificial : Bool}
    (hgrows : Concludes allowArtificial t .unbounded) (B : K) :
    ∃ c θ, (allowArtificial = true ∨ t.kindOf c ≠ .artificial) ∧ t.Solves (t.ray c θ) ∧
      t.Within (t.ray c θ) ∧ B < t.worth (t.ray c θ) := by
  obtain ⟨c, hc, hallowed, hneg, hupper, hallows⟩ := hgrows
  have hslope : 0 < -t.reducedCost c := neg_pos.mpr hneg
  -- the worth grows by the slope, so it passes `B` in the end
  obtain ⟨θ, hθ, hlarge⟩ : ∃ θ, 0 ≤ θ ∧ B - t.objective < -t.reducedCost c * θ := by
    refine ⟨(|B - t.objective| + 1) / -t.reducedCost c,
      div_nonneg (by positivity) hslope.le, ?_⟩
    rw [mul_div_cancel₀ _ hslope.ne']
    exact (le_abs_self _).trans_lt (lt_add_one _)
  have hfits : t.Fits c θ := ⟨hθ, fun u hu => by
    rw [hupper] at hu
    cases hu⟩
  obtain ⟨hsolves, hwithin, hworth⟩ :=
    h.ray hc (h.priced.basic_ne hneg.ne) hfits (hallows θ hθ)
  refine ⟨c, θ, hallowed, hsolves, hwithin, ?_⟩
  rw [hworth]
  linarith

/-- A choice for the columns that are not basic, with zero for the artificial ones,
is completed without artificial columns. -/
theorem Expelled.withoutArtificials (h : Expelled t) (hcanonical : Canonical t)
    (hunbounded : t.ArtificialsUnbounded) {w : Nat → K}
    (hw : ∀ j, t.kindOf j = .artificial → w j = 0) :
    t.WithoutArtificials (t.store (t.complete w)) := by
  intro j _ hkind
  rw [store_of_upperOf_eq_none hcanonical (hunbounded j hkind)]
  rcases hcanonical.complete_cases w j with ⟨row, hrow, rfl, heq⟩ | ⟨-, heq⟩
  · -- the row is at zero and has artificial columns only
    obtain ⟨hvalue, hcolumns⟩ := h row hrow hkind
    have hdot : row.entries.dot w = 0 := SparseRow.dot_eq_zero fun e he => by
      rw [hw e.1 (hcolumns e.1 (List.mem_map_of_mem he)), mul_zero]
    rw [heq, hvalue, hdot, sub_zero]
  · rw [heq, hw j hkind]

/-! ### Pricing in between -/

/-- Two tableaux over the same columns with the same solutions. -/
structure Alike (t t' : Tableau K) : Prop where
  size : t'.columns.size = t.columns.size
  kindOf : ∀ j, t'.kindOf j = t.kindOf j
  upperOf : ∀ j, t'.upperOf j = t.upperOf j
  solves : ∀ x, t'.Solves x ↔ t.Solves x

theorem Agrees.alike (h : Agrees t t') : Alike t t' :=
  ⟨h.size, h.kindOf, h.upperOf, h.solves⟩

namespace Alike

theorem trans {t'' : Tableau K} (h : Alike t t') (h' : Alike t' t'') : Alike t t'' where
  size := h'.size.trans h.size
  kindOf j := (h'.kindOf j).trans (h.kindOf j)
  upperOf j := (h'.upperOf j).trans (h.upperOf j)
  solves x := (h'.solves x).trans (h.solves x)

theorem within_iff (h : Alike t t') {x : Nat → K} : t'.Within x ↔ t.Within x := by
  rw [Within, Within, h.size]
  simp only [h.upperOf]

theorem withoutArtificials_iff (h : Alike t t') {x : Nat → K} :
    t'.WithoutArtificials x ↔ t.WithoutArtificials x := by
  rw [WithoutArtificials, WithoutArtificials, h.size]
  simp only [h.kindOf]

theorem artificialsUnbounded (h : Alike t t') (hunbounded : t.ArtificialsUnbounded) :
    t'.ArtificialsUnbounded := fun j hj => by
  rw [h.upperOf]
  exact hunbounded j (h.kindOf j ▸ hj)

end Alike

/-- Pricing leaves the vertex and its bounds alone. -/
theorem Feasible.price (h : Feasible t) (cost : Array K) :
    Feasible (t.price cost) ∧ Alike t (t.price cost) ∧
      (Expelled t → Expelled (t.price cost)) := by
  obtain ⟨hrows, hcolumns, -⟩ := h.canonical.price_cases cost
  have hkind : (t.price cost).kindOf = t.kindOf := by
    funext j
    rw [kindOf, hcolumns, kindOf]
  have hupper : (t.price cost).upperOf = t.upperOf := by
    funext j
    rw [upperOf, hcolumns, upperOf]
  refine ⟨⟨h.canonical.price cost, h.canonical.priced_price cost, ?_, ?_⟩,
    ⟨congrArg Array.size hcolumns, congrFun hkind, congrFun hupper,
      fun x => h.canonical.solves_price cost⟩, fun hexpelled => ?_⟩
  · simp only [Fits, hrows, hupper]
    exact h.fits
  · rw [hupper]
    exact h.upper_nonneg
  · rw [Expelled, hrows, hkind]
    exact hexpelled

/-! ### The costs of phase one -/

/-- Each artificial column costs one. -/
def artificialCost (t : Tableau K) : Array K :=
  t.columns.map fun c => if c.kind = .artificial then -1 else 0

theorem costAt_artificialCost (t : Tableau K) (x : Nat → K) :
    t.costAt t.artificialCost x =
      -∑ j ∈ Finset.range t.columns.size, if t.kindOf j = .artificial then x j else 0 := by
  rw [costAt, ← Finset.sum_neg_distrib]
  refine Finset.sum_congr rfl fun j hj => ?_
  have hcol := Array.getElem?_eq_getElem (Finset.mem_range.mp hj)
  rw [artificialCost, Array.getD_eq_getD_getElem?, Array.getElem?_map, kindOf, hcol]
  dsimp only [Option.map_some, Option.getD_some]
  split <;> simp

/-- Within the bounds artificial columns cost at least nothing, and nothing only if
there are none. -/
theorem costAt_artificialCost_nonpos [IsStrictOrderedRing K] {x : Nat → K} (hx : t.Within x) :
    t.costAt t.artificialCost x ≤ 0 := by
  rw [costAt_artificialCost]
  refine neg_nonpos.mpr (Finset.sum_nonneg fun j hj => ?_)
  split
  · exact (hx j (Finset.mem_range.mp hj)).1
  · exact le_rfl

theorem WithoutArtificials.costAt_eq_zero {x : Nat → K} (hx : t.WithoutArtificials x) :
    t.costAt t.artificialCost x = 0 := by
  rw [costAt_artificialCost, neg_eq_zero]
  refine Finset.sum_eq_zero fun j hj => ?_
  split
  · exact hx j (Finset.mem_range.mp hj) ‹_›
  · rfl

theorem withoutArtificials_of_costAt_nonneg [IsStrictOrderedRing K] {x : Nat → K}
    (hx : t.Within x) (hcost : 0 ≤ t.costAt t.artificialCost x) : t.WithoutArtificials x := by
  have hnonneg : ∀ j ∈ Finset.range t.columns.size,
      0 ≤ if t.kindOf j = .artificial then x j else 0 := by
    intro j hj
    split
    · exact (hx j (Finset.mem_range.mp hj)).1
    · exact le_rfl
  rw [costAt_artificialCost, neg_nonneg] at hcost
  have hzero := (Finset.sum_eq_zero_iff_of_nonneg hnonneg).mp
    (le_antisymm hcost (Finset.sum_nonneg hnonneg))
  intro j hj hkind
  have hterm := hzero j (Finset.mem_range.mpr hj)
  rwa [if_pos hkind] at hterm

/-! ### Artificial columns leave the basis -/

/-- The artificial columns that are basic are at zero, and the rows before the
`k`-th have them only if they have no other columns. -/
structure Expelling (t₀ t : Tableau K) (k : Nat) : Prop where
  feasible : Feasible t
  agrees : Agrees t₀ t
  atZero : ∀ row ∈ t.rows, t.kindOf row.basic = .artificial → row.value = 0
  done : ∀ i < k, ∀ row, t.rows[i]? = some row → t.kindOf row.basic = .artificial →
    ∀ j ∈ row.entries.columns, t.kindOf j = .artificial

/-- A pivot in a row at zero moves no basic column. -/
theorem Expelling.pivot [IsStrictOrderedRing K] {t₀ : Tableau K} {k : Nat} {row : TableauRow K}
    (h : Expelling t₀ t k) (hrow : t.rows[k]? = some row)
    (hartificial : t.kindOf row.basic = .artificial) {j : Nat} (hj : t.kindOf j ≠ .artificial)
    (hcoeff : row.entries.coeff j ≠ 0) : Expelling t₀ (t.pivot .exact k j) (k + 1) := by
  have hmem := Array.mem_of_getElem? hrow
  have hcanonical := h.feasible.canonical
  have hagrees : Agrees t (t.pivot .exact k j) := Agrees.pivot hcanonical rfl hrow hcoeff
  -- nothing times a row at zero is taken away from the other rows
  have hunit : (row.unit j).value = 0 := by
    rw [TableauRow.unit, h.atZero row hmem hartificial, zero_mul]
  have hvalue (other : TableauRow K) :
      (other.clear (Tolerance.exact : Tolerance K).drop (row.unit j) j).value = other.value := by
    rw [value_clear, hunit, mul_zero, sub_zero]
  refine ⟨⟨hcanonical.pivot le_rfl zero_lt_one hrow hcoeff,
    hcanonical.priced_pivot h.feasible.priced hrow hcoeff, ?_, ?_⟩, h.agrees.trans hagrees, ?_, ?_⟩
  · refine forall_rows_pivot hrow (hagrees.fits_iff.mpr ?_) fun i other hother _ =>
      hagrees.fits_iff.mpr ?_
    · rw [hunit]
      exact ⟨le_rfl, h.feasible.upper_nonneg _⟩
    · rw [hvalue, TableauRow.basic_clear]
      exact h.feasible.fits other (Array.mem_of_getElem? hother)
  · simpa [hagrees.upperOf] using h.feasible.upper_nonneg
  · simp only [kindOf_pivot]
    refine forall_rows_pivot hrow (fun _ => hunit) fun i other hother _ hkind => ?_
    rw [TableauRow.basic_clear] at hkind
    rw [hvalue]
    exact h.atZero other (Array.mem_of_getElem? hother) hkind
  · intro i hi row' hrow' hkind
    simp only [kindOf_pivot] at hkind ⊢
    rw [getElem?_rows_pivot _ hrow, Option.map_eq_some_iff] at hrow'
    obtain ⟨other, hother, rfl⟩ := hrow'
    by_cases hik : i = k
    · -- the entering column is not artificial
      rw [if_pos hik] at hkind
      exact absurd hkind hj
    · rw [if_neg hik] at hkind ⊢
      rw [TableauRow.basic_clear] at hkind
      have hcolumns := h.done i (by omega) other hother hkind
      have hzero : other.entries.coeff j = 0 :=
        SparseRow.coeff_eq_zero fun hmem => hj (hcolumns j hmem)
      rw [TableauRow.clear, if_pos (by rw [hzero, beq_self_eq_true])]
      exact hcolumns

/-- One more row is done. -/
theorem Expelling.step [IsStrictOrderedRing K] {t₀ : Tableau K} {k : Nat}
    (h : Expelling t₀ t k) : Expelling t₀ (t.expelArtificial .exact k) (k + 1) := by
  have hnext (hk : ∀ row, t.rows[k]? = some row → t.kindOf row.basic = .artificial →
      ∀ j ∈ row.entries.columns, t.kindOf j = .artificial) : Expelling t₀ t (k + 1) :=
    ⟨h.feasible, h.agrees, h.atZero, fun i hi => by
      rcases Nat.lt_succ_iff_lt_or_eq.mp hi with hi | rfl
      · exact h.done i hi
      · exact hk⟩
  rw [expelArtificial]
  split
  · rename_i hrow
    exact hnext fun row hsome => by
      rw [hrow] at hsome
      cases hsome
  · rename_i row hrow
    split
    · rename_i hkind
      refine hnext fun row' hsome hartificial => absurd hartificial ?_
      rw [hrow] at hsome
      cases hsome
      exact bne_iff_ne.mp hkind
    · rename_i hkind
      have hartificial : t.kindOf row.basic = .artificial := by simpa using hkind
      split
      · -- the row has no entry for a column that is not artificial
        rename_i hfind
        refine hnext fun row' hsome _ j hj => ?_
        rw [hrow] at hsome
        cases hsome
        obtain ⟨a, ha⟩ := SparseRow.mem_columns.mp hj
        have hnone := List.find?_eq_none.mp hfind (j, a) ha
        have hlarge : (Tolerance.exact : Tolerance K).pivot < |a| :=
          abs_pos.mpr (h.feasible.canonical.nonzero row (Array.mem_of_getElem? hrow) _ ha)
        simpa [hlarge] using hnone
      · rename_i j a hfind
        have hmem : (j, a) ∈ row.entries := List.mem_of_find?_eq_some hfind
        have hsome := List.find?_some hfind
        rw [Bool.and_eq_true, bne_iff_ne] at hsome
        refine h.pivot hrow hartificial hsome.1 ?_
        have hrowMem := Array.mem_of_getElem? hrow
        rw [SparseRow.coeff_of_mem (h.feasible.canonical.sorted row hrowMem) hmem]
        exact h.feasible.canonical.nonzero row hrowMem _ hmem

/-- All rows are done in the end. -/
theorem Expelling.expelled [IsStrictOrderedRing K] {t₀ : Tableau K} (h : Expelling t₀ t 0) :
    Feasible ((List.range t.rows.size).foldl (expelArtificial .exact) t) ∧
      Agrees t₀ ((List.range t.rows.size).foldl (expelArtificial .exact) t) ∧
      Expelled ((List.range t.rows.size).foldl (expelArtificial .exact) t) := by
  have hfold (k : Nat) : Expelling t₀ ((List.range k).foldl (expelArtificial .exact) t) k := by
    induction k with
    | zero => exact h
    | succ k ih =>
      rw [List.range_succ, List.foldl_append]
      exact ih.step
  have hdone := hfold t.rows.size
  refine ⟨hdone.feasible, hdone.agrees, fun row hrow hkind => ⟨hdone.atZero row hrow hkind, ?_⟩⟩
  obtain ⟨i, hi⟩ := Array.mem_iff_getElem?.mp hrow
  have hsize := hdone.agrees.rows.trans h.agrees.rows.symm
  have hlt := (Array.getElem?_eq_some_iff.mp hi).1
  exact hdone.done i (by omega) row hi hkind

/-! ### The phases -/

/-- The points that count: they solve the tableau within the bounds, without
artificial columns. -/
structure Admits (t : Tableau K) (x : Nat → K) : Prop where
  solves : t.Solves x
  within : t.Within x
  withoutArtificials : t.WithoutArtificials x

theorem Alike.admits_iff (h : Alike t t') {x : Nat → K} : t'.Admits x ↔ t.Admits x :=
  ⟨fun hx => ⟨(h.solves x).mp hx.solves, h.within_iff.mp hx.within,
      h.withoutArtificials_iff.mp hx.withoutArtificials⟩,
    fun hx => ⟨(h.solves x).mpr hx.solves, h.within_iff.mpr hx.within,
      h.withoutArtificials_iff.mpr hx.withoutArtificials⟩⟩

/-- What phase one finds out about a tableau. -/
def Prepares (t t' : Tableau K) : Status → Prop
  | .optimal => Feasible t' ∧ Alike t t' ∧ Expelled t'
  | .infeasible => ∀ x, ¬ t.Admits x
  | .unbounded => False
  | .iterationLimit => True

/-- What phase two finds out about a tableau. -/
def Maximizes (t t' : Tableau K) (cost : Array K) : Status → Prop
  | .optimal => Feasible t' ∧ Alike t t' ∧ t.Admits t'.vertex ∧
      ∀ x, t.Admits x → t.costAt cost x ≤ t.costAt cost t'.vertex
  | .infeasible => ∀ x, ¬ t.Admits x
  | .unbounded => ∀ B, ∃ x, t.Admits x ∧ B < t.costAt cost x
  | .iterationLimit => True

/-- At the vertex an artificial column that is basic has the value of its row. -/
theorem Canonical.vertex_basic (h : Canonical t) (hunbounded : t.ArtificialsUnbounded)
    {row : TableauRow K} (hrow : row ∈ t.rows) (hkind : t.kindOf row.basic = .artificial) :
    t.vertex row.basic = row.value := by
  rw [vertex, store_of_upperOf_eq_none h (hunbounded _ hkind), h.complete_basic hrow,
    SparseRow.dot_eq_zero fun e _ => mul_zero _, sub_zero]

/-- Without artificial columns none is to be expelled. -/
theorem Canonical.expelled_of_not_any (h : Canonical t)
    (hnone : ∀ i (hi : i < t.columns.size), t.columns[i].kind ≠ .artificial) : Expelled t := by
  intro row hrow hkind
  have hlt := h.basic_lt hrow
  rw [kindOf, Array.getElem?_eq_getElem hlt] at hkind
  exact absurd hkind (hnone row.basic hlt)

/-- Where the vertex has no artificial columns, these can leave the basis. -/
theorem Feasible.expelling (h : Feasible t)
    (hunbounded : t.ArtificialsUnbounded) (hvertex : t.WithoutArtificials t.vertex) :
    Expelling t t 0 := by
  refine ⟨h, .refl t, fun row hrow hkind => ?_, fun i hi => absurd hi i.not_lt_zero⟩
  rw [← h.canonical.vertex_basic hunbounded hrow hkind]
  exact hvertex _ (h.canonical.basic_lt hrow) hkind

theorem phaseOne_eq (t : Tableau K) (maxSteps : Nat) : t.phaseOne .exact maxSteps =
    if !t.columns.any fun c => c.kind == .artificial then (.optimal, t)
    else
      match (t.price t.artificialCost).iterate .exact true
        (maxSteps - (t.price t.artificialCost).steps) 0 with
      | (.optimal, t) =>
        if t.objective < 0 then (.infeasible, t)
        else (.optimal, (List.range t.rows.size).foldl (expelArtificial .exact) t)
      | other => other := by
  have hzero : -(Tolerance.exact : Tolerance K).feasibility = 0 := neg_zero
  rw [phaseOne, hzero]
  rfl

/-- Either phase prices the tableau and runs.  In the tableau that is reached,
solutions are worth what they cost. -/
theorem Feasible.iterate_price [IsStrictOrderedRing K] (h : Feasible t)
    (hunbounded : t.ArtificialsUnbounded) (cost : Array K) (allowArtificial : Bool)
    (hexpelled : allowArtificial = false → Expelled t) (maxSteps : Nat) :
    ∃ status t', (t.price cost).iterate .exact allowArtificial
        (maxSteps - (t.price cost).steps) 0 = (status, t') ∧
      Feasible t' ∧ Alike t t' ∧ (allowArtificial = false → Expelled t') ∧
      Concludes allowArtificial t' status ∧ ∀ x, t'.Solves x → t'.worth x = t.costAt cost x := by
  obtain ⟨hpriced, halike, hkeeps⟩ := h.price cost
  obtain ⟨status, t', hrun, hfeasible, hagrees, hexpelled', hconcludes⟩ :=
    iterate_cases allowArtificial (maxSteps - (t.price cost).steps) 0 hpriced
      (halike.artificialsUnbounded hunbounded) fun hphase => hkeeps (hexpelled hphase)
  refine ⟨status, t', hrun, hfeasible, halike.trans hagrees.alike, hexpelled', hconcludes,
    fun x hx => ?_⟩
  have hsolves := (hagrees.solves x).mp hx
  rw [hagrees.worth x hsolves, h.canonical.worth_price _ ((halike.solves x).mp hsolves)]

/-- **Phase one leads to a feasible tableau from which the artificial columns are
expelled, or shows that no point counts.** -/
theorem phaseOne_cases [IsStrictOrderedRing K] (h : Feasible t)
    (hunbounded : t.ArtificialsUnbounded) (maxSteps : Nat) :
    ∃ status t', t.phaseOne .exact maxSteps = (status, t') ∧ t.Prepares t' status := by
  rw [phaseOne_eq]
  split
  · -- there is no artificial column
    rename_i hnone
    exact ⟨_, _, rfl, h, (Agrees.refl t).alike,
      h.canonical.expelled_of_not_any (by simpa using hnone)⟩
  · obtain ⟨status, t', hrun, hfeasible, halike, -, hconcludes, hworth⟩ :=
      h.iterate_price hunbounded t.artificialCost true (fun htwo => by cases htwo) maxSteps
    have hunbounded' := halike.artificialsUnbounded hunbounded
    rw [hrun]
    cases status with
    | optimal =>
      dsimp only
      split
      · -- the optimum is below what a point without artificial columns is worth
        rename_i hlow
        refine ⟨_, _, rfl, fun x hx => hlow.not_ge ?_⟩
        have hle := hfeasible.worth_le hunbounded' hconcludes (halike.within_iff.mpr hx.within)
          (.inl rfl)
        rwa [hworth x ((halike.solves x).mpr hx.solves),
          hx.withoutArtificials.costAt_eq_zero] at hle
      · rename_i hlow
        obtain ⟨hsolves, hwithin, hvertex⟩ := hfeasible.vertex
        -- the vertex costs nothing, so it has no artificial columns
        have hwithout : t.WithoutArtificials t'.vertex := by
          apply withoutArtificials_of_costAt_nonneg (halike.within_iff.mp hwithin)
          rw [← hworth _ hsolves, hvertex]
          exact not_lt.mp hlow
        have hstart := hfeasible.expelling hunbounded' (halike.withoutArtificials_iff.mpr hwithout)
        obtain ⟨hfeasible', hagrees', hexpelled⟩ := hstart.expelled
        exact ⟨_, _, rfl, hfeasible', halike.trans hagrees'.alike, hexpelled⟩
    | infeasible => exact hconcludes.elim
    | unbounded =>
      -- no solution is worth more than zero
      obtain ⟨c, θ, -, hsolves, hwithin, hpos⟩ := hfeasible.exists_ray hconcludes 0
      rw [hworth _ hsolves] at hpos
      exact absurd (costAt_artificialCost_nonpos (halike.within_iff.mp hwithin)) hpos.not_ge
    | iterationLimit => exact ⟨_, _, rfl, trivial⟩

/-- **Phase two leads to the best of the points that count, or shows that there is no
best one.** -/
theorem phaseTwo_cases [IsStrictOrderedRing K] (h : Feasible t)
    (hunbounded : t.ArtificialsUnbounded) (hexpelled : Expelled t) (p : Program K)
    (maxSteps : Nat) :
    ∃ status t', t.phaseTwo .exact p maxSteps = (status, t') ∧
      t.Maximizes t' (p.vars.map Variable.objective) status := by
  obtain ⟨status, t', hrun, hfeasible, halike, hexpelled', hconcludes, hworth⟩ :=
    h.iterate_price hunbounded (p.vars.map Variable.objective) false (fun _ => hexpelled) maxSteps
  have hunbounded' := halike.artificialsUnbounded hunbounded
  refine ⟨status, t', hrun, ?_⟩
  cases status with
  | optimal =>
    obtain ⟨hsolves, hwithin, hvertex⟩ := hfeasible.vertex
    have hwithout : t'.WithoutArtificials t'.vertex :=
      (hexpelled' rfl).withoutArtificials hfeasible.canonical hunbounded' fun _ _ => rfl
    refine ⟨hfeasible, halike, halike.admits_iff.mp ⟨hsolves, hwithin, hwithout⟩, fun x hx => ?_⟩
    have hx' := halike.admits_iff.mpr hx
    rw [← hworth x hx'.solves, ← hworth _ hsolves, hvertex]
    exact hfeasible.worth_le hunbounded' hconcludes hx'.within (.inr hx'.withoutArtificials)
  | infeasible => exact hconcludes.elim
  | unbounded =>
    intro B
    obtain ⟨c, θ, hallowed, hsolves, hwithin, hlarge⟩ := hfeasible.exists_ray hconcludes B
    -- the column that grows is not artificial, so along the ray the artificial ones stay at zero
    have hkind : t'.kindOf c ≠ .artificial := hallowed.resolve_left Bool.false_ne_true
    have hwithout : t'.WithoutArtificials (t'.ray c θ) := by
      apply (hexpelled' rfl).withoutArtificials hfeasible.canonical hunbounded'
      rintro j hj
      apply Pi.single_eq_of_ne (M := fun _ => K)
      rintro rfl
      exact hkind hj
    exact ⟨t'.ray c θ, halike.admits_iff.mp ⟨hsolves, hwithin, hwithout⟩,
      hworth _ hsolves ▸ hlarge⟩
  | iterationLimit => trivial

end Tableau

end MarkovLogic.Linear
