/-
MarkovLogic/Proofs/Linear/Steps.lean

One step of the simplex method, and a run of them.

The ratio test finds how far the entering column can grow before a basic column
leaves its bounds.  Along the way each basic column moves linearly, so up to the
least ratio all of them stay within their bounds (`Allows`), and at that ratio one
reaches zero or its upper bound.  A pivot, followed by a complement if the upper
bound was reached, makes the leaving column stand at its bound; if the entering
column reaches its own upper bound first, it is complemented instead.  Either way
the next tableau stands at a point within all bounds (`Feasible`) and tells the
same as the one before (`feasible_enterColumn`).

If nothing limits the entering column, the bounds allow any growth; if no column
may enter, the reduced costs are not negative.  These are the two ways in which a
run comes to a conclusion (`iterate_cases`).

All tolerances are zero here.

Main statement: `iterate_cases`.
-/
import MarkovLogic.Proofs.Linear.Solutions
import MarkovLogic.Linear.Simplex

namespace MarkovLogic.Linear

open scoped ExactField

variable {K : Type} [Field K] [LinearOrder K]

/-- Nothing but zero counts as zero. -/
def Tolerance.exact : Tolerance K :=
  ⟨0, 0, 0⟩

namespace Tableau

variable {t : Tableau K} {r c : Nat} {row : TableauRow K} {u θ : K}

/-! ### Points within the bounds -/

/-- The number is within the bounds of a column. -/
def Fits (t : Tableau K) (j : Nat) (x : K) : Prop :=
  0 ≤ x ∧ ∀ u, t.upperOf j = some u → x ≤ u

/-- The basic columns stay within their bounds while column `c` grows to `θ`. -/
def Allows (t : Tableau K) (c : Nat) (θ : K) : Prop :=
  ∀ row ∈ t.rows, t.Fits row.basic (row.value - row.entries.coeff c * θ)

/-- The tableau is canonical and priced, and the basic columns are within their
bounds. -/
structure Feasible (t : Tableau K) : Prop where
  canonical : Canonical t
  priced : Priced t
  fits : ∀ row ∈ t.rows, t.Fits row.basic row.value
  upper_nonneg : ∀ j u, t.upperOf j = some u → 0 ≤ u

/-- An artificial column that is still basic is at zero and depends on other
artificial columns only. -/
def Expelled (t : Tableau K) : Prop :=
  ∀ row ∈ t.rows, t.kindOf row.basic = .artificial →
    row.value = 0 ∧ ∀ j ∈ row.entries.columns, t.kindOf j = .artificial

/-- Artificial columns have no upper bound. -/
def ArtificialsUnbounded (t : Tableau K) : Prop :=
  ∀ j, t.kindOf j = .artificial → t.upperOf j = none

/-! ### The entering column -/

/-- Of two columns in front the steeper one stays, the first of equal ones. -/
theorem steepest?_cons_cons (t : Tableau K) (b j : Nat) (js : List Nat) :
    t.steepest? (b :: j :: js) =
      if t.reducedCost j < t.reducedCost b then t.steepest? (j :: js)
      else t.steepest? (b :: js) := by
  rw [steepest?, List.foldl_cons, List.foldl_cons]
  dsimp only
  split_ifs <;> rfl

/-- There is a steepest column unless there are no columns, and it is one of them. -/
theorem steepest?_cases (t : Tableau K) (js : List Nat) :
    (js = [] ∧ t.steepest? js = none) ∨ ∃ c ∈ js, t.steepest? js = some c := by
  cases js with
  | nil => exact .inl ⟨rfl, rfl⟩
  | cons b js =>
    right
    induction js generalizing b with
    | nil => exact ⟨b, List.mem_cons_self, rfl⟩
    | cons j js ih =>
      rw [steepest?_cons_cons]
      split_ifs
      · obtain ⟨c, hc, heq⟩ := ih j
        exact ⟨c, List.mem_cons_of_mem b hc, heq⟩
      · obtain ⟨c, hc, heq⟩ := ih b
        refine ⟨c, ?_, heq⟩
        rcases List.mem_cons.mp hc with rfl | hc
        · exact List.mem_cons_self
        · exact List.mem_cons_of_mem b (List.mem_cons_of_mem j hc)

theorem canEnter_iff (allowArtificial : Bool) (t : Tableau K) (j : Nat) :
    t.canEnter .exact allowArtificial j = true ↔
      (allowArtificial = true ∨ t.kindOf j ≠ .artificial) ∧ t.reducedCost j < 0 := by
  rw [canEnter, Bool.and_eq_true, Bool.or_eq_true, bne_iff_ne, decide_eq_true_iff]
  refine and_congr_right fun _ => ?_
  rw [show -(Tolerance.exact : Tolerance K).pivot = 0 from neg_zero]

/-- The entering column is one that may enter, and if there is none, no column
may. -/
theorem entering?_cases (allowArtificial cautious : Bool) (t : Tableau K) :
    (t.entering? .exact allowArtificial cautious = none ∧
      ∀ j < t.columns.size, (allowArtificial = true ∨ t.kindOf j ≠ .artificial) →
        0 ≤ t.reducedCost j) ∨
    ∃ c < t.columns.size, t.entering? .exact allowArtificial cautious = some c ∧
      (allowArtificial = true ∨ t.kindOf c ≠ .artificial) ∧ t.reducedCost c < 0 := by
  have hmem (c : Nat) : c ∈ (List.range t.columns.size).filter (t.canEnter .exact allowArtificial) ↔
      c < t.columns.size ∧ (allowArtificial = true ∨ t.kindOf c ≠ .artificial) ∧
        t.reducedCost c < 0 := by
    rw [List.mem_filter, List.mem_range, canEnter_iff]
  have hnone (hempty : (List.range t.columns.size).filter (t.canEnter .exact allowArtificial) = [])
      (j : Nat) (hj : j < t.columns.size)
      (hallowed : allowArtificial = true ∨ t.kindOf j ≠ .artificial) : 0 ≤ t.reducedCost j := by
    by_contra hneg
    have := (hmem j).mpr ⟨hj, hallowed, not_le.mp hneg⟩
    rw [hempty] at this
    cases this
  rw [entering?]
  split
  · rcases hjs : (List.range t.columns.size).filter (t.canEnter .exact allowArtificial) with
      _ | ⟨c, js⟩
    · exact .inl ⟨rfl, hnone hjs⟩
    · obtain ⟨hc, hallowed, hneg⟩ := (hmem c).mp (hjs ▸ List.mem_cons_self)
      exact .inr ⟨c, hc, rfl, hallowed, hneg⟩
  · rcases t.steepest?_cases ((List.range t.columns.size).filter
        (t.canEnter .exact allowArtificial)) with ⟨hjs, heq⟩ | ⟨c, hjs, heq⟩
    · exact .inl ⟨heq, hnone hjs⟩
    · obtain ⟨hc, hallowed, hneg⟩ := (hmem c).mp hjs
      exact .inr ⟨c, hc, heq, hallowed, hneg⟩

/-! ### The ratio test -/

/-- What a limit says: where the row reaches a bound, and that it is within them
before. -/
structure Limits (t : Tableau K) (c : Nat) (row : TableauRow K) (l : Leaving K) : Prop where
  coeff_ne_zero : row.entries.coeff c ≠ 0
  nonneg : 0 ≤ l.ratio
  fits : ∀ θ, 0 ≤ θ → θ ≤ l.ratio → t.Fits row.basic (row.value - row.entries.coeff c * θ)
  /-- Where the leaving column stands: at its upper bound, or at zero. -/
  reaches : row.value - row.entries.coeff c * l.ratio = l.atUpper.getD 0
  upper : ∀ u, l.atUpper = some u → t.upperOf row.basic = some u

/-- A falling basic column reaches zero. -/
theorem limits_of_pos [IsStrictOrderedRing K] {i : Nat} (hfits : t.Fits row.basic row.value)
    (ha : 0 < row.entries.coeff c) :
    ∃ l, t.limit? .exact c i row = some l ∧ l.row = i ∧ t.Limits c row l := by
  obtain ⟨hnonneg, hle⟩ := hfits
  have hratio : 0 ≤ row.value / row.entries.coeff c := div_nonneg hnonneg ha.le
  have hcancel : row.entries.coeff c * (row.value / row.entries.coeff c) = row.value :=
    mul_div_cancel₀ row.value ha.ne'
  refine ⟨⟨i, row.value / row.entries.coeff c, none⟩, ?_, rfl, ha.ne', hratio, fun θ h0 hθ => ?_,
    ?_, fun u hu => by cases hu⟩
  · rw [limit?]
    refine (if_pos ha).trans ?_
    rw [ExactField.atLeastZero_of_nonneg hratio]
  · have hless : row.entries.coeff c * θ ≤ row.value :=
      (mul_le_mul_of_nonneg_left hθ ha.le).trans hcancel.le
    have hgrown : 0 ≤ row.entries.coeff c * θ := mul_nonneg ha.le h0
    exact ⟨by linarith, fun u hu => by linarith [hle u hu]⟩
  · rw [hcancel, sub_self]
    rfl

/-- A rising basic column with an upper bound reaches it. -/
theorem limits_of_neg [IsStrictOrderedRing K] {i : Nat} (hfits : t.Fits row.basic row.value)
    (ha : row.entries.coeff c < 0) (hu : t.upperOf row.basic = some u) :
    ∃ l, t.limit? .exact c i row = some l ∧ l.row = i ∧ t.Limits c row l := by
  obtain ⟨hnonneg, hle⟩ := hfits
  have hneg : 0 < -row.entries.coeff c := neg_pos.mpr ha
  have hratio : 0 ≤ (u - row.value) / -row.entries.coeff c :=
    div_nonneg (sub_nonneg.mpr (hle u hu)) hneg.le
  have hcancel : -row.entries.coeff c * ((u - row.value) / -row.entries.coeff c) = u - row.value :=
    mul_div_cancel₀ _ hneg.ne'
  refine ⟨⟨i, (u - row.value) / -row.entries.coeff c, some u⟩, ?_, rfl, ha.ne, hratio,
    fun θ h0 hθ => ?_, ?_, fun v hv => ?_⟩
  · have hlow : row.entries.coeff c < -(Tolerance.exact : Tolerance K).pivot :=
      ha.trans_eq neg_zero.symm
    rw [limit?]
    refine ((if_neg ha.not_gt).trans (if_pos hlow)).trans ?_
    rw [hu]
    dsimp only
    rw [ExactField.atLeastZero_of_nonneg hratio]
  · have hless : -row.entries.coeff c * θ ≤ u - row.value :=
      (mul_le_mul_of_nonneg_left hθ hneg.le).trans hcancel.le
    have hgrown : 0 ≤ -row.entries.coeff c * θ := mul_nonneg hneg.le h0
    refine ⟨by linarith, fun v hv => ?_⟩
    rw [hu] at hv
    cases hv
    linarith
  · show row.value - row.entries.coeff c * ((u - row.value) / -row.entries.coeff c) = u
    linarith
  · rw [hu]
    exact hv

/-- A row limits the growth of a column, or it stays within the bounds for ever. -/
theorem limit?_cases [IsStrictOrderedRing K] (i : Nat) (hfits : t.Fits row.basic row.value) :
    (t.limit? .exact c i row = none ∧
      ∀ θ, 0 ≤ θ → t.Fits row.basic (row.value - row.entries.coeff c * θ)) ∨
    ∃ l, t.limit? .exact c i row = some l ∧ l.row = i ∧ t.Limits c row l := by
  rcases lt_trichotomy (row.entries.coeff c) 0 with ha | ha | ha
  · -- the basic column rises, which only an upper bound ends
    have hlow : row.entries.coeff c < -(Tolerance.exact : Tolerance K).pivot :=
      ha.trans_eq neg_zero.symm
    rcases hu : t.upperOf row.basic with _ | u
    · refine .inl ⟨?_, fun θ h0 => ⟨?_, fun u hu' => ?_⟩⟩
      · rw [limit?]
        refine ((if_neg ha.not_gt).trans (if_pos hlow)).trans ?_
        rw [hu]
      · have hgrown := mul_nonneg (neg_pos.mpr ha).le h0
        linarith [hfits.1]
      · rw [hu] at hu'
        cases hu'
    · exact .inr (limits_of_neg hfits ha hu)
  · -- the basic column does not move
    refine .inl ⟨?_, fun θ _ => ?_⟩
    · rw [limit?, ha]
      refine (if_neg (lt_irrefl (0 : K))).trans (if_neg ?_)
      rw [show -(Tolerance.exact : Tolerance K).pivot = 0 from neg_zero]
      exact lt_irrefl 0
    · rw [ha, zero_mul, sub_zero]
      exact hfits
  · exact .inr (limits_of_pos hfits ha)

/-- The tightest limit of some rows: none if they have none, and otherwise one
of theirs. -/
def IsTightest (t : Tableau K) (c : Nat) (rows : List (TableauRow K × Nat)) :
    Option (Leaving K) → Prop
  | none => ∀ e ∈ rows, t.limit? .exact c e.2 e.1 = none
  | some l => (∃ e ∈ rows, t.limit? .exact c e.2 e.1 = some l) ∧
      ∀ e ∈ rows, ∀ l', t.limit? .exact c e.2 e.1 = some l' → l.ratio ≤ l'.ratio

/-- The tighter of the tightest limit so far and that of one more row. -/
def keepTighter (t : Tableau K) (c : Nat) (best : Option (Leaving K)) (e : TableauRow K × Nat) :
    Option (Leaving K) :=
  match t.limit? .exact c e.2 e.1 with
  | none => best
  | some new =>
    match best with
    | none => some new
    | some b => if t.tighter .exact new b then some new else some b

theorem leaving?_eq (t : Tableau K) (c : Nat) :
    t.leaving? .exact c = t.rows.toList.zipIdx.foldl (t.keepTighter c) none :=
  rfl

/-- A limit takes the place of another only if it is at least as tight, and
leaves it there only if it is at most as tight. -/
theorem tighter_iff_le [IsStrictOrderedRing K] {new best : Leaving K} :
    (t.tighter .exact new best = true → new.ratio ≤ best.ratio) ∧
      (t.tighter .exact new best = false → best.ratio ≤ new.ratio) := by
  have hsub : best.ratio - (Tolerance.exact : Tolerance K).pivot = best.ratio := sub_zero _
  have hadd : best.ratio + (Tolerance.exact : Tolerance K).pivot = best.ratio := add_zero _
  rw [tighter]
  dsimp only
  rw [hsub, hadd]
  constructor
  · intro h
    rcases Bool.or_eq_true_iff.mp h with h | h
    · exact (of_decide_eq_true h).le
    · exact of_decide_eq_true (Bool.and_eq_true_iff.mp h).1
  · intro h
    exact not_lt.mp (of_decide_eq_false (Bool.or_eq_false_iff.mp h).1)

/-- Looking at one more row. -/
theorem IsTightest.snoc [IsStrictOrderedRing K] {rows : List (TableauRow K × Nat)}
    {best : Option (Leaving K)} (h : t.IsTightest c rows best) (e : TableauRow K × Nat) :
    t.IsTightest c (rows ++ [e]) (t.keepTighter c best e) := by
  rw [keepTighter]
  rcases he : t.limit? .exact c e.2 e.1 with _ | new
  · -- the row sets no limit, so the tightest one so far stays
    cases best with
    | none =>
      intro f hf
      rcases List.mem_append.mp hf with hf | hf
      · exact h f hf
      · rwa [List.mem_singleton.mp hf]
    | some b =>
      obtain ⟨⟨f, hf, hb⟩, hle⟩ := h
      refine ⟨⟨f, List.mem_append_left _ hf, hb⟩, fun g hg l' hl' => ?_⟩
      rcases List.mem_append.mp hg with hg | hg
      · exact hle g hg l' hl'
      · rw [List.mem_singleton.mp hg, he] at hl'
        cases hl'
  · have hmem : e ∈ rows ++ [e] := List.mem_append_right _ (List.mem_singleton_self e)
    have hlast (l : Leaving K) (hold : ∀ f ∈ rows, ∀ l', t.limit? .exact c f.2 f.1 = some l' →
        l.ratio ≤ l'.ratio) (hnew : l.ratio ≤ new.ratio) :
        ∀ g ∈ rows ++ [e], ∀ l', t.limit? .exact c g.2 g.1 = some l' → l.ratio ≤ l'.ratio := by
      intro g hg l' hl'
      rcases List.mem_append.mp hg with hg | hg
      · exact hold g hg l' hl'
      · rw [List.mem_singleton.mp hg, he] at hl'
        cases hl'
        exact hnew
    cases best with
    | none =>
      refine ⟨⟨e, hmem, he⟩, hlast new (fun f hf l' hl' => ?_) le_rfl⟩
      rw [h f hf] at hl'
      cases hl'
    | some b =>
      -- the tighter of the two is at most as loose as all others
      obtain ⟨⟨f, hf, hb⟩, hle⟩ := h
      dsimp only
      rcases htighter : t.tighter .exact new b with _ | _
      · exact ⟨⟨f, List.mem_append_left _ hf, hb⟩, hlast b hle (tighter_iff_le.2 htighter)⟩
      · refine ⟨⟨e, hmem, he⟩, hlast new (fun f hf l' hl' => ?_) le_rfl⟩
        exact (tighter_iff_le.1 htighter).trans (hle f hf l' hl')

/-- The ratio test finds the tightest limit of all rows. -/
theorem isTightest_leaving? [IsStrictOrderedRing K] (t : Tableau K) (c : Nat) :
    t.IsTightest c t.rows.toList.zipIdx (t.leaving? .exact c) := by
  have hfold (rest seen : List (TableauRow K × Nat)) (best : Option (Leaving K))
      (h : t.IsTightest c seen best) : t.IsTightest c (seen ++ rest)
        (rest.foldl (t.keepTighter c) best) := by
    induction rest generalizing seen best with
    | nil => rwa [List.append_nil]
    | cons e rest ih =>
      have hnext := ih (seen ++ [e]) _ (h.snoc e)
      rwa [List.append_assoc] at hnext
  have hnone : t.IsTightest c [] none := fun e he => by cases he
  rw [leaving?_eq]
  exact hfold t.rows.toList.zipIdx [] none hnone

/-- Up to the tightest limit the basic columns stay within their bounds. -/
theorem IsTightest.allows [IsStrictOrderedRing K] {best : Option (Leaving K)}
    (h : t.IsTightest c t.rows.toList.zipIdx best)
    (hfits : ∀ row ∈ t.rows, t.Fits row.basic row.value) (h0 : 0 ≤ θ)
    (hθ : ∀ l, best = some l → θ ≤ l.ratio) : t.Allows c θ := by
  intro row hrow
  obtain ⟨i, hi⟩ := Array.mem_iff_getElem?.mp hrow
  have hmem : (row, i) ∈ t.rows.toList.zipIdx := by
    rw [List.mem_zipIdx_iff_getElem?, Array.getElem?_toList]
    exact hi
  rcases limit?_cases (c := c) i (hfits row hrow) with ⟨-, hall⟩ | ⟨l', hl', -, hlimits⟩
  · exact hall θ h0
  · refine hlimits.fits θ h0 ?_
    cases best with
    | none =>
      rw [h (row, i) hmem] at hl'
      cases hl'
    | some l => exact (hθ l rfl).trans (h.2 (row, i) hmem l' hl')

/-- Either no row limits the column, or the row that is chosen does, and the column may
go as far as that. -/
theorem Feasible.leaving?_cases [IsStrictOrderedRing K] (h : Feasible t) (c : Nat) :
    (t.leaving? .exact c = none ∧ ∀ θ, 0 ≤ θ → t.Allows c θ) ∨
      ∃ l row, t.leaving? .exact c = some l ∧ t.rows[l.row]? = some row ∧ t.Limits c row l ∧
        ∀ θ, 0 ≤ θ → θ ≤ l.ratio → t.Allows c θ := by
  have htightest := isTightest_leaving? t c
  rcases hleaving : t.leaving? .exact c with _ | l
  · rw [hleaving] at htightest
    exact .inl ⟨rfl, fun θ h0 => htightest.allows h.fits h0 fun l hl => by cases hl⟩
  · rw [hleaving] at htightest
    obtain ⟨⟨⟨row, i⟩, hmem, hl⟩, -⟩ := id htightest
    have hi : t.rows[i]? = some row := by
      rw [← Array.getElem?_toList]
      exact List.mem_zipIdx_iff_getElem?.mp hmem
    obtain ⟨l', hl', rfl, hlimits⟩ : ∃ l', t.limit? .exact c i row = some l' ∧ l'.row = i ∧
        t.Limits c row l' := by
      rcases limit?_cases (c := c) i (h.fits row (Array.mem_of_getElem? hi)) with ⟨hnone, -⟩ | hsome
      · rw [hl] at hnone
        cases hnone
      · exact hsome
    obtain rfl : l = l' := Option.some.inj (hl.symm.trans hl')
    refine .inr ⟨l, row, rfl, hi, hlimits, fun θ h0 hle => htightest.allows h.fits h0 ?_⟩
    intro l' hl'
    cases hl'
    exact hle

/-- What becomes of the entering column: it takes the place of a basic column
that reaches a bound, it moves to its own upper bound, or nothing limits it. -/
theorem enterColumn_cases [IsStrictOrderedRing K] (h : Feasible t) (c : Nat) :
    (∃ l row, t.rows[l.row]? = some row ∧ t.Limits c row l ∧ t.Allows c l.ratio ∧
      (∀ u, t.upperOf c = some u → l.ratio ≤ u) ∧
      t.enterColumn .exact c = some (match l.atUpper with
        | none => t.pivot .exact l.row c
        | some u => (t.pivot .exact l.row c).complement row.basic u, l.ratio)) ∨
    (∃ u, t.upperOf c = some u ∧ t.Allows c u ∧ t.enterColumn .exact c =
      some ({ t.complement c u with steps := (t.complement c u).steps + 1 }, u)) ∨
    (t.upperOf c = none ∧ (∀ θ, 0 ≤ θ → t.Allows c θ) ∧ t.enterColumn .exact c = none) := by
  rw [enterColumn]
  rcases h.leaving?_cases c with ⟨hleaving, hall⟩ | ⟨l, row, hleaving, hrow, hlimits, hallows⟩
  · -- no row limits the column
    rw [hleaving]
    rcases hu : t.upperOf c with _ | u
    · exact .inr (.inr ⟨rfl, hall, rfl⟩)
    · exact .inr (.inl ⟨u, rfl, hall u (h.upper_nonneg c u hu), rfl⟩)
  · rw [hleaving]
    dsimp only
    -- the row leaves only if the own bound of the column is not reached before
    by_cases hbelow : staysBelow .exact l.ratio (t.upperOf c) = true
    · refine .inl ⟨l, row, hrow, hlimits, hallows _ hlimits.nonneg le_rfl, fun u hu => ?_, ?_⟩
      · rw [hu, staysBelow, decide_eq_true_iff] at hbelow
        exact (hbelow.trans_eq (sub_zero u)).le
      · rw [Option.filter_some, if_pos hbelow]
        dsimp only
        rw [hrow]
        cases l.atUpper <;> rfl
    · rcases hu : t.upperOf c with _ | u
      · rw [hu] at hbelow
        exact absurd rfl hbelow
      · rw [hu, staysBelow, decide_eq_true_iff] at hbelow
        have hle : u ≤ l.ratio := (sub_zero u).symm.trans_le (not_lt.mp hbelow)
        refine .inr (.inl ⟨u, rfl, hallows u (h.upper_nonneg c u hu) hle, ?_⟩)
        rw [Option.filter_some, if_neg (by rwa [staysBelow, decide_eq_true_iff])]

/-! ### One step -/

/-- Where the basic columns stand after a pivot: what the rows before would say if
the leaving column were at `v`, and the multiple of its new coefficient. -/
theorem forall_levels_pivot [IsStrictOrderedRing K] {P : Nat → K → Prop} {v : K}
    (h : Canonical t) (hrow : t.rows[r]? = some row) (hc : row.entries.coeff c ≠ 0)
    (hθ : row.value - row.entries.coeff c * θ = v) (hunit : P c θ)
    (hothers : ∀ i other, t.rows[i]? = some other → i ≠ r →
      P other.basic (other.value - other.entries.coeff c * θ)) :
    ∀ row' ∈ (t.pivot .exact r c).rows,
      P row'.basic (row'.value - row'.entries.coeff row.basic * v) := by
  have hmem := Array.mem_of_getElem? hrow
  have hsorted := h.sorted row hmem
  -- if the leaving column is at `v`, the pivot row puts the entering one at `θ`
  have hunitCoeff : (row.unit c).entries.coeff row.basic = 1 / row.entries.coeff c := by
    rw [← SparseRow.dot_single (TableauRow.sorted_unit hsorted c), dot_unit,
      SparseRow.dot_single hsorted, h.coeff_basic hmem, mul_one]
  have hunitValue : (row.unit c).value - 1 / row.entries.coeff c * v = θ := by
    rw [← hθ, TableauRow.unit]
    field_simp
    ring
  refine forall_rows_pivot hrow ?_ fun i other hother hne => ?_
  · rw [hunitCoeff, hunitValue]
    exact hunit
  · have hotherMem := Array.mem_of_getElem? hother
    -- the other rows had no entry for the leaving column, which now stands for the entering one
    have hclear : (other.clear (Tolerance.exact : Tolerance K).drop (row.unit c) c).entries.coeff
        row.basic = -(other.entries.coeff c * (1 / row.entries.coeff c)) := by
      have hsortedOther := h.sorted other hotherMem
      have hsortedUnit := TableauRow.sorted_unit hsorted c
      rw [← SparseRow.dot_single (TableauRow.sorted_clear _ hsortedOther hsortedUnit),
        show (Tolerance.exact : Tolerance K).drop = 0 from rfl,
        dot_clear hsortedOther hsortedUnit (TableauRow.coeff_unit hsorted hc),
        SparseRow.dot_single hsortedOther, SparseRow.dot_single hsortedUnit, hunitCoeff,
        SparseRow.coeff_eq_zero (h.other i r other row hother hrow hne)]
      ring
    have hvalue : (other.clear (Tolerance.exact : Tolerance K).drop (row.unit c) c).value -
        -(other.entries.coeff c * (1 / row.entries.coeff c)) * v =
          other.value - other.entries.coeff c * θ := by
      rw [value_clear, ← hunitValue]
      ring
    rw [TableauRow.basic_clear, hclear, hvalue]
    exact hothers i other hother hne

/-- A column with a reduced cost is not basic. -/
theorem Priced.basic_ne (h : Priced t) (hc : t.reducedCost c ≠ 0) : ∀ row ∈ t.rows, row.basic ≠ c :=
  fun row hrow heq => hc (heq ▸ h row hrow)

/-- The columns of a tableau that agrees have the same bounds. -/
theorem Agrees.fits_iff {t' : Tableau K} (h : Agrees t t') {j : Nat} {x : K} :
    t'.Fits j x ↔ t.Fits j x := by
  rw [Fits, Fits, h.upperOf]

/-- **A basic column that reaches a bound makes room for the entering one.** -/
theorem feasible_exchange [IsStrictOrderedRing K] (h : Feasible t) {l : Leaving K}
    (hrow : t.rows[l.row]? = some row) (hlimits : t.Limits c row l) (hallows : t.Allows c l.ratio)
    (hown : ∀ u, t.upperOf c = some u → l.ratio ≤ u) (hbasic : ∀ row ∈ t.rows, row.basic ≠ c) :
    ∀ t', t' = (match l.atUpper with
        | none => t.pivot .exact l.row c
        | some u => (t.pivot .exact l.row c).complement row.basic u) →
      Feasible t' ∧ Agrees t t' := by
  have hc := hlimits.coeff_ne_zero
  have hmem := Array.mem_of_getElem? hrow
  have hcanonical : Canonical (t.pivot .exact l.row c) :=
    h.canonical.pivot le_rfl zero_lt_one hrow hc
  have hpriced : Priced (t.pivot .exact l.row c) := h.canonical.priced_pivot h.priced hrow hc
  have hagrees : Agrees t (t.pivot .exact l.row c) := Agrees.pivot h.canonical rfl hrow hc
  -- where the basic columns stand once the leaving column is at its bound
  have hlevels := forall_levels_pivot (P := fun j x => t.Fits j x) h.canonical hrow hc
    hlimits.reaches ⟨hlimits.nonneg, hown⟩ fun i other hother _ =>
      hallows other (Array.mem_of_getElem? hother)
  rcases hupper : l.atUpper with _ | u
  · rintro t' rfl
    refine ⟨⟨hcanonical, hpriced, fun row' hrow' => hagrees.fits_iff.mpr ?_, ?_⟩, hagrees⟩
    · simpa [hupper] using hlevels row' hrow'
    · simpa [hagrees.upperOf] using h.upper_nonneg
  · rintro t' rfl
    have hu : (t.pivot .exact l.row c).upperOf row.basic = some u :=
      (hagrees.upperOf _).trans (hlimits.upper u hupper)
    -- the column that left is complemented, as it is not basic any more
    have hleft : ∀ row' ∈ (t.pivot .exact l.row c).rows, row'.basic ≠ row.basic := by
      refine forall_rows_pivot hrow (hbasic row hmem).symm fun i other hother hne heq => hne ?_
      rw [TableauRow.basic_clear] at heq
      exact h.canonical.eq_of_basic_eq hother hrow heq
    have hcomplement := Agrees.complement hcanonical hu
    refine ⟨⟨hcanonical.complement hleft hu, hpriced.complement hleft u, fun row' hrow' => ?_, ?_⟩,
      hagrees.trans hcomplement⟩
    · rw [rows_complement] at hrow'
      obtain ⟨before, hbefore, rfl⟩ := Array.mem_map.mp hrow'
      have hfits := hlevels before hbefore
      rw [hupper] at hfits
      exact (hagrees.trans hcomplement).fits_iff.mpr hfits
    · simpa [(hagrees.trans hcomplement).upperOf] using h.upper_nonneg

/-- **A column that moves to its other bound leaves the basic columns within
theirs.** -/
theorem feasible_flip [IsStrictOrderedRing K] (h : Feasible t) (hu : t.upperOf c = some u)
    (hallows : t.Allows c u) (hbasic : ∀ row ∈ t.rows, row.basic ≠ c) :
    Feasible (t.complement c u) ∧ Agrees t (t.complement c u) := by
  have hagrees := Agrees.complement h.canonical hu
  refine ⟨⟨h.canonical.complement hbasic hu, h.priced.complement hbasic u,
    fun row' hrow' => ?_, ?_⟩, hagrees⟩
  · rw [rows_complement] at hrow'
    obtain ⟨before, hbefore, rfl⟩ := Array.mem_map.mp hrow'
    exact hagrees.fits_iff.mpr (hallows before hbefore)
  · simpa [hagrees.upperOf] using h.upper_nonneg

/-! ### Artificial columns that stay -/

/-- Rows of artificial columns that depend on such only are not touched when
another column enters. -/
theorem Expelled.pivot (h : Expelled t) (hrow : t.rows[r]? = some row)
    (hc : t.kindOf c ≠ .artificial) : Expelled (t.pivot .exact r c) := by
  simp only [Expelled, kindOf_pivot]
  refine forall_rows_pivot hrow (fun hkind => absurd hkind hc) fun i other hother _ hkind => ?_
  rw [TableauRow.basic_clear] at hkind
  obtain ⟨hvalue, hcolumns⟩ := h other (Array.mem_of_getElem? hother) hkind
  have hzero : other.entries.coeff c = 0 :=
    SparseRow.coeff_eq_zero fun hmem => hc (hcolumns c hmem)
  rw [TableauRow.clear, if_pos (by rw [hzero, beq_self_eq_true])]
  exact ⟨hvalue, hcolumns⟩

/-- Nor when another column is complemented. -/
theorem Expelled.complement (h : Expelled t) (hc : t.kindOf c ≠ .artificial) (u : K) :
    Expelled (t.complement c u) := by
  intro row' hrow' hkind
  rw [rows_complement] at hrow'
  obtain ⟨row, hrow, rfl⟩ := Array.mem_map.mp hrow'
  rw [kindOf_complement] at hkind
  obtain ⟨hvalue, hcolumns⟩ := h row hrow hkind
  have hzero : row.entries.coeff c = 0 :=
    SparseRow.coeff_eq_zero fun hmem => hc (hcolumns c hmem)
  refine ⟨?_, fun j hj => ?_⟩
  · rw [TableauRow.mirror, hvalue, hzero, zero_mul, sub_zero]
  · rw [TableauRow.mirror, SparseRow.columns_negateAt] at hj
    rw [kindOf_complement]
    exact hcolumns j hj

/-! ### Letting a column enter -/

/-- The number of steps does not matter. -/
theorem Feasible.withSteps (h : Feasible t) (n : Nat) : Feasible { t with steps := n } where
  canonical :=
    let hc := h.canonical
    ⟨hc.size_reduced, hc.sorted, hc.nonzero, hc.lt_size, hc.own, hc.other, hc.flipped⟩
  priced := h.priced
  fits := h.fits
  upper_nonneg := h.upper_nonneg

theorem Agrees.withSteps {t' : Tableau K} (h : Agrees t t') (n : Nat) :
    Agrees t { t' with steps := n } :=
  ⟨h.size, h.rows, h.kindOf, h.upperOf, h.solves, h.worth⟩

/-- **One step leads from a feasible tableau to a feasible one that tells the
same.** -/
theorem feasible_enterColumn [IsStrictOrderedRing K] (h : Feasible t) (hc : t.reducedCost c < 0)
    {t' : Tableau K} (henter : t.enterColumn .exact c = some (t', θ)) :
    Feasible t' ∧ Agrees t t' ∧
      (t.ArtificialsUnbounded → t.kindOf c ≠ .artificial → Expelled t → Expelled t') := by
  have hbasic := h.priced.basic_ne hc.ne
  rcases enterColumn_cases h c with ⟨l, row, hrow, hlimits, hallows, hown, heq⟩ |
    ⟨u, hu, hallows, heq⟩ | ⟨-, -, heq⟩
  · rw [heq] at henter
    obtain ⟨ht', -⟩ := Prod.mk.inj (Option.some.inj henter)
    obtain ⟨hfeasible, hagrees⟩ :=
      feasible_exchange h hrow hlimits hallows hown hbasic t' ht'.symm
    refine ⟨hfeasible, hagrees, fun hunbounded hkind hexpelled => ?_⟩
    have hpivot := hexpelled.pivot hrow hkind
    rcases hupper : l.atUpper with _ | u
    · rw [hupper] at ht'
      exact ht' ▸ hpivot
    · rw [hupper] at ht'
      rw [← ht']
      -- a column that leaves at its upper bound is not artificial
      refine hpivot.complement (fun hartificial => ?_) u
      rw [kindOf_pivot] at hartificial
      have hnone := hunbounded _ hartificial
      rw [hlimits.upper u hupper] at hnone
      cases hnone
  · rw [heq] at henter
    obtain ⟨ht', -⟩ := Prod.mk.inj (Option.some.inj henter)
    obtain ⟨hfeasible, hagrees⟩ := feasible_flip h hu hallows hbasic
    rw [← ht']
    exact ⟨hfeasible.withSteps _, hagrees.withSteps _,
      fun _ hkind hexpelled => hexpelled.complement hkind u⟩
  · rw [heq] at henter
    cases henter

/-! ### Runs -/

/-- How a run of steps ends: no column may enter any more, or one may grow without
limit, or the steps are used up. -/
def Concludes (allowArtificial : Bool) (t : Tableau K) : Status → Prop
  | .optimal => ∀ j < t.columns.size, (allowArtificial = true ∨ t.kindOf j ≠ .artificial) →
      0 ≤ t.reducedCost j
  | .unbounded => ∃ c < t.columns.size, (allowArtificial = true ∨ t.kindOf c ≠ .artificial) ∧
      t.reducedCost c < 0 ∧ t.upperOf c = none ∧ ∀ θ, 0 ≤ θ → t.Allows c θ
  | .infeasible => False
  | .iterationLimit => True

/-- **A run of steps ends in a feasible tableau that tells the same as the first
one, and with a conclusion from it.** -/
theorem iterate_cases [IsStrictOrderedRing K] (allowArtificial : Bool) (budget stalled : Nat)
    (h : Feasible t) (hunbounded : t.ArtificialsUnbounded)
    (hexpelled : allowArtificial = false → Expelled t) :
    ∃ status t', t.iterate .exact allowArtificial budget stalled = (status, t') ∧ Feasible t' ∧
      Agrees t t' ∧ (allowArtificial = false → Expelled t') ∧
      Concludes allowArtificial t' status := by
  -- each step keeps what is asked of the first tableau
  induction budget generalizing t stalled with
  | zero => exact ⟨_, _, rfl, h, .refl t, hexpelled, trivial⟩
  | succ budget ih =>
    rw [iterate]
    rcases entering?_cases allowArtificial (decide (t.columns.size < stalled)) t with
      ⟨hnone, hnonneg⟩ | ⟨c, hc, hsome, hallowed, hneg⟩
    · rw [hnone]
      exact ⟨_, _, rfl, h, .refl t, hexpelled, hnonneg⟩
    · rw [hsome]
      dsimp only
      rcases henter : t.enterColumn .exact c with _ | ⟨t', θ⟩
      · refine ⟨_, _, rfl, h, .refl t, hexpelled, c, hc, hallowed, hneg, ?_⟩
        rcases enterColumn_cases h c with ⟨_, _, -, -, -, -, heq⟩ | ⟨_, -, -, heq⟩ |
          ⟨hupper, hall, -⟩
        · rw [heq] at henter
          cases henter
        · rw [heq] at henter
          cases henter
        · exact ⟨hupper, hall⟩
      · obtain ⟨hfeasible, hagrees, hkeeps⟩ := feasible_enterColumn h hneg henter
        have hunbounded' : t'.ArtificialsUnbounded := fun j hj => by
          rw [hagrees.upperOf]
          exact hunbounded j (hagrees.kindOf j ▸ hj)
        have hexpelled' : allowArtificial = false → Expelled t' := fun hphase =>
          hkeeps hunbounded (hallowed.resolve_left (by simp [hphase])) (hexpelled hphase)
        obtain ⟨status, t'', hrun, hfeasible', hagrees', hexpelled'', hconcludes⟩ :=
          ih _ hfeasible hunbounded' hexpelled'
        exact ⟨status, t'', hrun, hfeasible', hagrees.trans hagrees', hexpelled'', hconcludes⟩

end Tableau

end MarkovLogic.Linear
