/-
MarkovLogic/Proofs/Linear/Sparse.lean

Sparse rows as linear forms.

A row stands for the linear form that multiplies each coordinate by its
coefficient (`dot`).  Each operation on rows does to the forms what its name
says: scaling multiplies the form, subtraction subtracts the forms, and the row
of a list of terms is their sum.  Most of this holds whatever the order of the
entries.  The order is what makes the entries the coefficients: in a sorted row
there is one entry for each column, so looking up a column finds it
(`coeff_of_mem`), and the coefficient is the form at a unit vector (`dot_single`).

Elimination leaves out the cleared column and entries up to the threshold.  It
changes the form only by what is left out, which is nothing if the threshold is
zero and the column comes out as zero (`dot_eliminate`).
-/
import Mathlib
import MarkovLogic.Linear.SparseRow
import MarkovLogic.Proofs.ExactField

namespace MarkovLogic.Linear

open scoped ExactField

variable {K : Type} [Field K] [LinearOrder K]

namespace SparseRow

/-! ### Columns and coefficients -/

/-- The columns that have an entry. -/
def columns (row : SparseRow K) : List Nat :=
  row.map Prod.fst

/-- The entries stand by increasing column. -/
def Sorted (row : SparseRow K) : Prop :=
  row.Pairwise fun e f => e.1 < f.1

/-- The linear form of a row. -/
def dot (row : SparseRow K) (y : Nat → K) : K :=
  (row.map fun e => e.2 * y e.1).sum

variable {row pivot : SparseRow K} {y : Nat → K}

@[simp] theorem dot_nil (y : Nat → K) : dot [] y = 0 := rfl

@[simp] theorem dot_cons (e : Nat × K) (row : SparseRow K) (y : Nat → K) :
    dot (e :: row) y = e.2 * y e.1 + dot row y := by
  rw [dot, List.map_cons, List.sum_cons, dot]

@[simp] theorem dot_append (row row' : SparseRow K) (y : Nat → K) :
    dot (row ++ row') y = dot row y + dot row' y := by
  rw [dot, List.map_append, List.sum_append, dot, dot]

/-- The form depends on the coordinates of the columns only. -/
theorem dot_congr {z : Nat → K} (h : ∀ e ∈ row, y e.1 = z e.1) : dot row y = dot row z := by
  rw [dot, dot, List.map_congr_left fun e he => by rw [h e he]]

theorem dot_add (row : SparseRow K) (y z : Nat → K) :
    dot row (fun j => y j + z j) = dot row y + dot row z := by
  induction row with
  | nil => simp
  | cons e row ih =>
    rw [dot_cons, dot_cons, dot_cons, ih]
    ring

/-- A form without coefficients is zero. -/
theorem dot_eq_zero (h : ∀ e ∈ row, e.2 * y e.1 = 0) : dot row y = 0 := by
  induction row with
  | nil => rfl
  | cons e row ih =>
    rw [dot_cons, h e List.mem_cons_self, ih fun f hf => h f (List.mem_cons_of_mem e hf), add_zero]

omit [Field K] [LinearOrder K] in
theorem mem_columns {j : Nat} : j ∈ columns row ↔ ∃ a, (j, a) ∈ row := by
  simp [columns]

theorem coeff_cons (e : Nat × K) (row : SparseRow K) (j : Nat) :
    coeff (e :: row) j = if e.1 = j then e.2 else coeff row j := by
  by_cases h : e.1 = j
  · simp [coeff, h]
  · simp [coeff, h]

theorem coeff_eq_zero {j : Nat} (h : j ∉ columns row) : coeff row j = 0 := by
  induction row with
  | nil => rfl
  | cons e row ih =>
    rw [columns, List.map_cons, List.mem_cons, not_or] at h
    rw [coeff_cons, if_neg (Ne.symm h.1), ih h.2]

omit [Field K] [LinearOrder K] in
/-- In a sorted row the first column comes before all others. -/
theorem sorted_cons {e : Nat × K} :
    Sorted (e :: row) ↔ (∀ j ∈ columns row, e.1 < j) ∧ Sorted row := by
  rw [Sorted, List.pairwise_cons, columns, List.forall_mem_map]
  rfl

omit [Field K] [LinearOrder K] in
theorem Sorted.notMem_columns {e : Nat × K} (h : Sorted (e :: row)) : e.1 ∉ columns row :=
  fun hmem => lt_irrefl _ ((sorted_cons.mp h).1 e.1 hmem)

/-- A coefficient that is not zero is that of an entry. -/
theorem mem_of_coeff_eq {j : Nat} {a : K} (h : coeff row j = a) (ha : a ≠ 0) : (j, a) ∈ row := by
  induction row with
  | nil => exact absurd h.symm ha
  | cons e row ih =>
    rw [coeff_cons] at h
    split at h
    · rename_i heq
      subst heq h
      exact List.mem_cons_self
    · exact List.mem_cons_of_mem e (ih h)

/-- In a sorted row looking up a column finds its entry. -/
theorem coeff_of_mem (h : Sorted row) {j : Nat} {a : K} (hmem : (j, a) ∈ row) :
    coeff row j = a := by
  induction row with
  | nil => cases hmem
  | cons e row ih =>
    rw [coeff_cons]
    rcases List.mem_cons.mp hmem with rfl | hmem
    · rw [if_pos rfl]
    · have hne : e.1 ≠ j := fun heq => h.notMem_columns (heq ▸ mem_columns.mpr ⟨a, hmem⟩)
      rw [if_neg hne, ih (sorted_cons.mp h).2 hmem]

/-- The coefficients are the values of the form at unit vectors. -/
theorem dot_single (h : Sorted row) (j : Nat) : dot row (Pi.single j 1) = coeff row j := by
  induction row with
  | nil => rfl
  | cons e row ih =>
    rw [dot_cons, coeff_cons, ih (sorted_cons.mp h).2]
    by_cases heq : e.1 = j
    · rw [if_pos heq, ← heq, coeff_eq_zero h.notMem_columns, Pi.single_eq_same, mul_one, add_zero]
    · rw [if_neg heq, Pi.single_eq_of_ne heq, mul_zero, zero_add]

/-- A form at a vector that is zero on all columns but one. -/
theorem dot_eq_mul (h : Sorted row) {j : Nat} (hzero : ∀ e ∈ row, e.1 ≠ j → y e.1 = 0) :
    dot row y = coeff row j * y j := by
  induction row with
  | nil => simp [coeff]
  | cons e row ih =>
    rw [dot_cons, coeff_cons]
    by_cases heq : e.1 = j
    · have hrest : dot row y = 0 := dot_eq_zero fun f hf => by
        have hlt := (sorted_cons.mp h).1 f.1 (List.mem_map_of_mem hf)
        rw [hzero f (List.mem_cons_of_mem e hf) (by omega), mul_zero]
      rw [hrest, if_pos heq, heq, add_zero]
    · rw [if_neg heq, hzero e List.mem_cons_self heq, mul_zero, zero_add]
      exact ih (sorted_cons.mp h).2 fun f hf => hzero f (List.mem_cons_of_mem e hf)

/-! ### Scaling and changing signs -/

theorem columns_scale (c : K) (row : SparseRow K) : columns (scale c row) = columns row := by
  simp [columns, scale]

theorem Sorted.scale (h : Sorted row) (c : K) : Sorted (scale c row) :=
  List.pairwise_map.mpr h

theorem dot_scale (c : K) (row : SparseRow K) (y : Nat → K) :
    dot (scale c row) y = c * dot row y := by
  induction row with
  | nil => simp [SparseRow.scale]
  | cons e row ih =>
    rw [SparseRow.scale, List.map_cons, dot_cons, dot_cons, ← SparseRow.scale, ih]
    ring

theorem mem_scale {c : K} {e : Nat × K} : e ∈ scale c row ↔ ∃ a, (e.1, a) ∈ row ∧ e.2 = a * c := by
  simp only [SparseRow.scale, List.mem_map]
  constructor
  · rintro ⟨f, hf, rfl⟩
    exact ⟨f.2, hf, rfl⟩
  · rintro ⟨a, ha, heq⟩
    exact ⟨(e.1, a), ha, by rw [← heq]⟩

theorem columns_negateAt (c : Nat) (row : SparseRow K) :
    columns (negateAt c row) = columns row := by
  rw [columns, columns, negateAt, List.map_map]
  refine List.map_congr_left fun e _ => ?_
  dsimp only [Function.comp_apply]
  split <;> rfl

theorem mem_negateAt {c : Nat} {e : Nat × K} :
    e ∈ negateAt c row ↔ (e.1, if e.1 = c then -e.2 else e.2) ∈ row := by
  simp only [negateAt, List.mem_map]
  constructor
  · rintro ⟨f, hf, rfl⟩
    by_cases heq : f.1 = c
    · simpa [heq] using heq ▸ hf
    · simpa [heq] using hf
  · intro he
    refine ⟨_, he, ?_⟩
    by_cases heq : e.1 = c
    · simp only [heq, if_true, neg_neg]
      rw [← heq]
    · simp only [if_neg heq]

theorem Sorted.negateAt (h : Sorted row) (c : Nat) : Sorted (negateAt c row) := by
  refine List.pairwise_map.mpr (h.imp fun {e f} hlt => ?_)
  dsimp only
  split <;> split <;> exact hlt

/-- Changing the sign of a column mirrors its coordinate. -/
theorem dot_negateAt (c : Nat) (row : SparseRow K) {z : Nat → K} (hc : z c = -y c)
    (h : ∀ j, j ≠ c → z j = y j) : dot (negateAt c row) z = dot row y := by
  induction row with
  | nil => rfl
  | cons e row ih =>
    rw [SparseRow.negateAt, List.map_cons, dot_cons, dot_cons, ← SparseRow.negateAt, ih]
    by_cases heq : e.1 = c
    · simp only [heq, if_true, hc]
      ring
    · simp only [heq, if_false, h e.1 heq]

/-! ### Subtraction -/

theorem dot_subtract (factor : K) (row pivot : SparseRow K) (y : Nat → K) :
    dot (subtract factor row pivot) y = dot row y - factor * dot pivot y := by
  fun_induction subtract factor row pivot with
  | case1 pivot =>
    rw [dot_nil, zero_sub, ← neg_mul, ← dot_scale]
    exact congrArg (dot · y) (List.map_congr_left fun e _ => congrArg (Prod.mk e.1) (mul_comm _ _))
  | case2 i a row => simp
  | case3 i a row b pivot ih =>
    simp only [dot_cons, ih]
    ring
  | case4 i a row j b pivot hne hlt ih =>
    simp only [dot_cons, ih]
    ring
  | case5 i a row j b pivot hne hlt ih =>
    simp only [dot_cons, ih]
    ring

/-- Every entry of a difference comes from one of the two rows. -/
theorem mem_columns_of_mem_subtract {factor : K} {e : Nat × K}
    (h : e ∈ subtract factor row pivot) : e.1 ∈ columns row ∨ e.1 ∈ columns pivot := by
  fun_induction subtract factor row pivot with
  | case1 pivot =>
    obtain ⟨f, hf, rfl⟩ := List.mem_map.mp h
    exact .inr (List.mem_map.mpr ⟨f, hf, rfl⟩)
  | case2 i a row => exact .inl (List.mem_map_of_mem h)
  | case3 i a row b pivot ih => grind [columns]
  | case4 i a row j b pivot hne hlt ih => grind [columns]
  | case5 i a row j b pivot hne hlt ih => grind [columns]

/-- An entry whose column the second row does not have stays. -/
theorem mem_subtract_of_notMem {factor : K} {e : Nat × K} (h : e ∈ row)
    (hpivot : e.1 ∉ columns pivot) : e ∈ subtract factor row pivot := by
  fun_induction subtract factor row pivot with
  | case1 pivot => cases h
  | case2 i a row => exact h
  | case3 i a row b pivot ih => grind [columns]
  | case4 i a row j b pivot hne hlt ih => grind [columns]
  | case5 i a row j b pivot hne hlt ih => grind [columns]

theorem Sorted.subtract (hrow : Sorted row) (hpivot : Sorted pivot) (factor : K) :
    Sorted (subtract factor row pivot) := by
  -- what the recursion adds comes from the rest of either row, and so after the first column
  fun_induction SparseRow.subtract factor row pivot with
  | case1 pivot => exact List.pairwise_map.mpr hpivot
  | case2 i a row => exact hrow
  | case3 i a row b pivot ih =>
    obtain ⟨hfirst, hrow⟩ := sorted_cons.mp hrow
    obtain ⟨hfirst', hpivot⟩ := sorted_cons.mp hpivot
    refine List.pairwise_cons.mpr ⟨fun e he => ?_, ih hrow hpivot⟩
    exact (mem_columns_of_mem_subtract he).elim (hfirst e.1) (hfirst' e.1)
  | case4 i a row j b pivot hne hlt ih =>
    obtain ⟨hfirst, hrow⟩ := sorted_cons.mp hrow
    refine List.pairwise_cons.mpr ⟨fun e he => ?_, ih hrow hpivot⟩
    rcases mem_columns_of_mem_subtract he with hmem | hmem
    · exact hfirst e.1 hmem
    · rcases List.mem_cons.mp hmem with heq | hmem
      · exact heq ▸ hlt
      · exact hlt.trans ((sorted_cons.mp hpivot).1 e.1 hmem)
  | case5 i a row j b pivot hne hlt ih =>
    obtain ⟨hfirst, hpivot⟩ := sorted_cons.mp hpivot
    refine List.pairwise_cons.mpr ⟨fun e he => ?_, ih hrow hpivot⟩
    have hgt : j < i := by omega
    rcases mem_columns_of_mem_subtract he with hmem | hmem
    · rcases List.mem_cons.mp hmem with heq | hmem
      · exact heq ▸ hgt
      · exact hgt.trans ((sorted_cons.mp hrow).1 e.1 hmem)
    · exact hfirst e.1 hmem

theorem coeff_subtract (hrow : Sorted row) (hpivot : Sorted pivot) (factor : K) (j : Nat) :
    coeff (subtract factor row pivot) j = coeff row j - factor * coeff pivot j := by
  rw [← dot_single (hrow.subtract hpivot factor), dot_subtract, dot_single hrow,
    dot_single hpivot]

/-! ### Elimination -/

theorem Sorted.eliminate (hrow : Sorted row) (hpivot : Sorted pivot) (threshold factor : K)
    (cleared : Nat) : Sorted (eliminate threshold row factor pivot cleared) :=
  (hrow.subtract hpivot factor).filter _

/-- What is left comes from one of the two rows, and the cleared column is
gone. -/
theorem mem_columns_of_mem_eliminate {threshold factor : K} {cleared : Nat} {e : Nat × K}
    (h : e ∈ eliminate threshold row factor pivot cleared) :
    e.1 ≠ cleared ∧ (e.1 ∈ columns row ∨ e.1 ∈ columns pivot) := by
  obtain ⟨hmem, hsurvives⟩ := List.mem_filter.mp h
  rw [survives, Bool.and_eq_true, bne_iff_ne] at hsurvives
  exact ⟨hsurvives.1, mem_columns_of_mem_subtract hmem⟩

/-- Zeros are left out. -/
theorem ne_zero_of_mem_eliminate [IsStrictOrderedRing K] {threshold factor : K} {cleared : Nat}
    {e : Nat × K} (hthreshold : 0 ≤ threshold)
    (h : e ∈ eliminate threshold row factor pivot cleared) : e.2 ≠ 0 := by
  have hsurvives := (List.mem_filter.mp h).2
  rw [survives, Bool.and_eq_true, decide_eq_true_iff] at hsurvives
  exact abs_pos.mp (hthreshold.trans_lt hsurvives.2)

/-- A large entry of a column that the pivot row does not have stays. -/
theorem mem_eliminate_of_notMem {threshold factor : K} {cleared : Nat} {e : Nat × K} (h : e ∈ row)
    (hpivot : e.1 ∉ columns pivot) (hne : e.1 ≠ cleared) (hlarge : threshold < |e.2|) :
    e ∈ eliminate threshold row factor pivot cleared := by
  refine List.mem_filter.mpr ⟨mem_subtract_of_notMem h hpivot, ?_⟩
  rw [survives, Bool.and_eq_true, bne_iff_ne, decide_eq_true_iff]
  exact ⟨hne, hlarge⟩

/-- Leaving out entries that are zero does not change the form. -/
theorem dot_filter {p : Nat × K → Bool} (h : ∀ e ∈ row, p e = false → e.2 = 0) (y : Nat → K) :
    dot (row.filter p) y = dot row y := by
  induction row with
  | nil => rfl
  | cons e row ih =>
    rw [List.filter_cons, dot_cons, ← ih fun f hf => h f (List.mem_cons_of_mem e hf)]
    split
    · rw [dot_cons]
    · rename_i hdrop
      rw [h e List.mem_cons_self (by simpa using hdrop), zero_mul, zero_add]

/-- **Elimination subtracts the forms**, if nothing but zeros is left out. -/
theorem dot_eliminate [IsStrictOrderedRing K] (hrow : Sorted row) (hpivot : Sorted pivot)
    {factor : K} {cleared : Nat} (hcleared : coeff row cleared - factor * coeff pivot cleared = 0)
    (y : Nat → K) :
    dot (eliminate 0 row factor pivot cleared) y = dot row y - factor * dot pivot y := by
  rw [eliminate, dot_filter, dot_subtract]
  -- an entry that is left out is in the cleared column or below the threshold
  intro e he hdrop
  have hcoeff : coeff (SparseRow.subtract factor row pivot) e.1 = e.2 :=
    coeff_of_mem (hrow.subtract hpivot factor) he
  rw [survives, Bool.and_eq_false_iff, bne_eq_false_iff_eq, decide_eq_false_iff_not] at hdrop
  rcases hdrop with heq | hsmall
  · rw [← hcoeff, coeff_subtract hrow hpivot, heq, hcleared]
  · exact abs_nonpos_iff.mp (not_lt.mp hsmall)

/-! ### Rows of terms -/

theorem dot_addTerm (row : SparseRow K) (term : Nat × K) (y : Nat → K) :
    dot (addTerm row term) y = dot row y + term.2 * y term.1 := by
  fun_induction addTerm row term with
  | case1 => simp
  | case2 j a rest hlt =>
    simp only [dot_cons]
    ring
  | case3 a rest hlt =>
    simp only [dot_cons]
    ring
  | case4 j a rest hlt hne ih =>
    simp only [dot_cons, ih]
    ring

theorem mem_columns_addTerm {term : Nat × K} {j : Nat} :
    j ∈ columns (addTerm row term) ↔ j = term.1 ∨ j ∈ columns row := by
  fun_induction addTerm row term with
  | case1 => simp [columns]
  | case2 j' a rest hlt => simp [columns]
  | case3 a rest hlt => simp [columns]
  | case4 j' a rest hlt hne ih =>
    simp only [columns, List.map_cons, List.mem_cons] at ih ⊢
    rw [ih]
    tauto

theorem Sorted.addTerm (h : Sorted row) (term : Nat × K) : Sorted (addTerm row term) := by
  fun_induction SparseRow.addTerm row term with
  | case1 => exact List.pairwise_singleton _ _
  | case2 j a rest hlt =>
    refine sorted_cons.mpr ⟨fun i hi => ?_, h⟩
    rcases List.mem_cons.mp hi with rfl | hi
    · exact hlt
    · exact hlt.trans ((sorted_cons.mp h).1 i hi)
  | case3 a rest hlt =>
    obtain ⟨hfirst, hrest⟩ := sorted_cons.mp h
    exact sorted_cons.mpr ⟨hfirst, hrest⟩
  | case4 j a rest hlt hne ih =>
    refine sorted_cons.mpr ⟨fun i hi => ?_, ih (sorted_cons.mp h).2⟩
    rcases mem_columns_addTerm.mp hi with rfl | hi
    · show j < term.1
      omega
    · exact (sorted_cons.mp h).1 i hi

/-- The row of a list of terms is sorted, it has columns of terms only, and its
form is their sum. -/
theorem sorted_ofTerms (terms : List (Nat × K)) : Sorted (ofTerms terms) :=
  (List.foldlRecOn (motive := fun row : SparseRow K => Sorted row) terms addTerm
    List.Pairwise.nil fun _ h term _ => h.addTerm term).filter _

theorem dot_ofTerms (terms : List (Nat × K)) (y : Nat → K) :
    dot (ofTerms terms) y = (terms.map fun t => t.2 * y t.1).sum := by
  have hfold (row : SparseRow K) : dot (terms.foldl addTerm row) y =
      dot row y + (terms.map fun t => t.2 * y t.1).sum := by
    induction terms generalizing row with
    | nil => simp
    | cons t terms ih =>
      rw [List.foldl_cons, ih, dot_addTerm, List.map_cons, List.sum_cons, add_assoc]
  rw [ofTerms, dot_filter, hfold, dot_nil, zero_add]
  intro e _ hzero
  rwa [bne_eq_false_iff_eq] at hzero

theorem exists_of_mem_ofTerms {terms : List (Nat × K)} {e : Nat × K} (h : e ∈ ofTerms terms) :
    ∃ t ∈ terms, t.1 = e.1 := by
  have hfold (ts : List (Nat × K)) (row : SparseRow K) {j : Nat}
      (hj : j ∈ columns (ts.foldl addTerm row)) : j ∈ columns row ∨ ∃ t ∈ ts, t.1 = j := by
    induction ts generalizing row with
    | nil => exact .inl hj
    | cons t ts ih =>
      rcases ih (addTerm row t) hj with hj | ⟨s, hs, heq⟩
      · rcases mem_columns_addTerm.mp hj with heq | hj
        · exact .inr ⟨t, List.mem_cons_self, heq.symm⟩
        · exact .inl hj
      · exact .inr ⟨s, List.mem_cons_of_mem t hs, heq⟩
  have hcolumn : e.1 ∈ columns (terms.foldl addTerm []) :=
    List.mem_map_of_mem (List.mem_of_mem_filter h)
  exact (hfold terms [] hcolumn).resolve_left List.not_mem_nil

end SparseRow

end MarkovLogic.Linear
