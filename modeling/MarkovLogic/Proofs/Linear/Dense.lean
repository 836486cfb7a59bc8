/-
MarkovLogic/Proofs/Linear/Dense.lean

Elimination, column by column.

On dense rows elimination is one subtraction for each column.  A sparse row leaves
out what comes out too small, and the cleared column; what is left is the same,
column by column (`eliminate_eq_dense`).  The merge of the two rows is taken as a
subtraction of linear forms (`coeff_subtract`), so what is to be seen here is that
nothing but the entries that are left out is lost (`coeff_filter`).

A sorted row can be read by halving it until the column is found (`search`).  Of two
halves the column can only be in one, and it is the order that says in which, so on
sorted rows this finds what looking at all entries finds (`search_eq_coeff`).

Main statement: `eliminate_eq_dense`.
-/
import MarkovLogic.Proofs.Linear.Sparse
import MarkovLogic.Linear.Tableau

namespace MarkovLogic.Linear

open scoped ExactField

variable {K : Type} [Field K] [LinearOrder K]

namespace SparseRow

variable {row pivot : SparseRow K}

/-! ### Reading by halves -/

/-- The coefficient of a column, found by halving the row; zero if it is not found. -/
def search (row : SparseRow K) (column : Nat) : K :=
  match h : row.drop (row.length / 2) with
  | [] => 0
  | e :: later =>
    if e.1 = column then e.2
    else if column < e.1 then search (row.take (row.length / 2)) column
    else search later column
termination_by row.length
decreasing_by
  all_goals
    have hlength := congrArg List.length h
    rw [List.length_drop, List.length_cons] at hlength
  · rw [List.length_take]
    omega
  · omega

theorem coeff_append_of_notMem_left {row' : SparseRow K} {j : Nat} (h : j ∉ columns row) :
    coeff (row ++ row') j = coeff row' j := by
  induction row with
  | nil => rfl
  | cons e row ih =>
    rw [columns, List.map_cons, List.mem_cons, not_or] at h
    rw [List.cons_append, coeff_cons, if_neg (Ne.symm h.1), ih h.2]

theorem coeff_append_of_notMem_right {row' : SparseRow K} {j : Nat} (h : j ∉ columns row') :
    coeff (row ++ row') j = coeff row j := by
  induction row with
  | nil => exact coeff_eq_zero h
  | cons e row ih => rw [List.cons_append, coeff_cons, coeff_cons, ih]

omit [Field K] [LinearOrder K] in
/-- A sorted row is cut at an entry: the columns before it are smaller, and those
after it are larger. -/
theorem Sorted.cut (h : Sorted row) {n : Nat} {e : Nat × K} {later : SparseRow K}
    (hdrop : row.drop n = e :: later) :
    Sorted (row.take n) ∧ Sorted later ∧ (∀ j ∈ columns (row.take n), j < e.1) ∧
      ∀ j ∈ columns later, e.1 < j := by
  rw [Sorted, ← List.take_append_drop n row, hdrop, List.pairwise_append] at h
  obtain ⟨hbefore, hfrom, hacross⟩ := h
  obtain ⟨hlater, hsorted⟩ := sorted_cons.mp hfrom
  refine ⟨hbefore, hsorted, fun j hj => ?_, hlater⟩
  obtain ⟨a, ha⟩ := mem_columns.mp hj
  exact hacross (j, a) ha e List.mem_cons_self

/-- **In a sorted row halving finds what looking at all entries finds.** -/
theorem search_eq_coeff (h : Sorted row) (j : Nat) : search row j = coeff row j := by
  fun_induction search row j with
  | case1 row hdrop =>
    -- only the empty row has an empty second half
    have hlength := congrArg List.length hdrop
    rw [List.length_drop, List.length_nil] at hlength
    obtain rfl : row = [] := List.length_eq_zero_iff.mp (by omega)
    rfl
  | case2 row e later hdrop heq =>
    subst heq
    have hmem : e ∈ row := List.mem_of_mem_drop (hdrop ▸ List.mem_cons_self)
    exact (coeff_of_mem h hmem).symm
  | case3 row e later hdrop hne hlt ih =>
    obtain ⟨hbefore, -, -, hlater⟩ := h.cut hdrop
    have hfrom : j ∉ columns (e :: later) := by
      rw [columns, List.map_cons, List.mem_cons, not_or]
      exact ⟨hlt.ne, fun hj => (hlater j hj).not_gt hlt⟩
    conv_rhs => rw [← List.take_append_drop (row.length / 2) row, hdrop]
    rw [coeff_append_of_notMem_right hfrom, ih hbefore]
  | case4 row e later hdrop hne hge ih =>
    obtain ⟨-, hlater, hbefore, -⟩ := h.cut hdrop
    have hfirst : j ∉ columns (row.take (row.length / 2)) := fun hj => hge (hbefore j hj)
    conv_rhs => rw [← List.take_append_drop (row.length / 2) row, hdrop]
    rw [coeff_append_of_notMem_left hfirst, coeff_cons, if_neg hne, ih hlater]

/-! ### Leaving out entries -/

/-- In a sorted row leaving out entries changes the coefficients of their columns to
zero, and no others. -/
theorem coeff_filter (h : Sorted row) (p : Nat × K → Bool) (j : Nat) :
    coeff (row.filter p) j = if p (j, coeff row j) then coeff row j else 0 := by
  by_cases hj : j ∈ columns row
  · obtain ⟨a, ha⟩ := mem_columns.mp hj
    rw [coeff_of_mem h ha]
    split
    · exact coeff_of_mem (h.filter p) (List.mem_filter.mpr ⟨ha, ‹_›⟩)
    · -- the column has one entry only, and this one is left out
      refine coeff_eq_zero fun hmem => ?_
      obtain ⟨b, hb⟩ := mem_columns.mp hmem
      obtain ⟨hb, hkept⟩ := List.mem_filter.mp hb
      rw [← coeff_of_mem h hb, coeff_of_mem h ha] at hkept
      exact absurd hkept ‹_›
  · have hfilter : j ∉ columns (row.filter p) := fun hmem => by
      obtain ⟨a, ha⟩ := mem_columns.mp hmem
      exact hj (mem_columns.mpr ⟨a, List.mem_of_mem_filter ha⟩)
    rw [coeff_eq_zero hfilter, coeff_eq_zero hj, ite_self]

/-- What elimination leaves of each column. -/
theorem coeff_eliminate (hrow : Sorted row) (hpivot : Sorted pivot) (threshold factor : K)
    (cleared j : Nat) : coeff (eliminate threshold row factor pivot cleared) j =
      if j ≠ cleared ∧ threshold < |coeff row j - factor * coeff pivot j| then
        coeff row j - factor * coeff pivot j
      else 0 := by
  rw [eliminate, coeff_filter (hrow.subtract hpivot factor), coeff_subtract hrow hpivot]
  simp only [survives, Bool.and_eq_true, bne_iff_ne, decide_eq_true_iff]
  rfl

/-- No zero is stored, so the columns of the result are those with a coefficient. -/
theorem mem_columns_eliminate [IsStrictOrderedRing K] {threshold : K} (hthreshold : 0 ≤ threshold)
    (hrow : Sorted row) (hpivot : Sorted pivot) (factor : K) (cleared j : Nat) :
    j ∈ columns (eliminate threshold row factor pivot cleared) ↔
      coeff (eliminate threshold row factor pivot cleared) j ≠ 0 := by
  refine ⟨fun hj => ?_, fun hne => ?_⟩
  · obtain ⟨a, ha⟩ := mem_columns.mp hj
    rw [coeff_of_mem (hrow.eliminate hpivot threshold factor cleared) ha]
    exact ne_zero_of_mem_eliminate hthreshold ha
  · by_contra hj
    exact hne (coeff_eq_zero hj)

/-! ### The result -/

/-- What the subtraction of dense rows leaves of a column. -/
def difference (row : SparseRow K) (factor : K) (pivot : SparseRow K) (j : Nat) : K :=
  coeff row j - factor * coeff pivot j

/-- The row is the difference of two others, but for the cleared column and for columns
whose difference is too small. -/
structure IsDifference (result row : SparseRow K) (factor : K) (pivot : SparseRow K)
    (cleared : Nat) : Prop where
  sorted : Sorted result
  /-- What remains has its entry. -/
  remains : ∀ j, j ≠ cleared → 1e-12 < |difference row factor pivot j| →
    coeff result j = difference row factor pivot j ∧ (j, difference row factor pivot j) ∈ result
  /-- What is left out has none. -/
  leftOut : ∀ j, (j = cleared ∨ |difference row factor pivot j| ≤ 1e-12) →
    coeff result j = 0 ∧ j ∉ columns result
  /-- It does not matter how the rows are read. -/
  search_eq : ∀ j, search row j = coeff row j ∧ search pivot j = coeff pivot j ∧
    search result j = coeff result j

/-- **Sparse elimination is dense elimination.** -/
theorem eliminate_eq_dense [IsStrictOrderedRing K] (hrow : Sorted row) (hpivot : Sorted pivot)
    (factor : K) (cleared : Nat) :
    IsDifference (eliminate Tolerance.standard.drop row factor pivot cleared) row factor pivot
      cleared where
  sorted := hrow.eliminate hpivot _ factor cleared
  remains j hj hlarge := by
    have hcoeff := coeff_eliminate hrow hpivot Tolerance.standard.drop factor cleared j
    rw [if_pos ⟨hj, hlarge⟩] at hcoeff
    have hpos : 0 < |difference row factor pivot j| := lt_trans (by norm_num) hlarge
    exact ⟨hcoeff, mem_of_coeff_eq hcoeff (abs_pos.mp hpos)⟩
  leftOut j hsmall := by
    have hcoeff := coeff_eliminate hrow hpivot Tolerance.standard.drop factor cleared j
    rw [if_neg fun h => hsmall.elim h.1 h.2.not_ge] at hcoeff
    have hdrop : 0 ≤ (Tolerance.standard : Tolerance K).drop := by
      show (0 : K) ≤ 1e-12
      norm_num
    refine ⟨hcoeff, fun hmem => ?_⟩
    exact (mem_columns_eliminate hdrop hrow hpivot factor cleared j).mp hmem hcoeff
  search_eq j := ⟨search_eq_coeff hrow j, search_eq_coeff hpivot j,
    search_eq_coeff (hrow.eliminate hpivot _ factor cleared) j⟩

/-- Rows that share some columns; one cancels, one is cleared, and one is too small. -/
theorem eliminate_eq_dense_sharedColumns :
    let row : SparseRow ℚ := [(0, 2), (2, 1), (4, 3), (6, 1e-13)]
    let pivot : SparseRow ℚ := [(1, 5), (2, 1 / 3), (4, 1)]
    Sorted row ∧ Sorted pivot ∧
      IsDifference (eliminate Tolerance.standard.drop row 3 pivot 4) row 3 pivot 4 := by
  intro row pivot
  have hrow : Sorted row := by simp [row, Sorted]
  have hpivot : Sorted pivot := by simp [pivot, Sorted]
  exact ⟨hrow, hpivot, eliminate_eq_dense hrow hpivot 3 4⟩

end SparseRow

end MarkovLogic.Linear
