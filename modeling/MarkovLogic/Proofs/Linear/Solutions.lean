/-
MarkovLogic/Proofs/Linear/Solutions.lean

The points that a tableau stands for.

A tableau is read at points in the coordinates of the program.  Where a column is
flipped, its rows are about the distance from the upper bound (`store`); a point
solves the tableau if it satisfies the equations of all rows, and the objective
less the reduced costs is its worth.  With nothing dropped, pivots and complements
change neither the solutions nor what these are worth (`Agrees.pivot`,
`Agrees.complement`), so a tableau reached by them still tells about the first one.

The columns that are not basic can be chosen freely: each choice is completed to
exactly one solution by reading the rows (`complete`).  Choosing zero everywhere
gives the vertex at which the tableau stands, and letting one column grow gives the
ray along which a step moves.

Main statements: `Agrees.pivot`, `Agrees.complement`, `Canonical.solves_complete`.
-/
import MarkovLogic.Proofs.Linear.Canonical
import MarkovLogic.Proofs.Traverse

namespace MarkovLogic.Linear

open scoped ExactField

variable {K : Type} [Field K] [LinearOrder K]

namespace Tableau

variable {t t' : Tableau K} {tol : Tolerance K} {r c : Nat} {row : TableauRow K} {u : K}

/-! ### Points -/

/-- Whether a column stands for the distance from its upper bound. -/
def isFlipped (t : Tableau K) (j : Nat) : Bool :=
  (t.columns[j]?.map Column.flipped).getD false

/-- The point as the rows see it; seen twice, it is the point again. -/
def store (t : Tableau K) (x : Nat → K) (j : Nat) : K :=
  if t.isFlipped j then (t.upperOf j).getD 0 - x j else x j

/-- The point satisfies the equations of the rows. -/
def Solves (t : Tableau K) (x : Nat → K) : Prop :=
  ∀ row ∈ t.rows, row.entries.dot (t.store x) = row.value

/-- The objective at the point, as the reduced costs tell it. -/
def worth (t : Tableau K) (x : Nat → K) : K :=
  t.objective - form t.reduced (t.store x)

/-- The point respects the bounds of all columns. -/
def Within (t : Tableau K) (x : Nat → K) : Prop :=
  ∀ j < t.columns.size, 0 ≤ x j ∧ ∀ u, t.upperOf j = some u → x j ≤ u

theorem store_store (t : Tableau K) (y : Nat → K) : t.store (t.store y) = y := by
  funext j
  rw [store, store]
  split
  · exact sub_sub_cancel _ _
  · rfl

/-- The bounds are the same for a point and for what the rows see of it. -/
theorem Canonical.within_store [IsStrictOrderedRing K] (h : Canonical t) {y : Nat → K}
    (hy : t.Within y) : t.Within (t.store y) := by
  intro j hj
  rw [store]
  split
  · rename_i hflipped
    obtain ⟨col, hcol⟩ : ∃ col, t.columns[j]? = some col := ⟨_, Array.getElem?_eq_getElem hj⟩
    rw [isFlipped, hcol] at hflipped
    obtain ⟨u, hu⟩ := Option.isSome_iff_exists.mp
      (h.flipped col (Array.mem_of_getElem? hcol) hflipped)
    have hupper : t.upperOf j = some u := by
      rw [upperOf, hcol]
      exact hu
    obtain ⟨hnonneg, hle⟩ := hy j hj
    have hyu := hle u hupper
    rw [hupper]
    refine ⟨by simpa using hyu, fun v hv => ?_⟩
    cases hv
    simpa using hnonneg
  · exact hy j hj

/-! ### Tableaux that tell the same -/

/-- Two tableaux over the same columns with the same solutions, which are worth
the same. -/
structure Agrees (t t' : Tableau K) : Prop where
  size : t'.columns.size = t.columns.size
  rows : t'.rows.size = t.rows.size
  kindOf : ∀ j, t'.kindOf j = t.kindOf j
  upperOf : ∀ j, t'.upperOf j = t.upperOf j
  solves : ∀ x, t'.Solves x ↔ t.Solves x
  worth : ∀ x, t.Solves x → t'.worth x = t.worth x

theorem Agrees.refl (t : Tableau K) : Agrees t t :=
  ⟨rfl, rfl, fun _ => rfl, fun _ => rfl, fun _ => Iff.rfl, fun _ _ => rfl⟩

theorem Agrees.trans {t'' : Tableau K} (h : Agrees t t') (h' : Agrees t' t'') : Agrees t t'' where
  size := h'.size.trans h.size
  rows := h'.rows.trans h.rows
  kindOf j := (h'.kindOf j).trans (h.kindOf j)
  upperOf j := (h'.upperOf j).trans (h.upperOf j)
  solves x := (h'.solves x).trans (h.solves x)
  worth x hx := (h'.worth x ((h.solves x).mpr hx)).trans (h.worth x hx)

/-! ### Pivots -/

theorem store_pivot (tol : Tolerance K) (t : Tableau K) (r c : Nat) (x : Nat → K) :
    (t.pivot tol r c).store x = t.store x := by
  funext j
  rw [store, store, upperOf_pivot, isFlipped, columns_pivot, isFlipped]

theorem dot_unit (row : TableauRow K) (c : Nat) (y : Nat → K) :
    (row.unit c).entries.dot y = 1 / row.entries.coeff c * row.entries.dot y :=
  SparseRow.dot_scale _ _ _

/-- Clearing a column subtracts the multiple of the unit row, from the form and
from the value. -/
theorem dot_clear [IsStrictOrderedRing K] {other unit : TableauRow K}
    (hother : other.entries.Sorted) (hunit : unit.entries.Sorted)
    (hone : unit.entries.coeff c = 1) (y : Nat → K) :
    (other.clear 0 unit c).entries.dot y =
      other.entries.dot y - other.entries.coeff c * unit.entries.dot y := by
  rw [TableauRow.clear]
  split
  · rename_i hzero
    rw [beq_iff_eq.mp hzero, zero_mul, sub_zero]
  · refine SparseRow.dot_eliminate hother hunit ?_ y
    rw [hone, mul_one, sub_self]

theorem value_clear (other unit : TableauRow K) (drop : K) (c : Nat) :
    (other.clear drop unit c).value = other.value - other.entries.coeff c * unit.value := by
  rw [TableauRow.clear]
  split
  · rename_i hzero
    rw [beq_iff_eq.mp hzero, zero_mul, sub_zero]
  · rfl

theorem dot_unit_eq_value_iff {row : TableauRow K} (hc : row.entries.coeff c ≠ 0)
    (y : Nat → K) :
    (row.unit c).entries.dot y = (row.unit c).value ↔ row.entries.dot y = row.value := by
  have hinv : 1 / row.entries.coeff c ≠ 0 := one_div_ne_zero hc
  rw [dot_unit, TableauRow.unit, mul_comm row.value]
  exact mul_right_inj' hinv

theorem Canonical.solves_pivot [IsStrictOrderedRing K] (h : Canonical t) (hdrop : tol.drop = 0)
    (hrow : t.rows[r]? = some row) (hc : row.entries.coeff c ≠ 0) (x : Nat → K) :
    (t.pivot tol r c).Solves x ↔ t.Solves x := by
  have hmem := Array.mem_of_getElem? hrow
  have hsorted := h.sorted row hmem
  -- both ways it comes first that the pivot row is satisfied
  have hclear (y : Nat → K) (hy : (row.unit c).entries.dot y = (row.unit c).value)
      {other : TableauRow K} (hother : other ∈ t.rows) :
      (other.clear tol.drop (row.unit c) c).entries.dot y =
          (other.clear tol.drop (row.unit c) c).value ↔
        other.entries.dot y = other.value := by
    rw [value_clear, hdrop, dot_clear (h.sorted other hother) (TableauRow.sorted_unit hsorted c)
      (TableauRow.coeff_unit hsorted hc), hy]
    exact sub_left_inj
  rw [Solves, Solves, store_pivot]
  constructor
  · intro hx
    have hpivot : (row.unit c).entries.dot (t.store x) = (row.unit c).value := by
      apply hx
      apply Array.mem_of_getElem? (i := r)
      rw [getElem?_rows_pivot tol hrow, hrow, Option.map_some, if_pos rfl]
    intro other hother
    obtain ⟨i, hi⟩ := Array.mem_iff_getElem?.mp hother
    by_cases heq : i = r
    · rw [heq, hrow] at hi
      cases hi
      exact (dot_unit_eq_value_iff hc _).mp hpivot
    · rw [← hclear _ hpivot hother]
      apply hx
      apply Array.mem_of_getElem? (i := i)
      rw [getElem?_rows_pivot tol hrow, hi, Option.map_some, if_neg heq]
  · intro hx
    have hpivot := (dot_unit_eq_value_iff hc (t.store x)).mpr (hx row hmem)
    refine forall_rows_pivot hrow hpivot fun i other hother _ => ?_
    have hother := Array.mem_of_getElem? hother
    exact (hclear _ hpivot hother).mpr (hx other hother)

/-- **A pivot changes neither the solutions nor their worth.** -/
theorem Agrees.pivot [IsStrictOrderedRing K] (h : Canonical t) (hdrop : tol.drop = 0)
    (hrow : t.rows[r]? = some row) (hc : row.entries.coeff c ≠ 0) :
    Agrees t (t.pivot tol r c) := by
  refine ⟨by rw [columns_pivot], size_rows_pivot tol t r c, kindOf_pivot tol t r c,
    upperOf_pivot tol t r c, h.solves_pivot hdrop hrow hc, fun x hx => ?_⟩
  -- the row that is taken away from the objective is satisfied
  have hunit := (dot_unit_eq_value_iff hc (t.store x)).mpr (hx row (Array.mem_of_getElem? hrow))
  rw [Tableau.worth, Tableau.worth, store_pivot, objective_pivot tol hrow, h.form_pivot hrow hc,
    hunit]
  ring

/-! ### Complements -/

/-- Changing one coordinate changes a form by the coefficient's multiple. -/
theorem dot_update {row : SparseRow K} (h : row.Sorted) (y : Nat → K) (c : Nat) (a : K) :
    row.dot (Function.update y c a) = row.dot y + row.coeff c * (a - y c) := by
  have hsplit : Function.update y c a =
      fun j => y j + Pi.single (M := fun _ => K) c (a - y c) j := by
    funext j
    by_cases hj : j = c
    · subst hj
      simp
    · simp [hj]
  rw [hsplit, SparseRow.dot_add, SparseRow.dot_eq_mul h (y := Pi.single c (a - y c)) (j := c)]
  · rw [Pi.single_eq_same]
  · exact fun e _ hne => Pi.single_eq_of_ne hne _

theorem form_update {z : Array K} (hc : c < z.size) (y : Nat → K) (a : K) :
    form z (Function.update y c a) = form z y + z.getD c 0 * (a - y c) := by
  have hmem : c ∈ Finset.range z.size := Finset.mem_range.mpr hc
  have hothers : ∑ j ∈ (Finset.range z.size).erase c, z.getD j 0 * Function.update y c a j =
      ∑ j ∈ (Finset.range z.size).erase c, z.getD j 0 * y j :=
    Finset.sum_congr rfl fun j hj => by
      rw [Function.update_of_ne (Finset.ne_of_mem_erase hj)]
  rw [form, form, ← Finset.add_sum_erase _ _ hmem,
    ← Finset.add_sum_erase _ (fun j => z.getD j 0 * y j) hmem, hothers, Function.update_self]
  ring

omit [Field K] [LinearOrder K] in
theorem lt_size_of_upperOf (hu : t.upperOf c = some u) : c < t.columns.size := by
  by_contra hge
  rw [upperOf, Array.getElem?_eq_none (by omega)] at hu
  cases hu

theorem isFlipped_complement (hc : c < t.columns.size) (u : K) (j : Nat) :
    (t.complement c u).isFlipped j = if j = c then !t.isFlipped c else t.isFlipped j := by
  rw [isFlipped, columns_complement, Array.getElem?_modify]
  by_cases hj : j = c
  · subst hj
    rw [if_pos rfl, if_pos rfl, isFlipped, Array.getElem?_eq_getElem hc]
    rfl
  · rw [if_neg (Ne.symm hj), if_neg hj, isFlipped]

/-- After a complement the rows see the distance from the upper bound. -/
theorem store_complement (hu : t.upperOf c = some u) (x : Nat → K) :
    (t.complement c u).store x = Function.update (t.store x) c (u - t.store x c) := by
  funext j
  rw [store, isFlipped_complement (lt_size_of_upperOf hu), upperOf_complement]
  by_cases hj : j = c
  · subst hj
    rw [if_pos rfl, Function.update_self, store, hu]
    cases t.isFlipped j <;> simp
  · rw [if_neg hj, Function.update_of_ne hj, store]

theorem dot_mirror (h : row.entries.Sorted) (c : Nat) (u : K) (y : Nat → K) :
    (row.mirror c u).entries.dot (Function.update y c (u - y c)) =
      row.entries.dot y - row.entries.coeff c * u := by
  have hmirror : (row.mirror c u).entries.dot (Function.update y c (u - y c)) =
      row.entries.dot (Function.update y c (y c - u)) := by
    refine SparseRow.dot_negateAt c row.entries ?_ fun j hj => ?_
    · rw [Function.update_self, Function.update_self, neg_sub]
    · rw [Function.update_of_ne hj, Function.update_of_ne hj]
  rw [hmirror, dot_update h]
  ring

/-- **A complement changes neither the solutions nor their worth.** -/
theorem Agrees.complement (h : Canonical t) (hu : t.upperOf c = some u) :
    Agrees t (t.complement c u) := by
  have hc : c < t.reduced.size := by
    rw [h.size_reduced]
    exact lt_size_of_upperOf hu
  refine ⟨size_columns_complement t c u, ?_, kindOf_complement t c u, upperOf_complement t c u,
    fun x => ?_, fun x _ => ?_⟩
  · rw [rows_complement, Array.size_map]
  · have hrow (row : TableauRow K) (hrow : row ∈ t.rows) :
        (row.mirror c u).entries.dot ((t.complement c u).store x) = (row.mirror c u).value ↔
          row.entries.dot (t.store x) = row.value := by
      rw [store_complement hu, dot_mirror (h.sorted row hrow), TableauRow.mirror]
      exact sub_left_inj
    rw [Solves, Solves, rows_complement, Array.forall_mem_map]
    exact forall₂_congr hrow
  · rw [Tableau.worth, Tableau.worth, objective_complement, form_complement hc,
      store_complement hu, form_update hc, Function.update_self, reducedCost]
    ring

/-! ### Completing a choice -/

/-- The row in which a column is basic. -/
def rowOf? (t : Tableau K) (j : Nat) : Option (TableauRow K) :=
  t.rows.toList.find? fun row => row.basic == j

/-- What is chosen for the columns that are not basic, and for the basic ones what
their rows then say. -/
def complete (t : Tableau K) (w : Nat → K) (j : Nat) : K :=
  match t.rowOf? j with
  | some row => row.value - row.entries.dot w
  | none => w j

theorem Canonical.rowOf?_eq_some_iff (h : Canonical t) {j : Nat} :
    t.rowOf? j = some row ↔ row ∈ t.rows ∧ row.basic = j := by
  rw [rowOf?, find?_eq_some_iff_of_unique, Array.mem_toList_iff, beq_iff_eq]
  intro first hfirst second hsecond hj hj'
  obtain ⟨i, hi⟩ := Array.mem_iff_getElem?.mp (Array.mem_toList_iff.mp hfirst)
  obtain ⟨k, hk⟩ := Array.mem_iff_getElem?.mp (Array.mem_toList_iff.mp hsecond)
  have hsame := h.eq_of_basic_eq hi hk ((beq_iff_eq.mp hj).trans (beq_iff_eq.mp hj').symm)
  rw [hsame, hk] at hi
  exact (Option.some.inj hi).symm

theorem Canonical.complete_basic (h : Canonical t) (hrow : row ∈ t.rows) (w : Nat → K) :
    t.complete w row.basic = row.value - row.entries.dot w := by
  rw [complete, h.rowOf?_eq_some_iff.mpr ⟨hrow, rfl⟩]

theorem Canonical.complete_of_ne (h : Canonical t) {j : Nat} (hj : ∀ row ∈ t.rows, row.basic ≠ j)
    (w : Nat → K) : t.complete w j = w j := by
  have hnone : t.rowOf? j = none := by
    rcases hrow : t.rowOf? j with _ | row
    · rfl
    · obtain ⟨hmem, heq⟩ := h.rowOf?_eq_some_iff.mp hrow
      exact absurd heq (hj row hmem)
  rw [complete, hnone]

/-- A column is basic or stays as it is chosen. -/
theorem Canonical.complete_cases (h : Canonical t) (w : Nat → K) (j : Nat) :
    (∃ row ∈ t.rows, row.basic = j ∧ t.complete w j = row.value - row.entries.dot w) ∨
      (∀ row ∈ t.rows, row.basic ≠ j) ∧ t.complete w j = w j := by
  by_cases hj : ∃ row ∈ t.rows, row.basic = j
  · obtain ⟨row, hrow, rfl⟩ := hj
    exact .inl ⟨row, hrow, rfl, h.complete_basic hrow w⟩
  · push Not at hj
    exact .inr ⟨hj, h.complete_of_ne hj w⟩

/-- **Every choice for the columns that are not basic is completed to a
solution.** -/
theorem Canonical.solves_complete (h : Canonical t) {w : Nat → K}
    (hw : ∀ row ∈ t.rows, w row.basic = 0) : t.Solves (t.store (t.complete w)) := by
  intro row hrow
  rw [store_store]
  -- of the basic columns the row has its own only
  have hdiff : row.entries.dot (fun j => t.complete w j - w j) = row.value - row.entries.dot w := by
    rw [SparseRow.dot_eq_mul (h.sorted row hrow) (j := row.basic), h.coeff_basic hrow, one_mul,
      h.complete_basic hrow, hw row hrow, sub_zero]
    intro e he hne
    refine sub_eq_zero.mpr (h.complete_of_ne (fun other hother heq => ?_) w)
    obtain ⟨i, hi⟩ := Array.mem_iff_getElem?.mp hrow
    obtain ⟨k, hk⟩ := Array.mem_iff_getElem?.mp hother
    have hik : i ≠ k := by
      rintro rfl
      rw [hi] at hk
      cases hk
      exact hne heq.symm
    exact h.other i k row other hi hk hik (heq ▸ List.mem_map_of_mem he)
  have hsum : t.complete w = fun j => w j + (t.complete w j - w j) := by
    funext j
    ring
  rw [hsum, SparseRow.dot_add, hdiff]
  ring

/-- Only the columns that are not basic count for the worth of the completion. -/
theorem Canonical.worth_complete (h : Canonical t) (hpriced : Priced t) (w : Nat → K) :
    t.worth (t.store (t.complete w)) = t.objective - form t.reduced w := by
  rw [worth, store_store, form, form]
  congr 1
  refine Finset.sum_congr rfl fun j _ => ?_
  rcases h.complete_cases w j with ⟨row, hrow, rfl, -⟩ | ⟨-, heq⟩
  · have hzero : t.reduced.getD row.basic 0 = 0 := hpriced row hrow
    rw [hzero, zero_mul, zero_mul]
  · rw [heq]

/-- The completion is within the bounds if it is in each row. -/
theorem Canonical.within_complete (h : Canonical t) {w : Nat → K} (hw : t.Within w)
    (hrows : ∀ row ∈ t.rows, 0 ≤ row.value - row.entries.dot w ∧
      ∀ u, t.upperOf row.basic = some u → row.value - row.entries.dot w ≤ u) :
    t.Within (t.complete w) := by
  intro j hj
  rcases h.complete_cases w j with ⟨row, hrow, rfl, heq⟩ | ⟨-, heq⟩
  · rw [heq]
    exact hrows row hrow
  · rw [heq]
    exact hw j hj

end Tableau

end MarkovLogic.Linear
