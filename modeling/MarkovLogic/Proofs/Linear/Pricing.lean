/-
MarkovLogic/Proofs/Linear/Pricing.lean

What pricing does.

Pricing starts from the negated costs and adds, for each row, the multiple that
clears its basic column.  Solutions satisfy the rows, so this does not change what
they are worth, and in the end the worth of a solution is its cost
(`Canonical.worth_price`), while basic columns have no reduced cost
(`Canonical.priced_price`).

Main statements: `Canonical.worth_price`, `Canonical.priced_price`.
-/
import MarkovLogic.Proofs.Linear.Solutions

namespace MarkovLogic.Linear

open scoped ExactField

variable {K : Type} [Field K] [LinearOrder K]

namespace Tableau

variable {t : Tableau K}

/-! ### Sums over lists by position -/

theorem sum_map_eq_sum_range {β : Type} (l : List β) (f : β → K) :
    (l.map f).sum = ∑ i ∈ Finset.range l.length, l[i]?.elim 0 f := by
  induction l with
  | nil => rfl
  | cons x l ih =>
    rw [List.map_cons, List.sum_cons, ih, List.length_cons, Finset.sum_range_succ']
    simp [add_comm]

theorem sum_filterMap {β : Type} (l : List β) (f : β → Option K) :
    (l.filterMap f).sum = (l.map fun b => (f b).getD 0).sum := by
  induction l with
  | nil => rfl
  | cons x l ih =>
    rw [List.filterMap_cons, List.map_cons, List.sum_cons, ← ih]
    cases f x <;> simp

/-! ### The steps of pricing -/

/-- The costs as the columns are stored. -/
def effective (t : Tableau K) (cost : Array K) : Array K :=
  t.columns.mapIdx fun j c => if c.flipped then -(cost.getD j 0) else cost.getD j 0

/-- What the flipped columns cost at their bounds. -/
def atBounds (t : Tableau K) (cost : Array K) : K :=
  Scalar.sum <| t.columns.toList.zipIdx.filterMap fun (c, j) =>
    if c.flipped ∧ cost.getD j 0 != 0 then c.upper.map (cost.getD j 0 * ·) else none

/-- Clears the basic column of a row from the reduced costs. -/
def priceRow (effective : Array K) (t : Tableau K) (row : TableauRow K) : Tableau K :=
  let cb := effective.getD row.basic 0
  if cb == 0 then t
  else { t with
    reduced := addToReduced t.reduced row.entries fun z a => z + cb * a
    objective := t.objective + cb * row.value }

theorem price_eq (t : Tableau K) (cost : Array K) :
    t.price cost = t.rows.toList.foldl (priceRow (t.effective cost))
      { t with reduced := (t.effective cost).map fun c => -c, objective := t.atBounds cost } := by
  rw [price, ← Array.foldl_toList]
  rfl

/-- Clearing the basic columns of some rows. -/
theorem foldl_priceRow (eff : Array K) (rows : List (TableauRow K)) (s : Tableau K)
    (hcolumns : ∀ row ∈ rows, ∀ j ∈ row.entries.columns, j < s.reduced.size) :
    let priced := rows.foldl (priceRow eff) s
    priced.rows = s.rows ∧ priced.columns = s.columns ∧ priced.reduced.size = s.reduced.size ∧
      priced.objective = s.objective + (rows.map fun row => eff.getD row.basic 0 * row.value).sum ∧
      ∀ y, form priced.reduced y =
        form s.reduced y + (rows.map fun row => eff.getD row.basic 0 * row.entries.dot y).sum := by
  induction rows generalizing s with
  | nil => simp
  | cons row rows ih =>
    -- a row whose basic column costs nothing is passed over, which adds zero as well
    have hstep : (priceRow eff s row).rows = s.rows ∧ (priceRow eff s row).columns = s.columns ∧
        (priceRow eff s row).reduced.size = s.reduced.size ∧
        (priceRow eff s row).objective = s.objective + eff.getD row.basic 0 * row.value ∧
        ∀ y, form (priceRow eff s row).reduced y =
          form s.reduced y + eff.getD row.basic 0 * row.entries.dot y := by
      rw [priceRow]
      split
      · rename_i hzero
        simp [beq_iff_eq.mp hzero]
      · exact ⟨rfl, rfl, size_addToReduced _ _ _, rfl, fun y =>
          form_addToReduced (fun _ _ => rfl) (hcolumns row List.mem_cons_self) y⟩
    obtain ⟨hrows, hcols, hsize, hobjective, hform⟩ := hstep
    obtain ⟨hrows', hcols', hsize', hobjective', hform'⟩ := ih (priceRow eff s row)
      fun row' hrow' => hsize ▸ hcolumns row' (List.mem_cons_of_mem row hrow')
    refine ⟨hrows'.trans hrows, hcols'.trans hcols, hsize'.trans hsize, ?_, fun y => ?_⟩
    · rw [List.foldl_cons, hobjective', hobjective, List.map_cons, List.sum_cons, add_assoc]
    · rw [List.foldl_cons, hform', hform, List.map_cons, List.sum_cons, add_assoc]

/-- What pricing leaves alone, and the objective and the form that it ends
with. -/
theorem Canonical.price_cases (h : Canonical t) (cost : Array K) :
    (t.price cost).rows = t.rows ∧ (t.price cost).columns = t.columns ∧
      (t.price cost).reduced.size = t.columns.size ∧
      (t.price cost).objective = t.atBounds cost +
        (t.rows.toList.map fun row => (t.effective cost).getD row.basic 0 * row.value).sum ∧
      ∀ y, form (t.price cost).reduced y = form ((t.effective cost).map fun c => -c) y +
        (t.rows.toList.map fun row =>
          (t.effective cost).getD row.basic 0 * row.entries.dot y).sum := by
  rw [price_eq]
  have hsize : ((t.effective cost).map fun c => -c).size = t.columns.size := by
    rw [Array.size_map, effective, Array.size_mapIdx]
  obtain ⟨hrows, hcolumns, hreduced, hobjective, hform⟩ := foldl_priceRow (t.effective cost)
    t.rows.toList
    { t with reduced := (t.effective cost).map fun c => -c, objective := t.atBounds cost }
    fun row hrow => hsize ▸ h.lt_size row (Array.mem_toList_iff.mp hrow)
  exact ⟨hrows, hcolumns, hreduced.trans hsize, hobjective, hform⟩

theorem Canonical.store_price (h : Canonical t) (cost : Array K) (x : Nat → K) :
    (t.price cost).store x = t.store x := by
  obtain ⟨-, hcolumns, -⟩ := h.price_cases cost
  funext j
  rw [store, store, isFlipped, upperOf, hcolumns, isFlipped, upperOf]

theorem Canonical.solves_price (h : Canonical t) (cost : Array K) {x : Nat → K} :
    (t.price cost).Solves x ↔ t.Solves x := by
  rw [Solves, Solves, h.store_price, (h.price_cases cost).1]

/-- Pricing keeps the canonical form. -/
theorem Canonical.price (h : Canonical t) (cost : Array K) : Canonical (t.price cost) := by
  obtain ⟨hrows, hcolumns, hreduced, -⟩ := h.price_cases cost
  refine ⟨hreduced.trans (congrArg Array.size hcolumns).symm, ?_, ?_, ?_, ?_, ?_, ?_⟩
  · rw [hrows]
    exact h.sorted
  · rw [hrows]
    exact h.nonzero
  · rw [hrows, hcolumns]
    exact h.lt_size
  · rw [hrows]
    exact h.own
  · rw [hrows]
    exact h.other
  · rw [hcolumns]
    exact h.flipped

/-! ### The result -/

theorem getD_effective {j : Nat} (hj : j < t.columns.size) (cost : Array K) :
    (t.effective cost).getD j 0 = if t.isFlipped j then -(cost.getD j 0) else cost.getD j 0 := by
  rw [effective, Array.getD_eq_getD_getElem?, Array.getElem?_mapIdx, isFlipped,
    Array.getElem?_eq_getElem hj]
  rfl

theorem form_neg_effective (t : Tableau K) (cost : Array K) (y : Nat → K) :
    form ((t.effective cost).map fun c => -c) y =
      -∑ j ∈ Finset.range t.columns.size, (t.effective cost).getD j 0 * y j := by
  rw [form, Array.size_map, effective, Array.size_mapIdx, ← Finset.sum_neg_distrib, ← effective]
  refine Finset.sum_congr rfl fun j _ => ?_
  rw [← neg_mul]
  congr 1
  simp only [Array.getD_eq_getD_getElem?, Array.getElem?_map]
  cases (t.effective cost)[j]? <;> simp

theorem atBounds_eq (t : Tableau K) (cost : Array K) :
    t.atBounds cost = ∑ j ∈ Finset.range t.columns.size,
      if t.isFlipped j then cost.getD j 0 * (t.upperOf j).getD 0 else 0 := by
  rw [atBounds, ExactField.sum_eq, sum_filterMap, sum_map_eq_sum_range, List.length_zipIdx,
    Array.length_toList]
  refine Finset.sum_congr rfl fun j hj => ?_
  obtain ⟨col, hcol⟩ : ∃ col, t.columns[j]? = some col :=
    ⟨_, Array.getElem?_eq_getElem (Finset.mem_range.mp hj)⟩
  rw [List.getElem?_zipIdx, Array.getElem?_toList, hcol, isFlipped, upperOf, hcol]
  simp only [Option.map_some, Option.elim_some, Option.getD_some, Option.bind_some, zero_add]
  generalize cost.getD j 0 = a
  rcases col with ⟨kind, _ | u, _ | _⟩ <;> by_cases hzero : a = 0 <;> simp [hzero]

/-- What a point costs. -/
def costAt (t : Tableau K) (cost : Array K) (x : Nat → K) : K :=
  ∑ j ∈ Finset.range t.columns.size, cost.getD j 0 * x j

/-- **The worth of a solution of a priced tableau is its cost.** -/
theorem Canonical.worth_price (h : Canonical t) (cost : Array K) {x : Nat → K} (hx : t.Solves x) :
    (t.price cost).worth x = t.costAt cost x := by
  obtain ⟨-, -, -, hobjective, hform⟩ := h.price_cases cost
  -- the rows are satisfied, so what is added for them cancels
  have hcancel : (t.rows.toList.map fun row =>
      (t.effective cost).getD row.basic 0 * row.entries.dot (t.store x)).sum =
        (t.rows.toList.map fun row => (t.effective cost).getD row.basic 0 * row.value).sum :=
    congrArg List.sum (List.map_congr_left fun row hrow => by
      rw [hx row (Array.mem_toList_iff.mp hrow)])
  rw [worth, h.store_price, hobjective, hform, hcancel, form_neg_effective, atBounds_eq]
  -- a flipped column costs what its bound costs less what the distance from it costs
  have hsum : t.costAt cost x =
      ∑ j ∈ Finset.range t.columns.size,
        (if t.isFlipped j then cost.getD j 0 * (t.upperOf j).getD 0 else 0) +
      ∑ j ∈ Finset.range t.columns.size, (t.effective cost).getD j 0 * t.store x j := by
    rw [costAt, ← Finset.sum_add_distrib]
    refine Finset.sum_congr rfl fun j hj => ?_
    rw [getD_effective (Finset.mem_range.mp hj), store]
    split <;> ring
  rw [hsum]
  ring

/-- **Pricing clears the reduced costs of the basic columns.** -/
theorem Canonical.priced_price (h : Canonical t) (cost : Array K) : Priced (t.price cost) := by
  obtain ⟨hrows, -, hreduced, -, hform⟩ := h.price_cases cost
  intro row hrow
  rw [hrows] at hrow
  obtain ⟨i, hi⟩ := Array.mem_iff_getElem?.mp hrow
  have hlt := h.basic_lt hrow
  -- of all rows only this one has the column
  have hsum : (t.rows.toList.map fun other => (t.effective cost).getD other.basic 0 *
      other.entries.dot (Pi.single row.basic 1)).sum = (t.effective cost).getD row.basic 0 := by
    have hlength : i < t.rows.toList.length := by
      rw [Array.length_toList]
      exact (Array.getElem?_eq_some_iff.mp hi).1
    rw [sum_map_eq_sum_range, Finset.sum_eq_single_of_mem i (Finset.mem_range.mpr hlength)]
    · rw [Array.getElem?_toList, hi, Option.elim_some, SparseRow.dot_single (h.sorted row hrow),
        h.coeff_basic hrow, mul_one]
    · intro k _ hne
      rw [Array.getElem?_toList]
      rcases hk : t.rows[k]? with _ | other
      · rfl
      · rw [Option.elim_some, SparseRow.dot_single (h.sorted other (Array.mem_of_getElem? hk)),
          SparseRow.coeff_eq_zero (h.other k i other row hk hi hne), mul_zero]
  have hsingle : form ((t.effective cost).map fun c => -c) (Pi.single row.basic 1) =
      -(t.effective cost).getD row.basic 0 := by
    rw [form_neg_effective, Finset.sum_eq_single_of_mem row.basic (Finset.mem_range.mpr hlt)]
    · rw [Pi.single_eq_same, mul_one]
    · intro j _ hne
      rw [Pi.single_eq_of_ne hne, mul_zero]
  rw [reducedCost, ← form_single (by rwa [hreduced]), hform, hsum, hsingle, neg_add_cancel]

end Tableau

end MarkovLogic.Linear
