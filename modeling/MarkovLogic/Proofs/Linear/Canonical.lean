/-
MarkovLogic/Proofs/Linear/Canonical.lean

The form that tableaux keep.

Each row expresses its basic column by columns that are not basic: it has the
coefficient one there and no entry for the basic column of another row
(`Canonical`).  A pivot divides one row so that the entering column has
coefficient one in it, and clears that column from all other rows; complementing
a column changes signs.  Both keep the form, whatever the tolerances are, as long
as entries of size one are not dropped (`Canonical.pivot`,
`Canonical.complement`).

Once a tableau is priced, basic columns have no reduced cost, and pivots keep it
that way (`Priced.pivot`).  The reduced costs are treated as a linear form, too:
adding a multiple of a row to them adds the multiple of the row's form
(`form_addToReduced`).
-/
import MarkovLogic.Proofs.Linear.Sparse
import MarkovLogic.Linear.Tableau

namespace MarkovLogic.Linear

open scoped ExactField

variable {K : Type} [Field K] [LinearOrder K]

namespace TableauRow

/-! ### Rows -/

/-- The row divided by its coefficient of `c`, which becomes basic. -/
def unit (row : TableauRow K) (c : Nat) : TableauRow K :=
  ⟨row.entries.scale (1 / row.entries.coeff c), row.value * (1 / row.entries.coeff c), c⟩

/-- The row without column `c`, which is basic in the row `unit`. -/
def clear (row : TableauRow K) (drop : K) (unit : TableauRow K) (c : Nat) : TableauRow K :=
  if row.entries.coeff c == 0 then row
  else { row with
    entries := SparseRow.eliminate drop row.entries (row.entries.coeff c) unit.entries c
    value := row.value - row.entries.coeff c * unit.value }

/-- The row after column `c` is replaced by its distance from `u`. -/
def mirror (c : Nat) (u : K) (row : TableauRow K) : TableauRow K :=
  ⟨row.entries.negateAt c, row.value - row.entries.coeff c * u, row.basic⟩

theorem columns_unit (row : TableauRow K) (c : Nat) :
    (row.unit c).entries.columns = row.entries.columns :=
  SparseRow.columns_scale _ _

theorem sorted_unit {row : TableauRow K} (h : row.entries.Sorted) (c : Nat) :
    (row.unit c).entries.Sorted :=
  h.scale _

theorem coeff_unit {row : TableauRow K} {c : Nat} (h : row.entries.Sorted)
    (hc : row.entries.coeff c ≠ 0) : (row.unit c).entries.coeff c = 1 := by
  rw [← SparseRow.dot_single (sorted_unit h c), unit, SparseRow.dot_scale, SparseRow.dot_single h]
  exact one_div_mul_cancel hc

theorem basic_clear (row : TableauRow K) (drop : K) (unit : TableauRow K) (c : Nat) :
    (row.clear drop unit c).basic = row.basic := by
  rw [clear]
  split <;> rfl

theorem sorted_clear {row unit : TableauRow K} {c : Nat} (drop : K) (hrow : row.entries.Sorted)
    (hunit : unit.entries.Sorted) : (row.clear drop unit c).entries.Sorted := by
  rw [clear]
  split
  · exact hrow
  · exact hrow.eliminate hunit _ _ _

end TableauRow

namespace Tableau

variable {t : Tableau K} {tol : Tolerance K} {r c : Nat} {row : TableauRow K} {u : K}

/-! ### What the operations do to rows and columns -/

theorem getElem?_rows_pivot (tol : Tolerance K) (hrow : t.rows[r]? = some row) (c i : Nat) :
    (t.pivot tol r c).rows[i]? = (t.rows[i]?).map fun other =>
      if i = r then row.unit c else other.clear tol.drop (row.unit c) c := by
  rw [pivot, hrow]
  dsimp only
  split <;> rw [Array.getElem?_mapIdx] <;> rfl

theorem size_rows_pivot (tol : Tolerance K) (t : Tableau K) (r c : Nat) :
    (t.pivot tol r c).rows.size = t.rows.size := by
  rw [pivot]
  split
  · rfl
  · dsimp only
    split <;> exact Array.size_mapIdx

theorem columns_pivot (tol : Tolerance K) (t : Tableau K) (r c : Nat) :
    (t.pivot tol r c).columns = t.columns := by
  rw [pivot]
  split
  · rfl
  · dsimp only
    split <;> rfl

theorem rows_complement (t : Tableau K) (c : Nat) (u : K) :
    (t.complement c u).rows = t.rows.map (TableauRow.mirror c u) := by
  rw [complement]
  refine Array.map_congr_left fun row _ => ?_
  rcases hfind : row.entries.find? fun e => e.1 == c with _ | e
  · -- without an entry for the column nothing changes
    have hnone : ∀ e ∈ row.entries, e.1 ≠ c := by simpa using hfind
    have hsame : row.entries.negateAt c = row.entries := by
      rw [SparseRow.negateAt]
      exact (List.map_congr_left fun e he => if_neg (hnone e he)).trans (List.map_id _)
    rw [TableauRow.mirror, hsame, SparseRow.coeff, hfind]
    simp
  · rw [TableauRow.mirror, SparseRow.coeff, hfind]

theorem columns_complement (t : Tableau K) (c : Nat) (u : K) :
    (t.complement c u).columns =
      t.columns.modify c fun col => { col with flipped := !col.flipped } :=
  rfl

theorem size_columns_complement (t : Tableau K) (c : Nat) (u : K) :
    (t.complement c u).columns.size = t.columns.size := by
  rw [columns_complement, Array.size_modify]

@[simp] theorem upperOf_pivot (tol : Tolerance K) (t : Tableau K) (r c j : Nat) :
    (t.pivot tol r c).upperOf j = t.upperOf j := by
  rw [upperOf, columns_pivot, upperOf]

@[simp] theorem kindOf_pivot (tol : Tolerance K) (t : Tableau K) (r c j : Nat) :
    (t.pivot tol r c).kindOf j = t.kindOf j := by
  rw [kindOf, columns_pivot, kindOf]

@[simp] theorem upperOf_complement (t : Tableau K) (c : Nat) (u : K) (j : Nat) :
    (t.complement c u).upperOf j = t.upperOf j := by
  rw [upperOf, columns_complement, Array.getElem?_modify, upperOf]
  by_cases heq : c = j
  · subst heq
    rw [if_pos rfl]
    cases t.columns[c]? <;> rfl
  · rw [if_neg heq]

@[simp] theorem kindOf_complement (t : Tableau K) (c : Nat) (u : K) (j : Nat) :
    (t.complement c u).kindOf j = t.kindOf j := by
  rw [kindOf, columns_complement, Array.getElem?_modify, kindOf]
  by_cases heq : c = j
  · subst heq
    rw [if_pos rfl]
    cases t.columns[c]? <;> rfl
  · rw [if_neg heq]

/-! ### Reduced costs -/

/-- The linear form of some reduced costs. -/
def form (z : Array K) (y : Nat → K) : K :=
  ∑ j ∈ Finset.range z.size, z.getD j 0 * y j

/-- The reduced costs are the values of the form at unit vectors. -/
theorem form_single {z : Array K} {j : Nat} (hj : j < z.size) :
    form z (Pi.single j 1) = z.getD j 0 := by
  rw [form, Finset.sum_eq_single_of_mem j (Finset.mem_range.mpr hj), Pi.single_eq_same, mul_one]
  intro i _ hne
  rw [Pi.single_eq_of_ne hne, mul_zero]

theorem form_modify {z : Array K} {j : Nat} (hj : j < z.size) (f : K → K) (y : Nat → K) :
    form (z.modify j f) y = form z y + (f (z.getD j 0) - z.getD j 0) * y j := by
  have hmem : j ∈ Finset.range z.size := Finset.mem_range.mpr hj
  have hothers : ∑ i ∈ (Finset.range z.size).erase j, (z.modify j f).getD i 0 * y i =
      ∑ i ∈ (Finset.range z.size).erase j, z.getD i 0 * y i := by
    refine Finset.sum_congr rfl fun i hi => ?_
    rw [Array.getD_eq_getD_getElem?, Array.getElem?_modify,
      if_neg (Finset.ne_of_mem_erase hi).symm, Array.getD_eq_getD_getElem?]
  -- one summand of the form changes
  have hchanged : (z.modify j f).getD j 0 = f (z.getD j 0) := by
    rw [Array.getD_eq_getD_getElem?, Array.getElem?_modify, if_pos rfl, Array.getD_eq_getD_getElem?,
      Array.getElem?_eq_getElem hj]
    rfl
  rw [form, form, Array.size_modify, ← Finset.add_sum_erase _ _ hmem,
    ← Finset.add_sum_erase _ (fun i => z.getD i 0 * y i) hmem, hothers, hchanged]
  ring

theorem form_setIfInBounds {z : Array K} {j : Nat} (hj : j < z.size) (a : K) (y : Nat → K) :
    form (z.setIfInBounds j a) y = form z y + (a - z.getD j 0) * y j := by
  have hsame : z.setIfInBounds j a = z.modify j fun _ => a := by
    refine Array.ext_getElem? fun i => ?_
    rw [Array.getElem?_setIfInBounds, Array.getElem?_modify]
    by_cases hi : j = i
    · subst hi
      simp [hj]
    · rw [if_neg hi, if_neg hi]
  rw [hsame, form_modify hj]

omit [Field K] [LinearOrder K] in
theorem size_addToReduced (z : Array K) (row : SparseRow K) (change : K → K → K) :
    (addToReduced z row change).size = z.size := by
  rw [addToReduced]
  exact List.foldlRecOn (motive := fun w : Array K => w.size = z.size) row _ rfl
    fun w hw e _ => (Array.size_modify).trans hw

/-- Adding a multiple of a row to the reduced costs adds it to their form. -/
theorem form_addToReduced {z : Array K} {row : SparseRow K} {change : K → K → K} {k : K}
    (hchange : ∀ x a, change x a = x + k * a) (hcolumns : ∀ j ∈ row.columns, j < z.size)
    (y : Nat → K) : form (addToReduced z row change) y = form z y + k * row.dot y := by
  rw [addToReduced]
  induction row generalizing z with
  | nil => simp
  | cons e row ih =>
    have he : e.1 < z.size := hcolumns e.1 List.mem_cons_self
    rw [List.foldl_cons, ih, form_modify he, hchange, SparseRow.dot_cons]
    · ring
    · intro j hj
      rw [Array.size_modify]
      exact hcolumns j (List.mem_cons_of_mem e.1 hj)

theorem size_reduced_pivot (tol : Tolerance K) (t : Tableau K) (r c : Nat) :
    (t.pivot tol r c).reduced.size = t.reduced.size := by
  rw [pivot]
  split
  · rfl
  · dsimp only
    split
    · rfl
    · rw [Array.size_setIfInBounds, size_addToReduced]

/-! ### The canonical form -/

/-- The rows express their basic columns by the columns that are not basic. -/
structure Canonical (t : Tableau K) : Prop where
  /-- There is a reduced cost for each column. -/
  size_reduced : t.reduced.size = t.columns.size
  sorted : ∀ row ∈ t.rows, row.entries.Sorted
  nonzero : ∀ row ∈ t.rows, ∀ e ∈ row.entries, e.2 ≠ 0
  lt_size : ∀ row ∈ t.rows, ∀ j ∈ row.entries.columns, j < t.columns.size
  /-- A basic column has coefficient one in its row. -/
  own : ∀ row ∈ t.rows, (row.basic, 1) ∈ row.entries
  /-- A basic column has no entry in another row. -/
  other : ∀ (i k : Nat) (row row' : TableauRow K), t.rows[i]? = some row →
    t.rows[k]? = some row' → i ≠ k → row'.basic ∉ row.entries.columns
  /-- Only columns with an upper bound stand for the distance from it. -/
  flipped : ∀ col ∈ t.columns, col.flipped = true → col.upper.isSome = true

namespace Canonical

theorem basic_lt (h : Canonical t) (hrow : row ∈ t.rows) : row.basic < t.columns.size :=
  h.lt_size row hrow _ (SparseRow.mem_columns.mpr ⟨1, h.own row hrow⟩)

theorem coeff_basic (h : Canonical t) (hrow : row ∈ t.rows) : row.entries.coeff row.basic = 1 :=
  SparseRow.coeff_of_mem (h.sorted row hrow) (h.own row hrow)

/-- A column without coefficient has no entry. -/
theorem notMem_columns (h : Canonical t) (hrow : row ∈ t.rows) {j : Nat}
    (hzero : row.entries.coeff j = 0) : j ∉ row.entries.columns := by
  intro hmem
  obtain ⟨a, ha⟩ := SparseRow.mem_columns.mp hmem
  rw [SparseRow.coeff_of_mem (h.sorted row hrow) ha] at hzero
  exact h.nonzero row hrow _ ha hzero

/-- Rows are told apart by their basic columns. -/
theorem eq_of_basic_eq (h : Canonical t) {i k : Nat} {row' : TableauRow K}
    (hrow : t.rows[i]? = some row) (hrow' : t.rows[k]? = some row')
    (hbasic : row.basic = row'.basic) : i = k := by
  by_contra hne
  refine h.other i k row row' hrow hrow' hne (hbasic ▸ ?_)
  exact SparseRow.mem_columns.mpr ⟨1, h.own row (Array.mem_of_getElem? hrow)⟩

end Canonical

/-! ### Pivots -/

/-- What all rows after a pivot have in common with the rows before. -/
theorem forall_rows_pivot {P : TableauRow K → Prop} (hrow : t.rows[r]? = some row)
    (hunit : P (row.unit c))
    (hclear : ∀ i other, t.rows[i]? = some other → i ≠ r →
      P (other.clear tol.drop (row.unit c) c)) : ∀ row' ∈ (t.pivot tol r c).rows, P row' := by
  intro row' hmem
  obtain ⟨i, hi⟩ := Array.mem_iff_getElem?.mp hmem
  rw [getElem?_rows_pivot tol hrow, Option.map_eq_some_iff] at hi
  obtain ⟨other, hother, rfl⟩ := hi
  split
  · exact hunit
  · exact hclear i other hother ‹_›

namespace Canonical

/-- The entering column is not basic in another row. -/
theorem basic_ne (h : Canonical t) (hrow : t.rows[r]? = some row) (hc : row.entries.coeff c ≠ 0)
    {i : Nat} {other : TableauRow K} (hother : t.rows[i]? = some other) (hne : i ≠ r) :
    other.basic ≠ c := by
  rintro rfl
  exact hc (SparseRow.coeff_eq_zero (h.other r i row other hrow hother hne.symm))

/-- Clearing a column leaves the row as it is, if it does not have the column. -/
theorem clear_cases (h : Canonical t) {other : TableauRow K} (hother : other ∈ t.rows) (drop : K)
    (unit : TableauRow K) (c : Nat) :
    (other.clear drop unit c = other ∧ c ∉ other.entries.columns) ∨
      other.clear drop unit c = { other with
        entries := SparseRow.eliminate drop other.entries (other.entries.coeff c) unit.entries c
        value := other.value - other.entries.coeff c * unit.value } := by
  rw [TableauRow.clear]
  split
  · rename_i hzero
    exact .inl ⟨rfl, h.notMem_columns hother (beq_iff_eq.mp hzero)⟩
  · exact .inr rfl

/-- A row without a column has its other columns and those of the unit row. -/
theorem mem_columns_clear (h : Canonical t) {other : TableauRow K} (hother : other ∈ t.rows)
    {drop : K} {unit : TableauRow K} {j : Nat}
    (hj : j ∈ (other.clear drop unit c).entries.columns) :
    j ≠ c ∧ (j ∈ other.entries.columns ∨ j ∈ unit.entries.columns) := by
  rcases h.clear_cases hother drop unit c with ⟨heq, hnone⟩ | heq <;> rw [heq] at hj
  · exact ⟨fun hjc => hnone (hjc ▸ hj), .inl hj⟩
  · obtain ⟨a, ha⟩ := SparseRow.mem_columns.mp hj
    exact SparseRow.mem_columns_of_mem_eliminate ha

/-- After a pivot basic columns still have coefficient one. -/
theorem own_pivot [IsStrictOrderedRing K] (h : Canonical t) (hdrop : tol.drop < 1)
    (hrow : t.rows[r]? = some row) (hc : row.entries.coeff c ≠ 0) :
    ∀ row' ∈ (t.pivot tol r c).rows, (row'.basic, 1) ∈ row'.entries := by
  have hmem := Array.mem_of_getElem? hrow
  refine forall_rows_pivot hrow ?_ fun i other hother hne => ?_
  · have hone := TableauRow.coeff_unit (h.sorted row hmem) hc
    exact SparseRow.mem_of_coeff_eq hone one_ne_zero
  · have hotherMem := Array.mem_of_getElem? hother
    have hown := h.own other hotherMem
    rcases h.clear_cases hotherMem tol.drop (row.unit c) c with ⟨heq, -⟩ | heq <;> rw [heq]
    · exact hown
    · -- the pivot row does not have the basic column, and one is not dropped
      refine SparseRow.mem_eliminate_of_notMem hown ?_ (h.basic_ne hrow hc hother hne) ?_
      · rw [row.columns_unit c]
        exact h.other r i row other hrow hother hne.symm
      · rwa [abs_one]

/-- After a pivot no row has the basic column of another one. -/
theorem other_pivot (h : Canonical t) (hrow : t.rows[r]? = some row) (i k : Nat)
    (first second : TableauRow K) (hfirst : (t.pivot tol r c).rows[i]? = some first)
    (hsecond : (t.pivot tol r c).rows[k]? = some second) (hne : i ≠ k) :
    second.basic ∉ first.entries.columns := by
  have hcolumns := row.columns_unit c
  rw [getElem?_rows_pivot tol hrow, Option.map_eq_some_iff] at hfirst hsecond
  obtain ⟨first, hfirst, rfl⟩ := hfirst
  obtain ⟨second, hsecond, rfl⟩ := hsecond
  by_cases hi : i = r
  · -- the pivot row has the columns that it had
    rw [if_pos hi, if_neg fun hk => hne (hi.trans hk.symm), TableauRow.basic_clear, hcolumns]
    exact h.other r k row second hrow hsecond (hi ▸ hne)
  · rw [if_neg hi]
    intro hmem
    obtain ⟨hnotEntering, hfrom⟩ := h.mem_columns_clear (Array.mem_of_getElem? hfirst) hmem
    by_cases hk : k = r
    · -- the entering column is cleared from all rows but the pivot row
      rw [if_pos hk] at hnotEntering
      exact hnotEntering rfl
    · rw [if_neg hk, TableauRow.basic_clear, hcolumns] at hfrom
      exact hfrom.elim (h.other i k first second hfirst hsecond hne)
        (h.other r k row second hrow hsecond (Ne.symm hk))

/-- **A pivot keeps the canonical form.** -/
theorem pivot [IsStrictOrderedRing K] (h : Canonical t) (hdrop : 0 ≤ tol.drop)
    (hdrop' : tol.drop < 1) (hrow : t.rows[r]? = some row) (hc : row.entries.coeff c ≠ 0) :
    Canonical (t.pivot tol r c) := by
  have hmem := Array.mem_of_getElem? hrow
  refine ⟨?_, ?_, ?_, ?_, h.own_pivot hdrop' hrow hc, h.other_pivot hrow, ?_⟩
  · rw [size_reduced_pivot, columns_pivot]
    exact h.size_reduced
  · have hunit := TableauRow.sorted_unit (h.sorted row hmem) c
    refine forall_rows_pivot hrow hunit fun i other hother _ => ?_
    exact TableauRow.sorted_clear _ (h.sorted other (Array.mem_of_getElem? hother)) hunit
  · refine forall_rows_pivot hrow (fun e he => ?_) fun i other hother _ => ?_
    · obtain ⟨a, ha, heq⟩ := SparseRow.mem_scale.mp he
      rw [heq]
      exact mul_ne_zero (h.nonzero row hmem _ ha) (one_div_ne_zero hc)
    · have hother := Array.mem_of_getElem? hother
      rcases h.clear_cases hother tol.drop (row.unit c) c with ⟨heq, -⟩ | heq <;> rw [heq]
      · exact h.nonzero other hother
      · exact fun e he => SparseRow.ne_zero_of_mem_eliminate hdrop he
  · rw [columns_pivot]
    refine forall_rows_pivot hrow ?_ fun i other hother _ j hj => ?_
    · rw [row.columns_unit c]
      exact h.lt_size row hmem
    · have hother := Array.mem_of_getElem? hother
      obtain ⟨-, hfrom⟩ := h.mem_columns_clear hother hj
      rw [row.columns_unit c] at hfrom
      exact hfrom.elim (h.lt_size other hother j) (h.lt_size row hmem j)
  · rw [columns_pivot]
    exact h.flipped

end Canonical

theorem reduced_pivot (hrow : t.rows[r]? = some row) :
    (t.pivot tol r c).reduced = if t.reducedCost c == 0 then t.reduced
      else (addToReduced t.reduced (row.unit c).entries
        fun z a => z - t.reducedCost c * a).setIfInBounds c 0 := by
  rw [pivot, hrow]
  dsimp only
  split <;> rfl

/-- A pivot takes the multiple of the pivot row that clears the entering column
away from the reduced costs. -/
theorem Canonical.form_pivot (h : Canonical t) (hrow : t.rows[r]? = some row)
    (hc : row.entries.coeff c ≠ 0) (y : Nat → K) :
    form (t.pivot tol r c).reduced y =
      form t.reduced y - t.reducedCost c * (row.unit c).entries.dot y := by
  have hmem := Array.mem_of_getElem? hrow
  have hcolumns : ∀ j ∈ (row.unit c).entries.columns, j < t.reduced.size := by
    rw [h.size_reduced, row.columns_unit]
    exact h.lt_size row hmem
  have hone := TableauRow.coeff_unit (h.sorted row hmem) hc
  have hlt : c < t.reduced.size :=
    hcolumns c (SparseRow.mem_columns.mpr ⟨1, SparseRow.mem_of_coeff_eq hone one_ne_zero⟩)
  rw [reduced_pivot hrow]
  split
  · rename_i hzero
    rw [beq_iff_eq.mp hzero, zero_mul, sub_zero]
  · -- the entering column is cleared already when it is set to zero
    have hadded (y : Nat → K) : form (addToReduced t.reduced (row.unit c).entries
        fun z a => z - t.reducedCost c * a) y =
          form t.reduced y + -t.reducedCost c * (row.unit c).entries.dot y :=
      form_addToReduced (fun x a => by ring) hcolumns y
    have hcleared : (addToReduced t.reduced (row.unit c).entries
        fun z a => z - t.reducedCost c * a).getD c 0 = 0 := by
      rw [← form_single (by rwa [size_addToReduced]), hadded, form_single hlt,
        SparseRow.dot_single (TableauRow.sorted_unit (h.sorted row hmem) c), hone, reducedCost]
      ring
    rw [form_setIfInBounds (by rwa [size_addToReduced]), hadded, hcleared]
    ring

theorem objective_pivot (tol : Tolerance K) (hrow : t.rows[r]? = some row) (c : Nat) :
    (t.pivot tol r c).objective = t.objective - t.reducedCost c * (row.unit c).value := by
  rw [pivot, hrow]
  dsimp only
  split
  · rename_i hzero
    rw [beq_iff_eq.mp hzero, zero_mul, sub_zero]
  · rfl

/-- Basic columns have no reduced costs. -/
def Priced (t : Tableau K) : Prop :=
  ∀ row ∈ t.rows, t.reducedCost row.basic = 0

/-- **After a pivot basic columns have no reduced costs.** -/
theorem Canonical.priced_pivot (h : Canonical t) (hpriced : Priced t)
    (hrow : t.rows[r]? = some row) (hc : row.entries.coeff c ≠ 0) :
    Priced (t.pivot tol r c) := by
  have hmem := Array.mem_of_getElem? hrow
  have hsorted := h.sorted row hmem
  have hcost (j : Nat) (hj : j < t.columns.size) : (t.pivot tol r c).reducedCost j =
      t.reducedCost j - t.reducedCost c * (row.unit c).entries.coeff j := by
    rw [← h.size_reduced] at hj
    rw [reducedCost, ← form_single (by rwa [size_reduced_pivot]), h.form_pivot hrow hc,
      form_single hj, SparseRow.dot_single (TableauRow.sorted_unit hsorted c)]
    rfl
  have hone := TableauRow.coeff_unit hsorted hc
  refine forall_rows_pivot hrow ?_ fun i other hother hne => ?_
  · have hlt := h.lt_size row hmem c
      (SparseRow.mem_columns.mpr ⟨_, SparseRow.mem_of_coeff_eq rfl hc⟩)
    rw [show (row.unit c).basic = c from rfl, hcost c hlt, hone, mul_one, sub_self]
  · rw [TableauRow.basic_clear, hcost _ (h.basic_lt (Array.mem_of_getElem? hother)),
      hpriced other (Array.mem_of_getElem? hother), SparseRow.coeff_eq_zero, mul_zero, sub_zero]
    rw [row.columns_unit]
    exact h.other r i row other hrow hother (Ne.symm hne)

/-! ### Complements -/

/-- **Complementing a column that is not basic keeps the canonical form.** -/
theorem Canonical.complement (h : Canonical t) (hc : ∀ row ∈ t.rows, row.basic ≠ c)
    (hu : t.upperOf c = some u) : Canonical (t.complement c u) := by
  have hforall {P : TableauRow K → Prop} (hP : ∀ row ∈ t.rows, P (row.mirror c u)) :
      ∀ row ∈ (t.complement c u).rows, P row := by
    intro row hrow
    rw [rows_complement] at hrow
    obtain ⟨before, hbefore, rfl⟩ := Array.mem_map.mp hrow
    exact hP before hbefore
  -- no row gains or loses a column
  have hcolumns (row : TableauRow K) : (row.mirror c u).entries.columns = row.entries.columns :=
    SparseRow.columns_negateAt c row.entries
  refine ⟨?_, ?_, ?_, ?_, ?_, ?_, ?_⟩
  · rw [size_columns_complement, Tableau.complement, Array.size_setIfInBounds, h.size_reduced]
  · exact hforall fun row hrow => (h.sorted row hrow).negateAt c
  · refine hforall fun row hrow e he => ?_
    have hnonzero := h.nonzero row hrow _ (SparseRow.mem_negateAt.mp he)
    dsimp only at hnonzero
    split at hnonzero
    · exact neg_ne_zero.mp hnonzero
    · exact hnonzero
  · rw [size_columns_complement]
    refine hforall fun row hrow => ?_
    rw [hcolumns]
    exact h.lt_size row hrow
  · refine hforall fun row hrow => SparseRow.mem_negateAt.mpr ?_
    rw [if_neg (show (row.mirror c u).basic ≠ c from hc row hrow)]
    exact h.own row hrow
  · intro i k first second hfirst hsecond hne
    rw [rows_complement, Array.getElem?_map, Option.map_eq_some_iff] at hfirst hsecond
    obtain ⟨first, hfirst, rfl⟩ := hfirst
    obtain ⟨second, hsecond, rfl⟩ := hsecond
    rw [hcolumns]
    exact h.other i k first second hfirst hsecond hne
  · intro col hcol hflipped
    obtain ⟨j, hj⟩ := Array.mem_iff_getElem?.mp hcol
    rw [columns_complement, Array.getElem?_modify] at hj
    split at hj
    · -- the column that is flipped has the upper bound `u`
      rename_i heq
      subst heq
      obtain ⟨before, hbefore, rfl⟩ := Option.map_eq_some_iff.mp hj
      rw [upperOf, hbefore] at hu
      exact Option.isSome_of_eq_some hu
    · exact h.flipped col (Array.mem_of_getElem? hj) hflipped

/-- Complementing a column changes the sign of its reduced cost. -/
theorem form_complement (hc : c < t.reduced.size) (y : Nat → K) :
    form (t.complement c u).reduced y = form t.reduced y - 2 * t.reducedCost c * y c := by
  refine (form_setIfInBounds hc _ _).trans ?_
  rw [reducedCost]
  ring

theorem objective_complement (t : Tableau K) (c : Nat) (u : K) :
    (t.complement c u).objective = t.objective - t.reducedCost c * u :=
  rfl

theorem Priced.complement (h : Priced t) (hc : ∀ row ∈ t.rows, row.basic ≠ c) (u : K) :
    Priced (t.complement c u) := by
  intro row hrow
  rw [rows_complement] at hrow
  obtain ⟨before, hbefore, rfl⟩ := Array.mem_map.mp hrow
  have hne : c ≠ (before.mirror c u).basic := (hc before hbefore).symm
  rw [reducedCost, Tableau.complement, Array.getD_eq_getD_getElem?, Array.getElem?_setIfInBounds,
    if_neg hne, ← Array.getD_eq_getD_getElem?]
  exact h before hbefore

end Tableau

end MarkovLogic.Linear
