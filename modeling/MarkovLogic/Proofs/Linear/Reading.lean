/-
MarkovLogic/Proofs/Linear/Reading.lean

Linear programs read in a field.

A program is a table of numbers that may be infinite, and a point is a list of
such numbers.  If the numbers of the program are finite, its variables lie
between zero and one, and its rows mention no other variables
(`Program.IsRegular`), then a point within the bounds is a list of field
elements, and the program says something about functions from the variables to
the field: which of them satisfy it (`Program.IsPoint`), and what the objective
is at them (`Program.objectiveAt`).

Design.  Points are functions on all numbers of variables, not only on those in
use.  So a point of a program is also a point of the program before its last
variable was added, and the converse changes the function at one place
(`objectiveAt_congr`, `isPoint_congr`).  Each operation that builds a program
has one lemma for what it does to the points and one for the objective.

Main statements: `isFeasible_point_iff`, `exists_point` and `evaluate_point`
translate between the two readings.
-/
import Mathlib
import MarkovLogic.Linear.Program
import MarkovLogic.Proofs.Extended

namespace MarkovLogic.Linear

variable {K : Type} [Field K]

/-! ### Rows -/

namespace Program

/-- The left side of a row. -/
def Row.lhsAt (row : Row (Extended K)) (x : Nat → K) : K :=
  (row.terms.map fun t => t.2.value * x t.1).sum

/-- Two functions with the same values at the variables of a row give it the
same left side. -/
theorem Row.lhsAt_congr {row : Row (Extended K)} {x y : Nat → K}
    (h : ∀ t ∈ row.terms, x t.1 = y t.1) : Row.lhsAt row x = Row.lhsAt row y := by
  rw [lhsAt, lhsAt]
  refine congrArg List.sum (List.map_congr_left fun t ht => ?_)
  rw [h t ht]

/-- The row mentions only the first `n` variables, and its numbers are
finite. -/
structure Row.IsRegular (n : Nat) (row : Row (Extended K)) : Prop where
  rhs : ∃ b, row.rhs = .finite b
  terms : ∀ t ∈ row.terms, t.1 < n ∧ ∃ c, t.2 = .finite c

omit [Field K] in
theorem Row.IsRegular.mono {n n' : Nat} (hn : n ≤ n') {row : Row (Extended K)}
    (h : Row.IsRegular n row) : Row.IsRegular n' row :=
  ⟨h.rhs, fun t ht => ⟨(h.terms t ht).1.trans_le hn, (h.terms t ht).2⟩⟩

section Order

variable [LinearOrder K]

/-- The function satisfies the row. -/
def Row.HoldsAt (row : Row (Extended K)) (x : Nat → K) : Prop :=
  match row.relation with
  | .atMost => Row.lhsAt row x ≤ row.rhs.value
  | .atLeast => row.rhs.value ≤ Row.lhsAt row x
  | .equal => Row.lhsAt row x = row.rhs.value

theorem Row.IsRegular.holdsAt_congr {n : Nat} {row : Row (Extended K)}
    (h : Row.IsRegular n row) {x y : Nat → K} (hxy : ∀ j < n, x j = y j) :
    Row.HoldsAt row x ↔ Row.HoldsAt row y := by
  have hlhs : Row.lhsAt row x = Row.lhsAt row y :=
    Row.lhsAt_congr fun t ht => hxy t.1 (h.terms t ht).1
  rw [HoldsAt, HoldsAt, hlhs]

end Order

/-! ### Programs -/

/-- The numbers of the program are finite, its variables lie between zero and
one, and its rows mention these variables only. -/
structure IsRegular (p : Program (Extended K)) : Prop where
  offset : ∃ b, p.offset = .finite b
  vars : ∀ v ∈ p.vars, v.upper = some (.finite 1) ∧ ∃ c, v.objective = .finite c
  rows : ∀ row ∈ p.rows, Row.IsRegular p.vars.size row

/-- All variables lie between zero and one. -/
def IsBoxed (p : Program (Extended K)) : Prop :=
  ∀ v ∈ p.vars, v.upper = some (.finite 1)

theorem IsRegular.isBoxed {p : Program (Extended K)} (h : p.IsRegular) : p.IsBoxed :=
  fun v hv => (h.vars v hv).1

/-- The coefficient of a variable in the objective. -/
def coefficient (p : Program (Extended K)) (j : Nat) : K :=
  ((p.vars[j]?).map fun v => v.objective.value).getD 0

/-- The objective at a function. -/
def objectiveAt (p : Program (Extended K)) (x : Nat → K) : K :=
  p.offset.value + ∑ j ∈ Finset.range p.vars.size, p.coefficient j * x j

/-- The point with the values of a function. -/
def point (p : Program (Extended K)) (x : Nat → K) : List (Extended K) :=
  (List.range p.vars.size).map fun j => .finite (x j)

omit [Field K] in
theorem length_point (p : Program (Extended K)) (x : Nat → K) :
    (p.point x).length = p.vars.size := by
  rw [point, List.length_map, List.length_range]

omit [Field K] in
theorem getElem?_point {p : Program (Extended K)} {j : Nat} (hj : j < p.vars.size) (x : Nat → K) :
    (p.point x)[j]? = some (.finite (x j)) := by
  rw [point, List.getElem?_map, List.getElem?_range hj, Option.map_some]

/-- Only the values at the variables count. -/
theorem objectiveAt_congr {p : Program (Extended K)} {x y : Nat → K}
    (h : ∀ j < p.vars.size, x j = y j) : p.objectiveAt x = p.objectiveAt y := by
  rw [objectiveAt, objectiveAt]
  refine congrArg _ (Finset.sum_congr rfl fun j hj => ?_)
  rw [h j (Finset.mem_range.1 hj)]

section Order

variable [LinearOrder K]

/-- The function satisfies the bounds and the rows. -/
structure IsPoint (p : Program (Extended K)) (x : Nat → K) : Prop where
  bounds : ∀ j < p.vars.size, 0 ≤ x j ∧ x j ≤ 1
  rows : ∀ row ∈ p.rows, Row.HoldsAt row x

theorem IsRegular.isPoint_congr {p : Program (Extended K)} (h : p.IsRegular) {x y : Nat → K}
    (hxy : ∀ j < p.vars.size, x j = y j) (hx : p.IsPoint x) : p.IsPoint y where
  bounds j hj := by
    rw [← hxy j hj]
    exact hx.bounds j hj
  rows row hrow := ((h.rows row hrow).holdsAt_congr hxy).1 (hx.rows row hrow)

end Order

/-! ### The two readings -/

section Readings

variable [LinearOrder K] [FloorRing K]

/-- The left side of a row at a point. -/
theorem Row.value_point {p : Program (Extended K)} {row : Row (Extended K)}
    (h : Row.IsRegular p.vars.size row) (x : Nat → K) :
    Row.value row (p.point x).toArray = .finite (Row.lhsAt row x) := by
  have hterms : (row.terms.map fun t => t.2 * (p.point x).toArray.getD t.1 0) =
      (row.terms.map fun t => t.2.value * x t.1).map Extended.finite := by
    rw [List.map_map]
    refine List.map_congr_left fun t ht => ?_
    obtain ⟨hlt, c, hc⟩ := h.terms t ht
    simp [Array.getD_eq_getD_getElem?, getElem?_point hlt, hc]
  rw [Row.value, Row.lhsAt, ← Extended.sum_map_finite, ← hterms]

/-- Without tolerance a row is satisfied at a point if the function satisfies
it. -/
theorem Row.isSatisfied_point_iff [IsStrictOrderedRing K] {p : Program (Extended K)}
    {row : Row (Extended K)} (h : Row.IsRegular p.vars.size row) (x : Nat → K) :
    Row.isSatisfied 0 row (p.point x).toArray = true ↔ Row.HoldsAt row x := by
  obtain ⟨b, hb⟩ := h.rhs
  rw [Row.isSatisfied, Row.HoldsAt, Row.value_point h, hb]
  cases row.relation with
  | atMost => simp
  | atLeast => simp
  | equal => simp [abs_nonpos_iff, sub_eq_zero]

/-- Without tolerance only finite numbers lie between zero and one. -/
theorem withinBounds_one_iff [IsStrictOrderedRing K] {y : Extended K} :
    withinBounds 0 y (some (.finite 1)) = true ↔ ∃ z, y = .finite z ∧ 0 ≤ z ∧ z ≤ 1 := by
  cases y with
  | finite z => simp [withinBounds]
  | posInf => exact ⟨fun h => absurd h Bool.false_ne_true, nofun⟩
  | negInf => exact ⟨fun h => absurd h Bool.false_ne_true, nofun⟩
  | nan => exact ⟨fun h => absurd h Bool.false_ne_true, nofun⟩

/-- Without tolerance a list respects the bounds if its members are finite and lie
between zero and one. -/
theorem IsBoxed.withinBounds_iff [IsStrictOrderedRing K] {p : Program (Extended K)}
    (h : p.IsBoxed) {values : List (Extended K)} (hlength : values.length = p.vars.size) :
    (values.zip p.vars.toList).all (fun (y, v) => withinBounds 0 y v.upper) = true ↔
      ∀ j < p.vars.size, ∃ z, values[j]? = some (.finite z) ∧ 0 ≤ z ∧ z ≤ 1 := by
  have hat : ∀ j (hj : j < p.vars.size), (values.zip p.vars.toList)[j]? =
      some (values[j], p.vars[j]) := by
    intro j hj
    rw [List.getElem?_zip_eq_some]
    exact ⟨List.getElem?_eq_getElem _, by simp [hj]⟩
  rw [List.all_eq_true]
  constructor
  · intro hall j hj
    have hin := hall _ (List.mem_of_getElem? (hat j hj))
    dsimp only at hin
    rw [h _ (Array.getElem_mem hj), withinBounds_one_iff] at hin
    obtain ⟨z, hz, hbounds⟩ := hin
    exact ⟨z, by rw [List.getElem?_eq_getElem (hlength ▸ hj), hz], hbounds⟩
  · -- a pair stands at some index, which is that of a variable
    rintro hall ⟨y, v⟩ hmem
    obtain ⟨j, hj⟩ := List.getElem?_of_mem hmem
    have hlt : j < p.vars.size := by
      have hin := (List.getElem?_eq_some_iff.1 hj).1
      rw [List.length_zip, hlength] at hin
      exact hin.trans_le (Nat.min_le_left _ _)
    obtain ⟨z, hz, hbounds⟩ := hall j hlt
    rw [List.getElem?_eq_getElem (hlength ▸ hlt)] at hz
    rw [hat j hlt, Option.some.inj hz] at hj
    cases hj
    dsimp only
    rw [h _ (Array.getElem_mem hlt), withinBounds_one_iff]
    exact ⟨z, rfl, hbounds⟩

/-- **A point is feasible if the function satisfies the program.** -/
theorem isFeasible_point_iff [IsStrictOrderedRing K] {p : Program (Extended K)}
    (h : p.IsRegular) (x : Nat → K) : p.isFeasible (p.point x) 0 = true ↔ p.IsPoint x := by
  have hbounds : (∀ j < p.vars.size,
      ∃ z, (p.point x)[j]? = some (.finite z) ∧ 0 ≤ z ∧ z ≤ 1) ↔
        ∀ j < p.vars.size, 0 ≤ x j ∧ x j ≤ 1 := by
    refine forall₂_congr fun j hj => ?_
    simp [getElem?_point hj]
  have hrows : (p.rows.all fun row => Row.isSatisfied 0 row (p.point x).toArray) = true ↔
      ∀ row ∈ p.rows, Row.HoldsAt row x := by
    rw [Array.all_eq_true']
    exact forall₂_congr fun row hrow => Row.isSatisfied_point_iff (h.rows row hrow) x
  rw [isFeasible, Bool.and_eq_true, h.isBoxed.withinBounds_iff (length_point p x), hbounds, hrows]
  exact ⟨fun hx => ⟨hx.1, hx.2⟩, fun hx => ⟨hx.bounds, hx.rows⟩⟩

/-- A feasible point satisfies the rows that mention variables only, whatever the
objective is. -/
theorem holdsAt_of_isFeasible [IsStrictOrderedRing K] {p : Program (Extended K)} {x : Nat → K}
    (hfeasible : p.isFeasible (p.point x) 0 = true) {row : Row (Extended K)}
    (hrow : row ∈ p.rows) (hregular : Row.IsRegular p.vars.size row) : Row.HoldsAt row x := by
  rw [isFeasible, Bool.and_eq_true, Array.all_eq_true'] at hfeasible
  exact (Row.isSatisfied_point_iff hregular x).1 (hfeasible.2 row hrow)

/-- A feasible point has the values of a function. -/
theorem exists_point [IsStrictOrderedRing K] {p : Program (Extended K)} (h : p.IsBoxed)
    {values : List (Extended K)} (hlength : values.length = p.vars.size)
    (hfeasible : p.isFeasible values 0 = true) : ∃ x, values = p.point x := by
  rw [isFeasible, Bool.and_eq_true, h.withinBounds_iff hlength] at hfeasible
  refine ⟨fun j => (values.getD j 0).value, List.ext_getElem? fun j => ?_⟩
  rcases Nat.lt_or_ge j p.vars.size with hj | hj
  · obtain ⟨z, hz, -⟩ := hfeasible.1 j hj
    rw [getElem?_point hj, List.getD_eq_getElem?_getD, hz]
    rfl
  · rw [List.getElem?_eq_none (by omega), List.getElem?_eq_none (by rw [length_point]; omega)]

/-- **The objective at a point is the objective at the function.** -/
theorem evaluate_point {p : Program (Extended K)} (h : p.IsRegular) (x : Nat → K) :
    p.evaluate (p.point x) = .finite (p.objectiveAt x) := by
  obtain ⟨b, hb⟩ := h.offset
  -- past the variables both lists end
  have hproducts : p.vars.toList.zipWith (fun v y => v.objective * y) (p.point x) =
      ((List.range p.vars.size).map fun j => p.coefficient j * x j).map Extended.finite := by
    refine List.ext_getElem? fun j => ?_
    rw [List.getElem?_zipWith, List.map_map, List.getElem?_map, Array.getElem?_toList]
    rcases Nat.lt_or_ge j p.vars.size with hj | hj
    · obtain ⟨-, c, hc⟩ := h.vars _ (Array.getElem_mem hj)
      rw [getElem?_point hj, List.getElem?_range hj, Array.getElem?_eq_getElem hj]
      simp [coefficient, hj, hc]
    · simp [hj]
  rw [evaluate, hproducts, Extended.sum_map_finite, objectiveAt, hb]
  rfl

/-- A feasible point at which the objective is largest. -/
structure IsOptimum (p : Program (Extended K)) (values : List (Extended K)) : Prop where
  length : values.length = p.vars.size
  feasible : p.isFeasible values 0 = true
  largest : ∀ values' : List (Extended K), values'.length = p.vars.size →
    p.isFeasible values' 0 = true → p.evaluate values' ≤ p.evaluate values

end Readings

/-! ### Building programs -/

section Building

variable [LinearOrder K] [FloorRing K] {p : Program (Extended K)}

theorem isRegular_empty : (empty : Program (Extended K)).IsRegular where
  offset := ⟨0, rfl⟩
  vars v hv := by simp [empty] at hv
  rows row hrow := by simp [empty] at hrow

theorem size_addVariable {α : Type} [Scalar α] (p : Program α) (name : String) (u : Option α) :
    (p.addVariable name u).vars.size = p.vars.size + 1 :=
  Array.size_push _

theorem size_addObjective {α : Type} [Scalar α] (p : Program α) (v : Nat) (c : α) :
    (p.addObjective v c).vars.size = p.vars.size :=
  Array.size_modify

theorem isBoxed_empty : (empty : Program (Extended K)).IsBoxed :=
  fun v hv => by simp [empty] at hv

theorem IsBoxed.addVariable (h : p.IsBoxed) (name : String) :
    (p.addVariable name (some 1)).IsBoxed := by
  intro v hv
  rcases Array.mem_push.1 hv with hv | rfl
  · exact h v hv
  · rfl

theorem IsBoxed.addObjective (h : p.IsBoxed) (v : Nat) (c : Extended K) :
    (p.addObjective v c).IsBoxed := by
  intro y hy
  obtain ⟨j, hj, rfl⟩ := Array.mem_iff_getElem.1 hy
  have hj' : j < p.vars.size := by rwa [size_addObjective] at hj
  have hupper := h _ (Array.getElem_mem hj')
  simp only [Program.addObjective, Array.getElem_modify]
  split <;> exact hupper

/-! #### A new variable -/

theorem IsRegular.addVariable (h : p.IsRegular) (name : String) :
    (p.addVariable name (some 1)).IsRegular where
  offset := h.offset
  vars v hv := by
    rcases Array.mem_push.1 hv with hv | rfl
    · exact h.vars v hv
    · exact ⟨rfl, 0, rfl⟩
  rows row hrow := by
    rw [size_addVariable]
    exact (h.rows row hrow).mono (Nat.le_succ _)

theorem coefficient_addVariable (p : Program (Extended K)) (name : String)
    (u : Option (Extended K)) (j : Nat) :
    (p.addVariable name u).coefficient j = p.coefficient j := by
  rw [coefficient, coefficient, addVariable, Array.getElem?_push]
  split
  · rename_i hj
    rw [hj, Array.getElem?_eq_none (Nat.le_refl _)]
    rfl
  · rfl

/-- A new variable counts nothing yet. -/
theorem objectiveAt_addVariable (p : Program (Extended K)) (name : String)
    (u : Option (Extended K)) (x : Nat → K) :
    (p.addVariable name u).objectiveAt x = p.objectiveAt x := by
  have hnew : p.coefficient p.vars.size = 0 := by
    rw [coefficient, Array.getElem?_eq_none (Nat.le_refl _)]
    rfl
  rw [objectiveAt, objectiveAt, size_addVariable, Finset.sum_range_succ]
  simp only [coefficient_addVariable, hnew, zero_mul, add_zero]
  rfl

theorem isPoint_addVariable_iff (name : String) (u : Option (Extended K)) (x : Nat → K) :
    (p.addVariable name u).IsPoint x ↔
      p.IsPoint x ∧ 0 ≤ x p.vars.size ∧ x p.vars.size ≤ 1 := by
  constructor
  · intro hx
    refine ⟨⟨fun j hj => hx.bounds j ?_, hx.rows⟩, hx.bounds p.vars.size ?_⟩
    · rw [size_addVariable]
      omega
    · rw [size_addVariable]
      omega
  · rintro ⟨hx, hnew⟩
    refine ⟨fun j hj => ?_, hx.rows⟩
    rw [size_addVariable] at hj
    rcases Nat.lt_succ_iff_lt_or_eq.1 hj with hj | rfl
    · exact hx.bounds j hj
    · exact hnew

/-! #### The objective -/

theorem IsRegular.addOffset (h : p.IsRegular) (c : K) : (p.addOffset (.finite c)).IsRegular where
  offset := by
    obtain ⟨b, hb⟩ := h.offset
    exact ⟨b + c, by rw [Program.addOffset, hb, Extended.finite_add]⟩
  vars := h.vars
  rows := h.rows

theorem objectiveAt_addOffset (h : p.IsRegular) (c : K) (x : Nat → K) :
    (p.addOffset (.finite c)).objectiveAt x = p.objectiveAt x + c := by
  obtain ⟨b, hb⟩ := h.offset
  have hoffset : (p.addOffset (.finite c)).offset = .finite (b + c) := by
    rw [addOffset, hb, Extended.finite_add]
  rw [objectiveAt, objectiveAt, hoffset, hb, Extended.value_finite, Extended.value_finite,
    add_right_comm]
  rfl

theorem isPoint_addOffset_iff (c : Extended K) (x : Nat → K) :
    (p.addOffset c).IsPoint x ↔ p.IsPoint x :=
  ⟨fun hx => ⟨hx.bounds, hx.rows⟩, fun hx => ⟨hx.bounds, hx.rows⟩⟩

theorem IsRegular.addObjective (h : p.IsRegular) (v : Nat) (c : K) :
    (p.addObjective v (.finite c)).IsRegular where
  offset := h.offset
  vars y hy := by
    obtain ⟨j, hj, rfl⟩ := Array.mem_iff_getElem.1 hy
    have hj' : j < p.vars.size := by rwa [size_addObjective] at hj
    obtain ⟨hupper, b, hb⟩ := h.vars _ (Array.getElem_mem hj')
    simp only [Program.addObjective, Array.getElem_modify]
    split
    · exact ⟨hupper, b + c, by rw [hb, Extended.finite_add]⟩
    · exact ⟨hupper, b, hb⟩
  rows row hrow := by
    rw [size_addObjective]
    exact h.rows row hrow

theorem coefficient_addObjective (h : p.IsRegular) {v : Nat} (hv : v < p.vars.size) (c : K)
    (j : Nat) : (p.addObjective v (.finite c)).coefficient j =
      p.coefficient j + if v = j then c else 0 := by
  rw [coefficient, coefficient, addObjective, Array.getElem?_modify]
  split
  · rename_i hj
    subst hj
    obtain ⟨-, b, hb⟩ := h.vars _ (Array.getElem_mem hv)
    simp [hv, hb]
  · rw [add_zero]

/-- A multiple of a variable is added to the objective. -/
theorem objectiveAt_addObjective (h : p.IsRegular) {v : Nat} (hv : v < p.vars.size) (c : K)
    (x : Nat → K) :
    (p.addObjective v (.finite c)).objectiveAt x = p.objectiveAt x + c * x v := by
  have hnew : ∑ j ∈ Finset.range p.vars.size, (if v = j then c else 0) * x j = c * x v := by
    simp only [ite_mul, zero_mul, Finset.sum_ite_eq, Finset.mem_range, hv, if_true]
  rw [objectiveAt, objectiveAt, size_addObjective, add_assoc, ← hnew, ← Finset.sum_add_distrib]
  simp only [coefficient_addObjective h hv, add_mul]
  rfl

theorem isPoint_addObjective_iff (v : Nat) (c : Extended K) (x : Nat → K) :
    (p.addObjective v c).IsPoint x ↔ p.IsPoint x := by
  constructor
  · intro hx
    exact ⟨fun j hj => hx.bounds j (by rwa [size_addObjective]), hx.rows⟩
  · intro hx
    exact ⟨fun j hj => hx.bounds j (by rwa [size_addObjective] at hj), hx.rows⟩

/-! #### Rows -/

omit [LinearOrder K] [FloorRing K] in
theorem IsRegular.addRow (h : p.IsRegular) {row : Row (Extended K)}
    (hrow : Row.IsRegular p.vars.size row) : (p.addRow row).IsRegular where
  offset := h.offset
  vars := h.vars
  rows r hr := by
    rcases Array.mem_push.1 hr with hr | rfl
    · exact h.rows r hr
    · exact hrow

omit [FloorRing K] in
theorem isPoint_addRow_iff (row : Row (Extended K)) (x : Nat → K) :
    (p.addRow row).IsPoint x ↔ p.IsPoint x ∧ Row.HoldsAt row x := by
  constructor
  · intro hx
    exact ⟨⟨hx.bounds, fun r hr => hx.rows r (Array.mem_push.2 (.inl hr))⟩,
      hx.rows row (Array.mem_push.2 (.inr rfl))⟩
  · rintro ⟨hx, hrow⟩
    refine ⟨hx.bounds, fun r hr => ?_⟩
    rcases Array.mem_push.1 hr with hr | rfl
    · exact hx.rows r hr
    · exact hrow

omit [FloorRing K] in
/-- Rows that are added one after the other all have to hold; the variables and
the objective stay. -/
theorem addRows (h : p.IsRegular) {rows : List (Row (Extended K))}
    (hrows : ∀ row ∈ rows, Row.IsRegular p.vars.size row) :
    (rows.foldl addRow p).IsRegular ∧ (rows.foldl addRow p).vars.size = p.vars.size ∧
      ∀ x, ((rows.foldl addRow p).IsPoint x ↔ p.IsPoint x ∧ ∀ row ∈ rows, Row.HoldsAt row x) ∧
        (rows.foldl addRow p).objectiveAt x = p.objectiveAt x := by
  induction rows generalizing p with
  | nil => exact ⟨h, rfl, fun x => ⟨by simp, rfl⟩⟩
  | cons row rows ih =>
    rw [List.forall_mem_cons] at hrows
    obtain ⟨hregular, hsize, hpoints⟩ := ih (h.addRow hrows.1) hrows.2
    refine ⟨hregular, hsize, fun x => ⟨(hpoints x).1.trans ?_, (hpoints x).2⟩⟩
    rw [isPoint_addRow_iff, List.forall_mem_cons, and_assoc]

end Building

end Program

end MarkovLogic.Linear
