/-
MarkovLogic/Proofs/Linear/Outcome.lean

What the outcome of solving a linear program says about the program.

The two phases are about points of the first tableau, and these are about functions
that satisfy the program.  A list of values that the program itself finds feasible is
such a function (`isFeasible_iff`), so both kinds of statement carry over
(`settles_of_maximizes`).  The values that are read off the last tableau are those of
its vertex: clearing up after rounding, which reading does, has nothing to do
(`values_eq`).

Main statement: `simplex_settles`.
-/
import MarkovLogic.Proofs.Linear.Start

namespace MarkovLogic.Linear

open scoped ExactField

variable {K : Type} [Field K] [LinearOrder K]

namespace Program

variable {p : Program K} {values : List K}

/-! ### Lists of values -/

/-- The objective at a function, without the constant. -/
def gain (p : Program K) (x : Nat → K) : K :=
  ∑ j ∈ Finset.range p.vars.size, (p.vars.map Variable.objective).getD j 0 * x j

/-- The function of a list of values. -/
def coordinates (values : List K) (j : Nat) : K :=
  values.getD j 0

/-- A list with one value for each variable that respects the bounds and the rows,
as the program checks it with no tolerance. -/
structure IsSolution (p : Program K) (values : List K) : Prop where
  length_eq : values.length = p.vars.size
  isFeasible : p.isFeasible values 0 = true

theorem gain_congr {x y : Nat → K} (h : ∀ j < p.vars.size, x j = y j) : p.gain x = p.gain y :=
  Finset.sum_congr rfl fun j hj => by rw [h j (Finset.mem_range.mp hj)]

/-- A value and its variable stand at the same index. -/
theorem getElem?_zip_vars (hlength : values.length = p.vars.size) {j : Nat} {v : Variable K}
    (hv : p.vars[j]? = some v) :
    (values.zip p.vars.toList)[j]? = some (coordinates values j, v) := by
  obtain ⟨hj, rfl⟩ := Array.getElem?_eq_some_iff.mp hv
  have hvalue := List.getElem?_eq_getElem (hlength ▸ hj)
  rw [List.getElem?_zip_eq_some, coordinates, List.getD_eq_getElem?_getD, hvalue]
  exact ⟨rfl, by simp [hj]⟩

theorem evaluate_eq (hlength : values.length = p.vars.size) :
    p.evaluate values = p.offset + p.gain (coordinates values) := by
  have hzip : p.vars.toList.zipWith (fun v x => v.objective * x) values =
      (values.zip p.vars.toList).map fun e => e.2.objective * e.1 := by
    rw [List.map_zip_eq_zipWith, List.zipWith_comm]
    rfl
  rw [evaluate, ExactField.sum_eq, hzip, Tableau.sum_map_eq_sum_range, List.length_zip, hlength,
    Array.length_toList, Nat.min_self, gain]
  refine congrArg _ (Finset.sum_congr rfl fun j hj => ?_)
  have hv := Array.getElem?_eq_getElem (Finset.mem_range.mp hj)
  rw [getElem?_zip_vars hlength hv, Array.getD_eq_getD_getElem?, Array.getElem?_map, hv]
  rfl

theorem withinBounds_iff {x : K} {upper : Option K} :
    withinBounds 0 x upper = true ↔ 0 ≤ x ∧ ∀ u, upper = some u → x ≤ u := by
  cases upper <;> simp [withinBounds]

theorem isSatisfied_iff [IsStrictOrderedRing K] {row : Row K} :
    Row.isSatisfied 0 row values.toArray = true ↔
      row.relation.Compares (SparseRow.dot row.terms (coordinates values)) row.rhs := by
  have hvalue : Row.value row values.toArray = SparseRow.dot row.terms (coordinates values) := by
    rw [Row.value, ExactField.sum_eq, SparseRow.dot]
    simp only [coordinates, Array.getD_eq_getD_getElem?, List.getD_eq_getElem?_getD,
      List.getElem?_toArray]
  rw [Row.isSatisfied, hvalue]
  cases row.relation <;> simp [Relation.Compares, abs_nonpos_iff, sub_eq_zero]

theorem isFeasible_iff [IsStrictOrderedRing K] (hlength : values.length = p.vars.size) :
    p.isFeasible values 0 = true ↔ p.Satisfies (coordinates values) := by
  have hbounds : (∀ e ∈ values.zip p.vars.toList, withinBounds 0 e.1 e.2.upper = true) ↔
      ∀ j < p.vars.size, 0 ≤ coordinates values j ∧
        ∀ u, p.upperAt j = some u → coordinates values j ≤ u := by
    constructor
    · intro hall j hj
      have hv := Array.getElem?_eq_getElem hj
      have hin := hall _ (List.mem_of_getElem? (getElem?_zip_vars hlength hv))
      rw [upperAt, hv]
      exact withinBounds_iff.mp hin
    · -- a pair stands at some index, which is that of a variable
      rintro hall ⟨x, v⟩ hmem
      obtain ⟨j, hj⟩ := List.getElem?_of_mem hmem
      obtain ⟨hx, hv⟩ := List.getElem?_zip_eq_some.mp hj
      rw [Array.getElem?_toList] at hv
      have hin := hall j (Array.getElem?_eq_some_iff.mp hv).1
      rw [upperAt, hv, coordinates, List.getD_eq_getElem?_getD, hx] at hin
      exact withinBounds_iff.mpr hin
  rw [isFeasible, Bool.and_eq_true, List.all_eq_true, Array.all_eq_true']
  simp only [isSatisfied_iff]
  exact ⟨fun h => ⟨hbounds.mp h.1, h.2⟩, fun h => ⟨hbounds.mpr h.bounds, h.rows⟩⟩

/-- A function that satisfies a valid program gives a solution. -/
theorem IsValid.isSolution_map [IsStrictOrderedRing K] (h : p.IsValid) {x : Nat → K}
    (hx : p.Satisfies x) : p.IsSolution ((List.range p.vars.size).map x) ∧
      p.evaluate ((List.range p.vars.size).map x) = p.offset + p.gain x := by
  have hlength : ((List.range p.vars.size).map x).length = p.vars.size := by simp
  have hsame : ∀ j < p.vars.size, x j = coordinates ((List.range p.vars.size).map x) j := by
    intro j hj
    simp [coordinates, hj]
  refine ⟨⟨hlength, (isFeasible_iff hlength).mpr (h.satisfies_congr hsame hx)⟩, ?_⟩
  rw [evaluate_eq hlength, gain_congr hsame]

/-- What it says about a program how solving it ended. -/
structure Settles (p : Program K) (sol : Solution K) : Prop where
  /-- An optimum is a solution, and none is better. -/
  optimal : sol.status = .optimal → p.IsSolution sol.values ∧
    sol.objective = p.evaluate sol.values ∧
    ∀ values, p.IsSolution values → p.evaluate values ≤ sol.objective
  infeasible : sol.status = .infeasible → ∀ values, ¬ p.IsSolution values
  /-- Without an optimum there are solutions as good as one likes. -/
  unbounded : sol.status = .unbounded → ∀ bound, ∃ values, p.IsSolution values ∧
    bound < p.evaluate values

end Program

namespace Tableau

variable {p : Program K} {t t' : Tableau K} {status : Status}

/-! ### Reading the vertex -/

omit [Field K] [LinearOrder K] in
/-- Writing down the values of the rows puts into an array what it should be, if it is
there already where no row says anything. -/
theorem getElem?_foldl_setIfInBounds {rows : List (TableauRow K)} {xs : Array K} {f : Nat → K}
    (hvalue : ∀ row ∈ rows, row.value = f row.basic)
    (hrest : ∀ j < xs.size, xs[j]? = some (f j) ∨ ∃ row ∈ rows, row.basic = j) :
    ∀ j < xs.size, (rows.foldl (fun xs row => xs.setIfInBounds row.basic row.value) xs)[j]? =
      some (f j) := by
  induction rows generalizing xs with
  | nil =>
    intro j hj
    exact (hrest j hj).resolve_right (by simp)
  | cons row rows ih =>
    obtain ⟨hhead, htail⟩ := List.forall_mem_cons.mp hvalue
    have hstep := @ih (xs.setIfInBounds row.basic row.value) htail
    rw [Array.size_setIfInBounds] at hstep
    refine hstep fun j hj => ?_
    rw [Array.getElem?_setIfInBounds]
    by_cases heq : row.basic = j
    · rw [if_pos heq, if_pos (heq ▸ hj), hhead, heq]
      exact .inl rfl
    · rw [if_neg heq]
      refine (hrest j hj).imp_right fun ⟨row', hrow', hbasic⟩ => ⟨row', ?_, hbasic⟩
      exact (List.mem_cons.mp hrow').resolve_left fun hsame => heq (hsame ▸ hbasic)

/-- A number within the bounds is not cut down. -/
theorem clamp_eq {x : K} {upper : Option K} (h0 : 0 ≤ x) (h : ∀ u, upper = some u → x ≤ u) :
    clamp x upper = x := by
  cases upper with
  | none => exact if_neg h0.not_gt
  | some u => exact (if_neg h0.not_gt).trans (if_neg (h u rfl).not_gt)

/-- What is written down for a variable is what the rows say of it at the vertex. -/
theorem Canonical.getElem?_stored (h : Canonical t) {n j : Nat} (hj : j < n) :
    (t.rows.toList.foldl (fun xs row => xs.setIfInBounds row.basic row.value)
      (Array.replicate n 0)).toList[j]? = some (t.complete (fun _ => 0) j) := by
  rw [Array.getElem?_toList]
  apply getElem?_foldl_setIfInBounds
  · intro row hrow
    rw [h.complete_basic (Array.mem_toList_iff.mp hrow),
      SparseRow.dot_eq_zero fun e _ => mul_zero _, sub_zero]
  · intro i hi
    rw [Array.size_replicate] at hi
    rcases h.complete_cases (fun _ => 0) i with ⟨row, hrow, hbasic, -⟩ | ⟨-, heq⟩
    · exact .inr ⟨row, Array.mem_toList_iff.mpr hrow, hbasic⟩
    · rw [heq, Array.getElem?_replicate, if_pos hi]
      exact .inl rfl
  · rwa [Array.size_replicate]

/-- **The values are those of the vertex.** -/
theorem Feasible.values_eq [IsStrictOrderedRing K] (h : Feasible t)
    (hsize : p.vars.size ≤ t.columns.size) :
    t.values p = (List.range p.vars.size).map t.vertex := by
  apply List.ext_getElem?
  intro j
  rw [values, List.getElem?_zipWith, ← Array.foldl_toList, List.getElem?_map]
  by_cases hj : j < p.vars.size
  · obtain ⟨col, hcol⟩ : ∃ col, t.columns[j]? = some col :=
      ⟨_, Array.getElem?_eq_getElem (hj.trans_le hsize)⟩
    have hupper : t.upperOf j = col.upper := by
      rw [upperOf, hcol, Option.bind_some]
    obtain ⟨hnonneg, hle⟩ := h.vertex.2.1 j (hj.trans_le hsize)
    have hkept := clamp_eq hnonneg fun u hu => hle u (hupper.trans hu)
    rw [List.getElem?_take_of_lt hj, Array.getElem?_toList, hcol, h.canonical.getElem?_stored hj,
      List.getElem?_range hj]
    refine congrArg some ((congrArg (clamp · col.upper) ?_).trans hkept)
    -- a flipped column has an upper bound, so the two ways of reading agree
    have hflipped := h.canonical.flipped col (Array.mem_of_getElem? hcol)
    rw [Tableau.vertex, store, isFlipped, hupper, hcol]
    rcases col with ⟨kind, _ | u, _ | _⟩
    · rfl
    · cases hflipped rfl
    · rfl
    · rfl
  · have hnone : (t.columns.toList.take p.vars.size)[j]? = none :=
      List.getElem?_eq_none (by simp; omega)
    rw [hnone]
    simp [hj]

/-! ### What the phases say about the program -/

theorem costAt_eq_gain (hsize : p.vars.size ≤ t.columns.size) (x : Nat → K) :
    t.costAt (p.vars.map Variable.objective) x = p.gain x := by
  rw [costAt, Program.gain]
  refine (Finset.sum_subset (Finset.range_mono hsize) fun j _ hj => ?_).symm
  rw [Array.getD_eq_getD_getElem?, Array.getElem?_eq_none (by simpa using hj), Option.getD_none,
    zero_mul]

/-- What phase one prepares does not change what phase two finds out. -/
theorem Alike.maximizes {t'' : Tableau K} {cost : Array K} (h : Alike t t')
    (hm : t'.Maximizes t'' cost status) : t.Maximizes t'' cost status := by
  have hcost (x : Nat → K) : t'.costAt cost x = t.costAt cost x := by
    rw [costAt, costAt, h.size]
  cases status with
  | optimal =>
    obtain ⟨hfeasible, halike, hadmits, hbest⟩ := hm
    refine ⟨hfeasible, h.trans halike, h.admits_iff.mp hadmits, fun x hx => ?_⟩
    rw [← hcost, ← hcost]
    exact hbest x (h.admits_iff.mpr hx)
  | infeasible => exact fun x hx => hm x (h.admits_iff.mpr hx)
  | unbounded =>
    intro B
    obtain ⟨x, hx, hlarge⟩ := hm B
    exact ⟨x, h.admits_iff.mp hx, hcost x ▸ hlarge⟩
  | iterationLimit => trivial

/-- **What the phases find out about the first tableau settles the program.** -/
theorem settles_of_maximizes [IsStrictOrderedRing K] (h : p.IsValid)
    (hm : (first p).Maximizes t (p.vars.map Variable.objective) status) :
    p.Settles (solutionOf p status t) := by
  have hsize := size_vars_le p
  -- each solution is worth what a point that counts costs
  have hpoint {values : List K} (hvalues : p.IsSolution values) : ∃ y, (first p).Admits y ∧
      p.evaluate values = p.offset + (first p).costAt (p.vars.map Variable.objective) y := by
    obtain ⟨y, hy, hagree⟩ :=
      exists_admits h ((Program.isFeasible_iff hvalues.length_eq).mp hvalues.isFeasible)
    refine ⟨y, hy, ?_⟩
    rw [costAt_eq_gain hsize, Program.gain_congr hagree, Program.evaluate_eq hvalues.length_eq]
  refine ⟨fun hstatus => ?_, fun hstatus values hvalues => ?_, fun hstatus bound => ?_⟩
  · obtain rfl : status = .optimal := hstatus
    obtain ⟨hfeasible, halike, hadmits, hbest⟩ := hm
    have hvalues : (solutionOf p .optimal t).values = (List.range p.vars.size).map t.vertex :=
      hfeasible.values_eq (hsize.trans_eq halike.size.symm)
    obtain ⟨hsolution, hevaluate⟩ := h.isSolution_map (satisfies_of_admits h hadmits)
    refine ⟨hvalues ▸ hsolution, rfl, fun values hvalues' => ?_⟩
    obtain ⟨y, hy, heq⟩ := hpoint hvalues'
    rw [heq, show (solutionOf p .optimal t).objective = p.evaluate (solutionOf p .optimal t).values
      from rfl, hvalues, hevaluate, ← costAt_eq_gain hsize]
    exact add_le_add_right (hbest y hy) p.offset
  · obtain rfl : status = .infeasible := hstatus
    obtain ⟨y, hy, -⟩ := hpoint hvalues
    exact hm y hy
  · obtain rfl : status = .unbounded := hstatus
    -- the constant does not count for the tableau
    obtain ⟨x, hx, hlarge⟩ := hm (bound - p.offset)
    obtain ⟨hsolution, hevaluate⟩ := h.isSolution_map (satisfies_of_admits h hx)
    refine ⟨_, hsolution, ?_⟩
    rw [hevaluate, ← costAt_eq_gain hsize]
    linarith

/-- Where phase one comes to an optimum, phase two has the last word. -/
theorem simplex_of_optimal (h : p.IsValid) {maxSteps : Nat}
    (hone : (first p).phaseOne .exact (max maxSteps 1) = (.optimal, t))
    (htwo : t.phaseTwo .exact p (max maxSteps 1) = (status, t')) :
    simplex .exact maxSteps p = .ok (solutionOf p status t') := by
  rw [simplex, build_eq_ok_iff.mpr ⟨h, rfl⟩]
  simp only [bind, Except.bind, hone, htwo]
  rfl

/-- Where phase one comes to no optimum, it has the last word itself. -/
theorem simplex_of_not_optimal (h : p.IsValid) {maxSteps : Nat}
    (hone : (first p).phaseOne .exact (max maxSteps 1) = (status, t))
    (hstatus : status ≠ .optimal) :
    simplex .exact maxSteps p = .ok (solutionOf p status t) := by
  rw [simplex, build_eq_ok_iff.mpr ⟨h, rfl⟩]
  simp only [bind, Except.bind, hone]
  cases status with
  | optimal => exact absurd rfl hstatus
  | infeasible | unbounded | iterationLimit => rfl

/-- The simplex method comes to a conclusion about the first tableau. -/
theorem exists_maximizes [IsStrictOrderedRing K] (h : p.IsValid) (maxSteps : Nat) :
    ∃ status t, simplex .exact maxSteps p = .ok (solutionOf p status t) ∧
      (first p).Maximizes t (p.vars.map Variable.objective) status := by
  obtain ⟨status, t, hone, hprepares⟩ :=
    phaseOne_cases (feasible_first h) (artificialsUnbounded_first p) (max maxSteps 1)
  cases status with
  | optimal =>
    obtain ⟨hfeasible, halike, hexpelled⟩ := hprepares
    obtain ⟨status, t', htwo, hmaximizes⟩ := phaseTwo_cases hfeasible
      (halike.artificialsUnbounded (artificialsUnbounded_first p)) hexpelled p (max maxSteps 1)
    exact ⟨status, t', simplex_of_optimal h hone htwo, halike.maximizes hmaximizes⟩
  | infeasible => exact ⟨_, t, simplex_of_not_optimal h hone nofun, hprepares⟩
  | unbounded => exact hprepares.elim
  | iterationLimit => exact ⟨_, t, simplex_of_not_optimal h hone nofun, trivial⟩

end Tableau

/-- **Without rounding and with all tolerances at zero, the simplex method solves the
valid programs, and what it says about them is right, however many steps it is
given.** -/
theorem simplex_settles [IsStrictOrderedRing K] (p : Program K) (maxSteps : Nat) :
    (p.IsValid ↔ ∃ sol, simplex .exact maxSteps p = .ok sol) ∧
      ∀ sol, simplex .exact maxSteps p = .ok sol → p.Settles sol := by
  have hvalid {sol : Solution K} (hsol : simplex .exact maxSteps p = .ok sol) : p.IsValid := by
    obtain ⟨t, hbuild, -⟩ := bind_eq_ok_iff.mp hsol
    exact (Tableau.build_eq_ok_iff.mp hbuild).1
  refine ⟨⟨fun h => ?_, fun ⟨sol, hsol⟩ => hvalid hsol⟩, fun sol hsol => ?_⟩
  · obtain ⟨status, t, hrun, -⟩ := Tableau.exists_maximizes h maxSteps
    exact ⟨_, hrun⟩
  · obtain ⟨status, t, hrun, hmaximizes⟩ := Tableau.exists_maximizes (hvalid hsol) maxSteps
    rw [hsol] at hrun
    cases hrun
    exact Tableau.settles_of_maximizes (hvalid hsol) hmaximizes

/-- Two variables of which only the first is bounded; the second row mentions the
other one twice. -/
def sharedUnits : Program ℚ where
  vars := #[⟨"x", some 1, 2⟩, ⟨"y", none, 1⟩]
  offset := 1
  rows := #[⟨[(0, 1), (1, 1)], .atMost, 3⟩, ⟨[(1, 2), (0, 1), (1, -1)], .atLeast, 1 / 2⟩]

theorem simplex_settles_sharedUnits :
    simplex .exact 10 sharedUnits = .ok ⟨.optimal, [1, 2], 5⟩ ∧
      sharedUnits.Settles ⟨.optimal, [1, 2], 5⟩ := by
  have hrun : simplex .exact 10 sharedUnits = .ok ⟨.optimal, [1, 2], 5⟩ := by decide +kernel
  exact ⟨hrun, (simplex_settles sharedUnits 10).2 _ hrun⟩

end MarkovLogic.Linear
