/-
MarkovLogic/Proofs/Linear/Course.lean

The course of the simplex method, operation by operation.

The method prices its tableau, pivots, complements columns and counts steps.  Written
down in the order in which they are applied, its operations lead from the first tableau
to the one that the solution is read from (`exists_course`), and the tableaux between them
are all that the method ever has.

An operation is permitted in some tableaux only: a pivot needs a coefficient that is not
zero, and a complement a column that has an upper bound and is not basic
(`Operation.Permitted`).  Permitted operations keep the form of the tableau, also when
small numbers count as zero, because an entry of size one is never dropped
(`InForm.apply`).  It remains to see that the method applies no operation that is not
permitted (`Course`):

* the entering column has a negative reduced cost, so it is not basic;
* the row that is chosen for it has a coefficient that does not count as zero;
* a column that leaves at its upper bound has one, and the pivot before has just taken it
  out of the basis.

None of this depends on the values of the basic columns, which with rounding need not be
within their bounds.

Main statement: `inForm_throughout`.
-/
import MarkovLogic.Proofs.Linear.Start

namespace MarkovLogic.Linear

open scoped ExactField

variable {K : Type} [Field K] [LinearOrder K]

/-- Numbers that count as zero are not as large as one. -/
structure Tolerance.IsMild (tol : Tolerance K) : Prop where
  pivot_nonneg : 0 ≤ tol.pivot
  drop_nonneg : 0 ≤ tol.drop
  drop_lt_one : tol.drop < 1

theorem Tolerance.isMild_standard [IsStrictOrderedRing K] :
    (Tolerance.standard : Tolerance K).IsMild where
  pivot_nonneg := by
    show (0 : K) ≤ 1e-9
    norm_num
  drop_nonneg := by
    show (0 : K) ≤ 1e-12
    norm_num
  drop_lt_one := by
    show (1e-12 : K) < 1
    norm_num

namespace Tableau

variable {t t' t'' : Tableau K} {tol : Tolerance K} {r c : Nat} {row : TableauRow K}

/-! ### The form -/

/-- The tableau is canonical and priced; spelled out, its basic columns are distinct, and
each has coefficient one in its row. -/
structure InForm (t : Tableau K) : Prop where
  canonical : Canonical t
  priced : Priced t
  distinct : (t.rows.toList.map TableauRow.basic).Nodup
  coeff_basic : ∀ row ∈ t.rows, row.entries.coeff row.basic = 1

theorem Canonical.nodup_basic (h : Canonical t) :
    (t.rows.toList.map TableauRow.basic).Nodup := by
  apply List.pairwise_map.mpr
  rw [List.pairwise_iff_getElem]
  intro i k hi hk hlt heq
  have hrow : t.rows[i]? = some t.rows.toList[i] := by
    rw [← Array.getElem?_toList, List.getElem?_eq_getElem hi]
  have hrow' : t.rows[k]? = some t.rows.toList[k] := by
    rw [← Array.getElem?_toList, List.getElem?_eq_getElem hk]
  exact hlt.ne (h.eq_of_basic_eq hrow hrow' heq)

theorem Canonical.inForm (h : Canonical t) (hpriced : Priced t) : InForm t :=
  ⟨h, hpriced, h.nodup_basic, fun _ hrow => h.coeff_basic hrow⟩

/-! ### Operations -/

/-- What is done to a tableau. -/
inductive Operation (K : Type) where
  | price (cost : Array K)
  | pivot (r c : Nat)
  | complement (c : Nat) (u : K)
  /-- A column that moves to its other bound counts as a step without a pivot. -/
  | count
deriving DecidableEq

namespace Operation

/-- Does it. -/
def apply (tol : Tolerance K) (t : Tableau K) : Operation K → Tableau K
  | .price cost => t.price cost
  | .pivot r c => t.pivot tol r c
  | .complement c u => t.complement c u
  | .count => { t with steps := t.steps + 1 }

/-- The tableau is one to which this may be done. -/
def Permitted (t : Tableau K) : Operation K → Prop
  | .pivot r c => ∃ row, t.rows[r]? = some row ∧ row.entries.coeff c ≠ 0
  | .complement c u => t.upperOf c = some u ∧ ∀ row ∈ t.rows, row.basic ≠ c
  | .price _ | .count => True

end Operation

/-- **What is permitted keeps the form.** -/
theorem InForm.apply [IsStrictOrderedRing K] (h : InForm t) (htol : tol.IsMild) {op : Operation K}
    (hop : op.Permitted t) : InForm (op.apply tol t) := by
  have hcanonical := h.canonical
  cases op with
  | price cost => exact (hcanonical.price cost).inForm (hcanonical.priced_price cost)
  | pivot r c =>
    obtain ⟨row, hrow, hc⟩ := hop
    apply (hcanonical.pivot htol.drop_nonneg htol.drop_lt_one hrow hc).inForm
    exact hcanonical.priced_pivot h.priced hrow hc
  | complement c u =>
    obtain ⟨hu, hbasic⟩ := hop
    exact (hcanonical.complement hbasic hu).inForm (h.priced.complement hbasic u)
  | count =>
    exact ⟨⟨hcanonical.size_reduced, hcanonical.sorted, hcanonical.nonzero, hcanonical.lt_size,
      hcanonical.own, hcanonical.other, hcanonical.flipped⟩, h.priced, h.distinct, h.coeff_basic⟩

/-- Does one operation after the other. -/
def perform (tol : Tolerance K) (t : Tableau K) (ops : List (Operation K)) : Tableau K :=
  ops.foldl (Operation.apply tol) t

/-- The operations lead from one tableau to another, and each is permitted when its turn
comes. -/
inductive Course (tol : Tolerance K) : Tableau K → List (Operation K) → Tableau K → Prop
  | nil (t : Tableau K) : Course tol t [] t
  | cons {t t' : Tableau K} {op : Operation K} {ops : List (Operation K)} :
      op.Permitted t → Course tol (op.apply tol t) ops t' → Course tol t (op :: ops) t'

namespace Course

variable {op : Operation K} {ops ops' : List (Operation K)}

theorem single (hop : op.Permitted t) : Course tol t [op] (op.apply tol t) :=
  .cons hop (.nil _)

theorem append (h : Course tol t ops t') (h' : Course tol t' ops' t'') :
    Course tol t (ops ++ ops') t'' := by
  induction h with
  | nil => exact h'
  | cons hop _ ih => exact .cons hop (ih h')

theorem perform_eq (h : Course tol t ops t') : perform tol t ops = t' := by
  induction h with
  | nil => rfl
  | cons _ _ ih => exact ih

/-- A course can be broken off anywhere. -/
theorem split (h : Course tol t (ops ++ ops') t') :
    Course tol t ops (perform tol t ops) ∧ Course tol (perform tol t ops) ops' t' := by
  induction ops generalizing t with
  | nil => exact ⟨.nil t, h⟩
  | cons op ops ih =>
    cases h with
    | cons hop hrest =>
      obtain ⟨hfirst, hlast⟩ := ih hrest
      exact ⟨.cons hop hfirst, hlast⟩

/-- **The form is kept all along a course.** -/
theorem inForm [IsStrictOrderedRing K] (h : Course tol t ops t') (htol : tol.IsMild)
    (hform : InForm t) : InForm t' := by
  induction h with
  | nil => exact hform
  | cons hop _ ih => exact ih (hform.apply htol hop)

end Course

/-! ### Choosing columns and rows -/

/-- The entering column has a reduced cost that does not count as zero. -/
theorem reducedCost_of_entering? {allowArtificial cautious : Bool}
    (h : t.entering? tol allowArtificial cautious = some c) : t.reducedCost c < -tol.pivot := by
  -- both rules choose among the columns that may enter
  have hmem : c ∈ (List.range t.columns.size).filter (t.canEnter tol allowArtificial) := by
    rw [entering?] at h
    split at h
    · exact List.mem_of_head? h
    · rcases t.steepest?_cases ((List.range t.columns.size).filter
          (t.canEnter tol allowArtificial)) with ⟨-, heq⟩ | ⟨c', hc', heq⟩
      · rw [heq] at h
        cases h
      · rw [heq] at h
        exact Option.some.inj h ▸ hc'
  have hcan := (List.mem_filter.mp hmem).2
  rw [canEnter, Bool.and_eq_true] at hcan
  exact of_decide_eq_true hcan.2

/-- A row that may leave for column `c`: it has the column, and if it leaves at an upper
bound, it is that of its basic column. -/
def Leaves (t : Tableau K) (c : Nat) (l : Leaving K) : Prop :=
  ∃ row, t.rows[l.row]? = some row ∧ row.entries.coeff c ≠ 0 ∧
    ∀ u, l.atUpper = some u → t.upperOf row.basic = some u

theorem leaves_of_limit? [IsStrictOrderedRing K] (htol : tol.IsMild) {i : Nat} {l : Leaving K}
    (hrow : t.rows[i]? = some row) (h : t.limit? tol c i row = some l) : t.Leaves c l := by
  rw [limit?] at h
  split at h
  · rename_i hpos
    cases h
    refine ⟨row, hrow, (htol.pivot_nonneg.trans_lt hpos).ne', fun u hu => ?_⟩
    cases hu
  · split at h
    · rename_i hneg
      have hne : row.entries.coeff c ≠ 0 :=
        (hneg.trans_le (neg_nonpos.mpr htol.pivot_nonneg)).ne
      rcases hupper : t.upperOf row.basic with _ | u
      · rw [hupper] at h
        cases h
      · rw [hupper] at h
        cases h
        exact ⟨row, hrow, hne, fun v hv => hupper.trans hv⟩
    · cases h

/-- The ratio test chooses a row that may leave. -/
theorem leaves_of_leaving? [IsStrictOrderedRing K] (htol : tol.IsMild) {l : Leaving K}
    (h : t.leaving? tol c = some l) : t.Leaves c l := by
  have hfold : ∀ l, t.leaving? tol c = some l → t.Leaves c l := by
    rw [leaving?]
    refine List.foldlRecOn (motive := fun best => ∀ l, best = some l → t.Leaves c l) _ _ nofun ?_
    rintro best hbest ⟨row, i⟩ hmem l hl
    have hrow : t.rows[i]? = some row := by
      rw [← Array.getElem?_toList]
      exact List.mem_zipIdx_iff_getElem?.mp hmem
    dsimp only at hl
    -- what is chosen now is the limit of this row or was chosen before
    rcases hlimit : t.limit? tol c i row with _ | new
    · rw [hlimit] at hl
      exact hbest l hl
    · rw [hlimit] at hl
      have hnew := leaves_of_limit? htol hrow hlimit
      rcases best with _ | b
      · exact Option.some.inj hl ▸ hnew
      · dsimp only at hl
        split at hl
        · exact Option.some.inj hl ▸ hnew
        · exact hbest l hl
  exact hfold l h

/-! ### The operations of a step -/

/-- The operations that let column `c` enter. -/
def enterOps (tol : Tolerance K) (t : Tableau K) (c : Nat) : List (Operation K) :=
  match (t.leaving? tol c).filter fun l => staysBelow tol l.ratio (t.upperOf c) with
  | some l =>
    let outgoing := (t.rows[l.row]?.map TableauRow.basic).getD 0
    match l.atUpper with
    | none => [.pivot l.row c]
    | some u => [.pivot l.row c, .complement outgoing u]
  | none =>
    match t.upperOf c with
    | none => []
    | some u => [.complement c u, .count]

/-- After a pivot the column that was basic in its row is not basic any more. -/
theorem Canonical.basic_ne_outgoing (h : Canonical t) (hrow : t.rows[r]? = some row)
    (hne : row.basic ≠ c) : ∀ row' ∈ (t.pivot tol r c).rows, row'.basic ≠ row.basic := by
  refine forall_rows_pivot hrow hne.symm fun i other hother hir heq => hir ?_
  rw [TableauRow.basic_clear] at heq
  exact h.eq_of_basic_eq hother hrow heq

/-- **A step is a course of permitted operations.** -/
theorem course_enterColumn [IsStrictOrderedRing K] (htol : tol.IsMild) (h : InForm t)
    (hc : t.reducedCost c ≠ 0) {step : K} (henter : t.enterColumn tol c = some (t', step)) :
    Course tol t (t.enterOps tol c) t' := by
  have hbasic := h.priced.basic_ne hc
  rw [enterColumn] at henter
  dsimp only at henter
  rw [enterOps]
  rcases hleaving : (t.leaving? tol c).filter fun l => staysBelow tol l.ratio (t.upperOf c)
    with _ | l
  · -- the entering column moves to its other bound
    rw [hleaving] at henter ⊢
    dsimp only at henter ⊢
    rcases hu : t.upperOf c with _ | u
    · rw [hu] at henter
      cases henter
    · have hflip : Operation.Permitted t (.complement c u) := ⟨hu, hbasic⟩
      have hcount : Operation.Permitted (t.complement c u) .count := trivial
      rw [hu] at henter
      cases henter
      exact .cons hflip (.single hcount)
  · rw [hleaving] at henter ⊢
    obtain ⟨row, hrow, hcoeff, hupper⟩ :=
      leaves_of_leaving? htol (Option.filter_eq_some_iff.mp hleaving).1
    have hpivot : Operation.Permitted t (.pivot l.row c) := ⟨row, hrow, hcoeff⟩
    dsimp only at henter ⊢
    rw [hrow, Option.map_some, Option.getD_some] at henter ⊢
    rcases hl : l.atUpper with _ | u
    · rw [hl] at henter
      cases henter
      exact .single hpivot
    · rw [hl] at henter
      cases henter
      -- the outgoing column is complemented in the tableau that the pivot leaves
      have hflip : Operation.Permitted (t.pivot tol l.row c) (.complement row.basic u) :=
        ⟨(upperOf_pivot tol t l.row c row.basic).trans (hupper u hl),
          h.canonical.basic_ne_outgoing hrow (hbasic row (Array.mem_of_getElem? hrow))⟩
      exact .cons hpivot (.single hflip)

/-- The operations of a run of steps. -/
def iterateOps (tol : Tolerance K) (allowArtificial : Bool) :
    (budget stalled : Nat) → Tableau K → List (Operation K)
  | 0, _, _ => []
  | budget + 1, stalled, t =>
    match t.entering? tol allowArtificial (decide (t.columns.size < stalled)) with
    | none => []
    | some c =>
      match t.enterColumn tol c with
      | none => []
      | some (t', step) => t.enterOps tol c ++
          iterateOps tol allowArtificial budget (if step ≤ tol.pivot then stalled + 1 else 0) t'

/-- **So is a run of steps.** -/
theorem course_iterate [IsStrictOrderedRing K] (htol : tol.IsMild) (allowArtificial : Bool)
    (budget stalled : Nat) (h : InForm t) :
    Course tol t (t.iterateOps tol allowArtificial budget stalled)
      (t.iterate tol allowArtificial budget stalled).2 := by
  induction budget generalizing t stalled with
  | zero => exact .nil t
  | succ budget ih =>
    rw [iterateOps, iterate]
    rcases hentering : t.entering? tol allowArtificial (decide (t.columns.size < stalled))
      with _ | c
    · exact .nil t
    · dsimp only
      rcases henter : t.enterColumn tol c with _ | ⟨t', step⟩
      · exact .nil t
      · have hneg : t.reducedCost c < 0 := (reducedCost_of_entering? hentering).trans_le
          (neg_nonpos.mpr htol.pivot_nonneg)
        -- what follows starts from the next tableau, which is in form again
        have hcourse := course_enterColumn htol h hneg.ne henter
        exact hcourse.append (ih _ (hcourse.inForm htol h))

/-! ### Artificial columns -/

/-- The operation that takes an artificial column out of the basis of a row, if there
is one. -/
def expelOps (tol : Tolerance K) (t : Tableau K) (i : Nat) : List (Operation K) :=
  match t.rows[i]? with
  | none => []
  | some row =>
    if t.kindOf row.basic != .artificial then []
    else
      match row.entries.find? fun (j, a) =>
        t.kindOf j != .artificial && decide (tol.pivot < Scalar.abs a) with
      | none => []
      | some (j, _) => [.pivot i j]

theorem course_expelArtificial [IsStrictOrderedRing K] (htol : tol.IsMild) (h : InForm t)
    (i : Nat) : Course tol t (t.expelOps tol i) (t.expelArtificial tol i) := by
  rw [expelOps, expelArtificial]
  rcases hrow : t.rows[i]? with _ | row
  · exact .nil t
  · dsimp only
    split
    · exact .nil t
    · rcases hfind : row.entries.find? fun (j, a) =>
          t.kindOf j != .artificial && decide (tol.pivot < Scalar.abs a) with _ | ⟨j, a⟩
      · rw [hfind]
        exact .nil t
      · rw [hfind]
        -- the entry that is found does not count as zero
        have hlarge := List.find?_some hfind
        rw [Bool.and_eq_true, decide_eq_true_iff] at hlarge
        have hcoeff : row.entries.coeff j = a := SparseRow.coeff_of_mem
          (h.canonical.sorted row (Array.mem_of_getElem? hrow)) (List.mem_of_find?_eq_some hfind)
        have hne : row.entries.coeff j ≠ 0 :=
          hcoeff ▸ abs_pos.mp (htol.pivot_nonneg.trans_lt hlarge.2)
        have hpivot : Operation.Permitted t (.pivot i j) := ⟨row, hrow, hne⟩
        exact .single hpivot

/-- The operations that take the artificial columns out of the bases of some rows. -/
def expelAllOps (tol : Tolerance K) : List Nat → Tableau K → List (Operation K)
  | [], _ => []
  | i :: is, t => t.expelOps tol i ++ expelAllOps tol is (t.expelArtificial tol i)

theorem course_expelAll [IsStrictOrderedRing K] (htol : tol.IsMild) (h : InForm t)
    (is : List Nat) : Course tol t (t.expelAllOps tol is) (is.foldl (expelArtificial tol) t) := by
  induction is generalizing t with
  | nil => exact .nil t
  | cons i is ih =>
    have hcourse := course_expelArtificial htol h i
    exact hcourse.append (ih (hcourse.inForm htol h))

/-! ### The operations of the method -/

/-- The operations of phase one. -/
def phaseOneOps (tol : Tolerance K) (maxSteps : Nat) (t : Tableau K) : List (Operation K) :=
  if !t.columns.any fun c => c.kind == .artificial then []
  else
    let t' := t.price t.artificialCost
    .price t.artificialCost :: t'.iterateOps tol true (maxSteps - t'.steps) 0 ++
      match t'.iterate tol true (maxSteps - t'.steps) 0 with
      | (.optimal, t) =>
        if t.objective < -tol.feasibility then [] else t.expelAllOps tol (List.range t.rows.size)
      | _ => []

theorem course_phaseOne [IsStrictOrderedRing K] (htol : tol.IsMild) (h : InForm t)
    (maxSteps : Nat) :
    Course tol t (t.phaseOneOps tol maxSteps) (t.phaseOne tol maxSteps).2 := by
  rw [phaseOneOps, phaseOne]
  split
  · exact .nil t
  · have hprice : Course tol t [.price t.artificialCost] (t.price t.artificialCost) :=
      .single trivial
    have hform := hprice.inForm htol h
    have hrun := course_iterate htol true
      (maxSteps - (t.price t.artificialCost).steps) 0 hform
    have hform' := hrun.inForm htol hform
    rw [← artificialCost]
    dsimp only
    rcases hiterate : (t.price t.artificialCost).iterate tol true
      (maxSteps - (t.price t.artificialCost).steps) 0 with ⟨status, t'⟩
    rw [hiterate] at hrun hform'
    -- only after an optimum that is large enough there is more to do
    cases status with
    | optimal =>
      dsimp only
      split
      · exact (hprice.append hrun).append (.nil t')
      · exact (hprice.append hrun).append (course_expelAll htol hform' _)
    | infeasible | unbounded | iterationLimit => exact (hprice.append hrun).append (.nil t')

/-- The operations of phase two. -/
def phaseTwoOps (tol : Tolerance K) (p : Program K) (maxSteps : Nat) (t : Tableau K) :
    List (Operation K) :=
  let t' := t.price (p.vars.map Variable.objective)
  .price (p.vars.map Variable.objective) :: t'.iterateOps tol false (maxSteps - t'.steps) 0

theorem course_phaseTwo [IsStrictOrderedRing K] (htol : tol.IsMild) (h : InForm t)
    (p : Program K) (maxSteps : Nat) :
    Course tol t (t.phaseTwoOps tol p maxSteps) (t.phaseTwo tol p maxSteps).2 := by
  have hprice : Course tol t [.price (p.vars.map Variable.objective)]
    (t.price (p.vars.map Variable.objective)) := .single trivial
  exact hprice.append (course_iterate htol false _ 0 (hprice.inForm htol h))

/-- The operations of both phases. -/
def course (tol : Tolerance K) (maxSteps : Nat) (p : Program K) (t : Tableau K) :
    List (Operation K) :=
  t.phaseOneOps tol (max maxSteps 1) ++
    match t.phaseOne tol (max maxSteps 1) with
    | (.optimal, t') => t'.phaseTwoOps tol p (max maxSteps 1)
    | _ => []

/-- **The method solves a program by its operations on the first tableau, all of which
are permitted.** -/
theorem exists_course [IsStrictOrderedRing K] (htol : tol.IsMild) {p : Program K}
    (hbuild : build p = .ok t) (h : InForm t) (maxSteps : Nat) :
    ∃ status t', Course tol t (t.course tol maxSteps p) t' ∧
      simplex tol maxSteps p = .ok (solutionOf p status t') := by
  have hone := course_phaseOne htol h (max maxSteps 1)
  have hform := hone.inForm htol h
  rw [course, simplex, hbuild]
  simp only [bind, Except.bind]
  rcases hphase : t.phaseOne tol (max maxSteps 1) with ⟨status, t'⟩
  rw [hphase] at hone hform
  cases status with
  | optimal =>
    have htwo := course_phaseTwo htol hform p (max maxSteps 1)
    exact ⟨_, _, hone.append htwo, rfl⟩
  | infeasible | unbounded | iterationLimit => exact ⟨_, _, hone.append (.nil t'), rfl⟩

/-- The first tableau is in form. -/
theorem inForm_of_build [IsStrictOrderedRing K] {p : Program K} (hbuild : build p = .ok t) :
    InForm t := by
  obtain ⟨hvalid, rfl⟩ := build_eq_ok_iff.mp hbuild
  exact (canonical_first hvalid).inForm fun row _ => reducedCost_first p row.basic

/-- A run of the method on a tableau keeps the form, operation by operation. -/
structure StaysInForm (p : Program K) (maxSteps : Nat) (t : Tableau K) : Prop where
  /-- The solution is read from the tableau after all operations. -/
  solves : ∃ status, simplex .standard maxSteps p =
    .ok (solutionOf p status (t.perform .standard (t.course .standard maxSteps p)))
  /-- Every tableau on the way is in form. -/
  inForm : ∀ before after, t.course .standard maxSteps p = before ++ after →
    InForm (t.perform .standard before)
  /-- No column is complemented while it is basic. -/
  not_basic : ∀ before c u after,
    t.course .standard maxSteps p = before ++ .complement c u :: after →
      ∀ row ∈ (t.perform .standard before).rows, row.basic ≠ c

/-- **From the first tableau of a program to the last one the method keeps the form.** -/
theorem inForm_throughout [IsStrictOrderedRing K] {p : Program K} (hbuild : build p = .ok t)
    (maxSteps : Nat) : StaysInForm p maxSteps t := by
  have htol : (Tolerance.standard : Tolerance K).IsMild := Tolerance.isMild_standard
  have hform := inForm_of_build hbuild
  obtain ⟨status, t', hcourse, hsolve⟩ := exists_course htol hbuild hform maxSteps
  refine ⟨⟨status, by rwa [hcourse.perform_eq]⟩, fun before after hsplit => ?_,
    fun before c u after hsplit => ?_⟩
  · rw [hsplit] at hcourse
    exact hcourse.split.1.inForm htol hform
  · rw [hsplit] at hcourse
    cases hcourse.split.2 with
    | cons hop _ => exact hop.2

/-- Phase one ends with an artificial column that is basic at zero, and in phase two one
column leaves at its upper bound and another one moves to its own. -/
def allPaths : Program ℚ where
  vars := #[⟨"u", some 1, 2⟩, ⟨"v", some 1, -1⟩, ⟨"x", none, 0⟩, ⟨"y", some 2, 1⟩,
    ⟨"z", some 3, 1⟩]
  offset := 0
  rows := #[⟨[(0, 1), (1, -1)], .atMost, 1 / 4⟩, ⟨[(2, 1)], .equal, 1⟩,
    ⟨[(2, 1), (3, -1)], .equal, 1⟩]

theorem inForm_throughout_allPaths : build allPaths = .ok (first allPaths) ∧
    (first allPaths).course .standard 10 allPaths =
      [.price #[0, 0, 0, 0, 0, 0, -1, -1], .pivot 1 2, .pivot 2 3, .price #[2, -1, 0, 1, 1],
        .pivot 0 0, .pivot 0 1, .complement 0 1, .complement 4 3, .count] ∧
    StaysInForm allPaths 10 (first allPaths) := by
  have hbuild : build allPaths = .ok (first allPaths) := by decide +kernel
  exact ⟨hbuild, by decide +kernel, inForm_throughout hbuild 10⟩

end Tableau

end MarkovLogic.Linear
