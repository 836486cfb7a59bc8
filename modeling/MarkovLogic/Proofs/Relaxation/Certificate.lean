/-
MarkovLogic/Proofs/Relaxation/Certificate.lean

An integral optimum of the relaxation is an optimal assignment.

Suppose that a solver returns an optimum of the relaxation at which all atoms
have the values zero and one.  Then inference decides every atom by its value,
whatever way of rounding is asked for, and the assignment that results costs no
more than any other.

The argument has three parts.  Fixing atoms one after the other gives each atom
with a variable its value and keeps the books right (`getD_values_fixAll`,
`cost_eq_evaluate`).  The optimum is then a completion of the assignment, and
since every assignment without hard violations has a completion that is as good
as its cost is low, none of them costs less (`isBest_of_completion`).  And an
assignment that violates a hard constraint costs more than all soft constraints
together (`Network.evaluate_lt_of_hardViolations_lt`).

Main statement: `infer_certifies`.
-/
import MarkovLogic.Proofs.Relaxation.Completion
import MarkovLogic.Random.ChaCha

namespace MarkovLogic

open Linear

variable {K : Type} [Field K] [LinearOrder K] [FloorRing K]

/-! ### Fixing atoms -/

namespace State

theorem isInactive_fix (net : Network (Extended K)) (s : State (Extended K)) (a : Nat) (v : Bool)
    (i : Nat) : (s.fix net a v).isInactive i = s.isInactive i := by
  rw [fix]
  split
  · rfl
  · exact isInactive_flip net s a i

/-- Fixes atoms one after the other. -/
def fixAll (net : Network (Extended K)) (s : State (Extended K)) (entries : List (Nat × Bool)) :
    State (Extended K) :=
  entries.foldl (fun s e => s.fix net e.1 e.2) s

theorem reachable_fixAll {net : Network (Extended K)} {s : State (Extended K)}
    (h : Reachable net s) (entries : List (Nat × Bool)) : Reachable net (s.fixAll net entries) :=
  List.foldlRecOn entries _ h fun _ ht e _ => ht.tail (.fix e.1 e.2)

theorem isInactive_fixAll (net : Network (Extended K)) (s : State (Extended K))
    (entries : List (Nat × Bool)) (i : Nat) :
    (s.fixAll net entries).isInactive i = s.isInactive i :=
  List.foldlRecOn (motive := fun t => t.isInactive i = s.isInactive i) entries _ rfl
    fun t ht e _ => (isInactive_fix net t e.1 e.2 i).trans ht

/-- Each atom that is fixed ends up with its value, if it is always fixed to the
same. -/
theorem getD_values_fixAll {net : Network (Extended K)} {s : State (Extended K)}
    (hs : Sized net s) {target : Nat → Bool} {entries : List (Nat × Bool)}
    (htarget : ∀ e ∈ entries, e.2 = target e.1) {a : Nat} (ha : a < net.nodes.size) :
    (s.fixAll net entries).values.getD a false =
      if a ∈ entries.map Prod.fst then target a else s.values.getD a false := by
  induction entries generalizing s with
  | nil => rfl
  | cons e entries ih =>
    rw [List.forall_mem_cons] at htarget
    have hrest := ih (hs.step (.fix e.1 e.2)) htarget.2
    rw [getD_values_fix, htarget.1, hs.values] at hrest
    show ((s.fix net e.1 e.2).fixAll net entries).values.getD a false = _
    rw [htarget.1, hrest, List.map_cons]
    by_cases hmem : a ∈ entries.map Prod.fst
    · -- a later entry fixes the atom again, to the same value
      rw [if_pos hmem, if_pos (List.mem_cons_of_mem _ hmem)]
    · rw [if_neg hmem]
      by_cases hae : e.1 = a
      · rw [if_pos ⟨hae, ha⟩, if_pos (by rw [hae]; exact List.mem_cons_self), hae]
      · rw [if_neg (by simp [hae]), if_neg (by simp [hmem, Ne.symm hae])]

end State

/-! ### Integral values -/

namespace Relaxation

/-- All atoms have the values zero and one. -/
def IsIntegral (r : Relaxation (Extended K)) (values : List (Extended K)) : Prop :=
  ∀ a v, r.atomVars.getD a none = some v → values[v]? = some 0 ∨ values[v]? = some 1

variable [IsStrictOrderedRing K] {net : Network (Extended K)}

/-- Whether a value is that of a true atom. -/
def isOne (x : Extended K) : Bool :=
  decide (x = 1)

/-- An atom with the value zero or one is fixed to it. -/
theorem threshold_of_integral {t : K} (hpos : 0 < t) (hhalf : t < 1 / 2)
    (p : Thresholded (Extended K)) {e : Nat × Extended K} (he : e.2 = 0 ∨ e.2 = 1) :
    threshold net (.finite t) p e = { p with state := p.state.fix net e.1 (isOne e.2) } := by
  obtain ⟨a, x⟩ := e
  rcases he with rfl | rfl
  · have hlow : ¬ (1 - t < 0) := by linarith
    simp [threshold, isOne, hlow, hpos]
  · have hhigh : 1 - t < 1 := by linarith
    simp [threshold, isOne, hhigh]

/-- If all values are zeros and ones, nothing is left undecided. -/
theorem thresholds_of_integral {t : K} (hpos : 0 < t) (hhalf : t < 1 / 2)
    {entries : List (Nat × Extended K)} (hentries : ∀ e ∈ entries, e.2 = 0 ∨ e.2 = 1) :
    thresholds net (.finite t) entries =
      ⟨(State.start net).fixAll net (entries.map fun e => (e.1, isOne e.2)), []⟩ := by
  rw [thresholds]
  generalize State.start net = s
  induction entries generalizing s with
  | nil => rfl
  | cons e entries ih =>
    rw [List.forall_mem_cons] at hentries
    rw [List.foldl_cons, threshold_of_integral hpos hhalf _ hentries.1, ih hentries.2]
    rfl

omit [IsStrictOrderedRing K] in
/-- Without undecided atoms both ways of rounding return the state. -/
theorem round_of_decided (ρ : Type) [RandomSource ρ] {settings : Settings (Extended K)}
    (searching : LocalSearch.Settings (Extended K)) {entries : List (Nat × Extended K)}
    {s : State (Extended K)} (h : thresholds net settings.tolerance entries = ⟨s, []⟩) :
    round ρ net settings searching entries =
      ⟨s.values, s.cost net, s.hardViolations, ⟨0, 0, 0, none⟩⟩ := by
  rw [round, h]
  cases settings.rounding <;> rfl

omit [IsStrictOrderedRing K] in
/-- Inference rounds an optimum that the solver returns. -/
theorem infer_of_solved {α : Type} [Scalar α] {net : Network α} (ρ : Type) [RandomSource ρ]
    {settings : Settings α} (searching : LocalSearch.Settings α) {gold : Option (Nat → Bool)}
    {solver : Solver α} {values : List α} {objective : α}
    (hsolver : solver (relax net settings gold).program = .ok ⟨.optimal, values, objective⟩)
    (hlength : values.length = (relax net settings gold).program.vars.size) :
    infer ρ solver net settings searching gold =
      .ok { round ρ net settings searching ((relax net settings gold).atomValues values) with
        effort.objective := some objective } := by
  rw [infer, hsolver]
  simp only [Except.mapError, bind, Except.bind, hlength, ne_eq, not_true_eq_false, if_false]
  rfl

/-- The value that an atom is fixed to; an atom without a variable is false. -/
def decidedValue (r : Relaxation (Extended K)) (values : List (Extended K)) (a : Nat) : Bool :=
  match r.atomVars.getD a none with
  | none => false
  | some v => isOne ((values[v]?).getD 0)

omit [IsStrictOrderedRing K] in
/-- **Fixing the atoms at integral values gives an assignment that the values
complete.** -/
theorem Encodes.isCompletion_fixAll {s : Array Bool} {r : Relaxation (Extended K)} {holds : Prop}
    {gain : K} (h : Encodes net s r holds gain) {values : List (Extended K)}
    (hoptimum : r.program.IsOptimum values) (hintegral : r.IsIntegral values) :
    r.IsCompletion ((State.start net).fixAll net
      ((r.atomValues values).map fun e => (e.1, isOne e.2))).values values := by
  refine ⟨hoptimum.length, hoptimum.feasible, fun a v hv => ?_⟩
  have ha : a < net.nodes.size := h.tabled.lt_nodes hv
  have htarget : ∀ e ∈ (r.atomValues values).map fun e => (e.1, isOne e.2),
      e.2 = decidedValue r values e.1 := by
    rw [List.forall_mem_map]
    intro e he
    obtain ⟨-, w, hw, hx⟩ := mem_atomValues_iff.1 he
    simp only [decidedValue, hw, hx]
  have hmem : a ∈ ((r.atomValues values).map fun e => (e.1, isOne e.2)).map Prod.fst := by
    rw [List.map_map]
    exact List.mem_map.2 ⟨(a, (values[v]?).getD 0),
      mem_atomValues_iff.2 ⟨h.discovered a v hv, v, hv, rfl⟩, rfl⟩
  rw [State.getD_values_fixAll (State.sized_of_reachable .refl) htarget ha, if_pos hmem]
  simp only [decidedValue, hv]
  rcases hintegral a v hv with hzero | hone
  · simp [hzero, isOne]
  · simp [hone, isOne]

/-- **At integral values the thresholds decide every atom**, and the values
complete the assignment. -/
theorem Encodes.exists_decided {s : Array Bool} {r : Relaxation (Extended K)} {holds : Prop}
    {gain : K} (h : Encodes net s r holds gain) {t : K} (hpos : 0 < t) (hhalf : t < 1 / 2)
    {values : List (Extended K)} (hoptimum : r.program.IsOptimum values)
    (hintegral : r.IsIntegral values) :
    ∃ state, thresholds net (.finite t) (r.atomValues values) = ⟨state, []⟩ ∧
      State.Reachable net state ∧ (∀ i, state.isInactive i = false) ∧
      r.IsCompletion state.values values := by
  have hentries : ∀ e ∈ r.atomValues values, e.2 = 0 ∨ e.2 = 1 := by
    intro e he
    obtain ⟨-, v, hv, hx⟩ := mem_atomValues_iff.1 he
    rcases hintegral e.1 v hv with hzero | hone
    · exact .inl (by rw [hx, hzero]; rfl)
    · exact .inr (by rw [hx, hone]; rfl)
  refine ⟨_, thresholds_of_integral hpos hhalf hentries, State.reachable_fixAll .refl _,
    fun i => ?_, h.isCompletion_fixAll hoptimum hintegral⟩
  rw [State.isInactive_fixAll, State.isInactive_start]

/-- An optimum that completes an assignment reaches the gain of the assignment,
and no assignment has a larger gain. -/
theorem isBest_of_completion {r : Relaxation (Extended K)} {holds : Array Bool → Prop}
    {gain : Array Bool → K} (h : ∀ s, Encodes net s r (holds s) (gain s))
    {values : List (Extended K)} (hoptimum : r.program.IsOptimum values) {s : Array Bool}
    (hs : r.IsCompletion s values) :
    holds s ∧ r.program.evaluate values = .finite (gain s) ∧ ∀ t, holds t → gain t ≤ gain s := by
  -- the optimum is at least as good as the best completion of any assignment
  have hreaches : ∀ t, holds t → .finite (gain t) ≤ r.program.evaluate values := by
    intro t ht
    obtain ⟨values', hvalues', hvalue⟩ := ((h t).isGreatest ht).1
    rw [← hvalue]
    exact hoptimum.largest values' hvalues'.length hvalues'.feasible
  have hholds : holds s := (h s).exists_isCompletion_iff.1 ⟨values, hs⟩
  have hbound := ((h s).isGreatest hholds).2 ⟨values, hs, rfl⟩
  -- but it is a completion of `s`, so it is no better than the best of these
  obtain ⟨x, hx, -⟩ := (h s).isCompletion_iff.1 hs
  rw [hx, Program.evaluate_point (h s).regular] at hreaches hbound ⊢
  rw [Extended.finite_le] at hbound
  have heq := le_antisymm hbound ((Extended.finite_le _ _).1 (hreaches s hholds))
  refine ⟨hholds, congrArg _ heq, fun t ht => ?_⟩
  rw [← heq, ← Extended.finite_le]
  exact hreaches t ht

/-! ### The certificate -/

/-- **An integral optimum of the relaxation is an optimal assignment.**  Take an
assembled network with finite soft weights, a tolerance between zero and one half,
and no loss.  If the solver returns an optimum of the relaxation, with its
objective, at which all atoms have the values zero and one, then inference
succeeds with an assignment that violates no hard constraint.  No atom is left
undecided, the cost is that of the assignment and equals the constant of the
network less the objective, and no assignment costs less. -/
theorem infer_certifies (ρ : Type) [RandomSource ρ]
    (cliques : List (UInt64 × Clique (Extended K))) (extra : List Nat)
    (range : Option (Nat × Nat))
    (hfinite : ∀ c ∈ (Network.assemble cliques extra range).constraints, ∀ w,
      c.strength = .soft w → Scalar.isFinite w = true)
    (settings : Settings (Extended K)) (t : K) (htolerance : settings.tolerance = .finite t)
    (hpos : 0 < t) (hhalf : t < 1 / 2) (hloss : settings.lossAugmented = false)
    (searching : LocalSearch.Settings (Extended K)) (gold : Option (Nat → Bool))
    (solver : Solver (Extended K)) (values : List (Extended K)) (objective : Extended K)
    (hsolver : solver (relax (Network.assemble cliques extra range) settings gold).program =
      .ok ⟨.optimal, values, objective⟩)
    (hoptimum : (relax (Network.assemble cliques extra range) settings gold).program.IsOptimum
      values)
    (hobjective : objective =
      (relax (Network.assemble cliques extra range) settings gold).program.evaluate values)
    (hintegral : (relax (Network.assemble cliques extra range) settings gold).IsIntegral values) :
    let net := Network.assemble cliques extra range
    ∃ result, infer ρ solver net settings searching gold = .ok result ∧
      result.hardViolations = 0 ∧ net.hardViolations result.assignment = 0 ∧
      result.effort.nonIntegral = 0 ∧ result.cost = net.evaluate result.assignment ∧
      result.cost = .finite net.ceiling - objective ∧
      ∀ s : Array Bool, net.evaluate result.assignment ≤ net.evaluate s := by
  intro net
  have hwired : net.Wired := Network.wired_assemble cliques extra range
  have hpriced : net.Priced := Network.priced_assemble hfinite
  -- without the loss the gain of an assignment is the constant less its soft cost
  have hencodes : ∀ s, Encodes net s (relax net settings gold) (net.hardViolations s = 0)
      (net.ceiling - (net.constraints.toList.map (Constraint.softCost s)).sum) := by
    intro s
    refine (encodes_relax hwired hpriced (fun c hc => Network.lits_ne_nil_assemble hc) settings
      gold s).congr Iff.rfl ?_
    simp [hloss, loss]
  obtain ⟨state, hthresholds, hreachable, hactive, hcompletion⟩ :=
    (hencodes #[]).exists_decided hpos hhalf hoptimum hintegral
  rw [← htolerance] at hthresholds
  obtain ⟨hholds, hvalue, hbest⟩ := isBest_of_completion hencodes hoptimum hcompletion
  have hcost := State.cost_eq_evaluate hwired hpriced hreachable hactive
  have hadmits := (net.hardViolations_eq_zero_iff_admits state.values).1 hholds
  refine ⟨_, infer_of_solved ρ searching hsolver hoptimum.length, ?_⟩
  rw [round_of_decided ρ searching hthresholds]
  refine ⟨(State.hardViolations_eq hwired hpriced hreachable hactive).trans hholds, hholds, rfl,
    hcost, ?_, fun s => ?_⟩
  · dsimp only
    rw [hcost, hobjective, hvalue, hpriced.evaluate_of_admits hadmits, Extended.finite_sub,
      sub_sub_cancel]
  · by_cases hs : net.hardViolations s = 0
    · -- both costs are soft, and the gain of `s` is no larger
      have hgain := hbest s hs
      dsimp only
      rw [hpriced.evaluate_of_admits hadmits, hpriced.evaluate_of_admits
        ((net.hardViolations_eq_zero_iff_admits s).1 hs), Extended.finite_le]
      linarith
    · have hfewer : net.hardViolations state.values < net.hardViolations s := by omega
      exact Extended.le_of_lt (Network.evaluate_lt_of_hardViolations_lt hpriced
        (Network.hardWeight_assemble cliques extra range) hfewer)

/-! ### Two atoms -/

/-- The first atom should be true, and it implies the second. -/
def impliedCliques : List (UInt64 × Clique (Extended ℚ)) := [
  (1, ⟨[1], .finite 2, [(0, 1)]⟩),
  (2, ⟨[-1, 2], .posInf, [(1, 1)]⟩)]

/-- The loss is not asked for. -/
def plain : Settings (Extended ℚ) :=
  ⟨.localSearch, .finite (1 / 100), false, 100⟩

def someSearch : LocalSearch.Settings (Extended ℚ) :=
  ⟨100, 1, .finite 0, .finite (1 / 10), 3, 1, 0, .random⟩

/-- The program of the two atoms. -/
def impliedProgram : Program (Extended ℚ) :=
  ⟨#[⟨"atom:1", some (.finite 1), .finite 2⟩, ⟨"atom:2", some (.finite 1), .finite 0⟩],
    .finite 0, #[⟨[(0, .finite (-1)), (1, .finite 1)], .atLeast, .finite 0⟩]⟩

/-- Sets both variables to one. -/
def bothOne : Solver (Extended ℚ) := fun p =>
  .ok ⟨.optimal, [.finite 1, .finite 1], p.evaluate [.finite 1, .finite 1]⟩

theorem assemble_implied :
    (Network.assemble impliedCliques [] none).constraints = #[
      ⟨1, .soft (.finite 2), [1], [⟨0, true⟩], [(0, 1)]⟩,
      ⟨2, .hard, [-1, 2], [⟨0, false⟩, ⟨1, true⟩], [(1, 1)]⟩] ∧
    (Network.assemble impliedCliques [] none).nodes =
      #[⟨1, #[0], #[1]⟩, ⟨2, #[1], #[]⟩] := by
  have hsoft : ((.finite 2 : Extended ℚ) == .finite 0) = false := by decide
  have hhard : ((.posInf : Extended ℚ) == .finite 0) = false := rfl
  simp [Network.assemble, impliedCliques, Network.addClique, Network.addLiterals,
    Network.addLiteral, Network.intern, Network.blank, Network.strengthOf, hsoft, hhard]

theorem finite_implied : ∀ c ∈ (Network.assemble impliedCliques [] none).constraints, ∀ w,
    c.strength = .soft w → Scalar.isFinite w = true := by
  intro c hc w hw
  rw [assemble_implied.1] at hc
  simp only [List.mem_toArray, List.mem_cons, List.not_mem_nil, or_false] at hc
  rcases hc with rfl | rfl
  · cases hw
    rfl
  · cases hw

theorem relax_implied :
    relax (Network.assemble impliedCliques [] none) plain none =
      ⟨impliedProgram, #[some 0, some 1], #[0, 1]⟩ := by
  have hnot : ¬ (1 : Extended ℚ) < 0 := by simp
  have hfirst : "atom:" ++ Nat.repr 1 = "atom:1" := by decide
  have hsecond : "atom:" ++ Nat.repr 2 = "atom:2" := by decide
  obtain ⟨hconstraints, hnodes⟩ := assemble_implied
  calc relax (Network.assemble impliedCliques [] none) plain none
      = ⟨⟨#[⟨"atom:1", some 1, 0 + .finite 2 * 1⟩, ⟨"atom:2", some 1, 0⟩], 0,
          #[⟨[(0, -1), (1, 1)], .atLeast, 1 - .finite 1⟩]⟩, #[some 0, some 1], #[0, 1]⟩ := by
        simp [-Extended.zero_eq, -Extended.one_eq, relax, ofNetwork, blank, addConstraint, terms,
          varOf, negatives_eq, plain, Program.addVariable, Program.addObjective, Program.addRow,
          Program.empty, hconstraints, hnodes, hfirst, hsecond, hnot]
    _ = ⟨impliedProgram, #[some 0, some 1], #[0, 1]⟩ := by simp [impliedProgram]

/-- The program of the two atoms has an integral optimum. -/
theorem isOptimum_implied : impliedProgram.IsOptimum [.finite 1, .finite 1] := by
  have hregular : impliedProgram.IsRegular := by
    refine ⟨⟨0, rfl⟩, by simp [impliedProgram], fun row hrow => ?_⟩
    obtain rfl : row = ⟨[(0, .finite (-1)), (1, .finite 1)], .atLeast, .finite 0⟩ := by
      simpa [impliedProgram] using hrow
    exact ⟨⟨0, rfl⟩, by simp [impliedProgram]⟩
  have hvalue : ∀ x : Nat → ℚ, impliedProgram.objectiveAt x = 2 * x 0 := by
    intro x
    simp [Program.objectiveAt, Program.coefficient, impliedProgram, Finset.sum_range_succ]
  have hpoint : ([.finite 1, .finite 1] : List (Extended ℚ)) = impliedProgram.point fun _ => 1 :=
    rfl
  refine ⟨rfl, ?_, fun values hlength hfeasible => ?_⟩
  · rw [hpoint, Program.isFeasible_point_iff hregular]
    refine ⟨fun j _ => ⟨zero_le_one, le_refl 1⟩, fun row hrow => ?_⟩
    obtain rfl : row = ⟨[(0, .finite (-1)), (1, .finite 1)], .atLeast, .finite 0⟩ := by
      simpa [impliedProgram] using hrow
    simp [Program.Row.HoldsAt, Program.Row.lhsAt]
  · obtain ⟨x, rfl⟩ := Program.exists_point hregular.isBoxed hlength hfeasible
    have hx := (Program.isFeasible_point_iff hregular x).1 hfeasible
    have hone := (hx.bounds 0 (by decide)).2
    rw [hpoint, Program.evaluate_point hregular, Program.evaluate_point hregular, hvalue, hvalue,
      Extended.finite_le]
    linarith

theorem infer_certifies_implied :
    let net := Network.assemble impliedCliques [] none
    ∃ result, infer ChaCha bothOne net plain someSearch none = .ok result ∧
      result.hardViolations = 0 ∧ net.hardViolations result.assignment = 0 ∧
      result.effort.nonIntegral = 0 ∧ result.cost = net.evaluate result.assignment ∧
      result.cost = .finite net.ceiling -
        (relax net plain none).program.evaluate [.finite 1, .finite 1] ∧
      ∀ s : Array Bool, net.evaluate result.assignment ≤ net.evaluate s := by
  refine infer_certifies ChaCha impliedCliques [] none finite_implied plain (1 / 100) rfl
    (by norm_num) (by norm_num) rfl someSearch none bothOne [.finite 1, .finite 1] _ rfl ?_ rfl ?_
  · rw [relax_implied]
    exact isOptimum_implied
  · rw [relax_implied]
    intro a v hv
    match a, hv with
    | 0, hv =>
      cases hv
      exact .inr rfl
    | 1, hv =>
      cases hv
      exact .inr rfl

end Relaxation

end MarkovLogic
