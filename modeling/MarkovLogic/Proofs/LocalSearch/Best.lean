/-
MarkovLogic/Proofs/LocalSearch/Best.lean

A search returns the best state that it has seen, and its true cost.

The cost that a search records is that of the recorded assignment, with the
same constraints inactive (`Recorded`), and it only ever falls.  A flip records
the new state if it is cheaper by more than the slack, and a new try if it is
cheaper at all; so the recorded cost is never more than the slack above the cost
of any state on the way.  At the end the search goes back to the recorded
assignment and computes its cost anew.

Among several chains the cheapest result is taken, and since all costs are
finite, none of the others is cheaper.

Main statement: `search_returns_best`.
-/
import MarkovLogic.Proofs.LocalSearch.Walk
import MarkovLogic.Proofs.Network.Bookkeeping
import MarkovLogic.Random.ChaCha

namespace MarkovLogic

variable {K : Type} [Field K] [LinearOrder K] [FloorRing K]

/-! ### Costs of reachable states -/

namespace State

variable {net : Network (Extended K)} {s s' : State (Extended K)}

/-- The cost of an assignment depends on the inactive constraints only. -/
theorem costFromScratch_congr (hvalues : s'.values = s.values)
    (hinactive : s'.inactive = s.inactive) : s'.costFromScratch net = s.costFromScratch net := by
  rw [costFromScratch_eq, costFromScratch_eq, hvalues]
  simp only [isInactive, hinactive]

theorem cost_eq_costFromScratch (hw : net.Wired) (hp : net.Priced) (h : Reachable net s) :
    s.cost net = s.costFromScratch net :=
  (costed_of_reachable hp h).cost_eq hp (exact_of_reachable hw h)

/-- The cost of a reachable state is finite. -/
theorem exists_cost_eq (hw : net.Wired) (hp : net.Priced) (h : Reachable net s) :
    ∃ x, s.cost net = .finite x := by
  rw [cost_eq_costFromScratch hw hp h, costFromScratch_eq, hp.priceOf_eq]
  exact ⟨_, rfl⟩

/-- The state with the recorded assignment; its sums are those of the old one. -/
def atLow (s : State (Extended K)) : State (Extended K) :=
  { s with values := s.lowValues }

end State

namespace LocalSearch

open State

/-! ### The recorded state -/

/-- The recorded cost is `x`, and that is what the recorded assignment costs;
`inactive` says which constraints are inactive. -/
structure Recorded (net : Network (Extended K)) (inactive : Array Bool) (x : K)
    (s : State (Extended K)) : Prop where
  reachable : Reachable net s
  inactive : s.inactive = inactive
  lowCost : s.lowCost = some (.finite x)
  cost : s.atLow.costFromScratch net = .finite x

variable {net : Network (Extended K)} {inactive : Array Bool} {x : K} {s s' : State (Extended K)}

/-- Saving a state records it. -/
theorem recorded_saveLow (hw : net.Wired) (hp : net.Priced) (h : Reachable net s)
    (hinactive : s.inactive = inactive) (hx : s.cost net = .finite x) :
    Recorded net inactive x (s.saveLow net) where
  reachable := h.tail .saveLow
  inactive := hinactive
  lowCost := congrArg some hx
  cost := (cost_eq_costFromScratch hw hp h).symm.trans hx

/-- An operation that leaves the record alone. -/
theorem Recorded.of_eq (h : Recorded net inactive x s) (hreachable : Reachable net s')
    (hinactive : s'.inactive = s.inactive) (hcost : s'.lowCost = s.lowCost)
    (hvalues : s'.lowValues = s.lowValues) : Recorded net inactive x s' where
  reachable := hreachable
  inactive := hinactive.trans h.inactive
  lowCost := hcost.trans h.lowCost
  cost := by
    have hsame : s'.atLow.costFromScratch net = s.atLow.costFromScratch net :=
      costFromScratch_congr hvalues hinactive
    exact hsame.trans h.cost

theorem Recorded.restoreLow_eq (h : Recorded net inactive x s) :
    s.restoreLow net = s.atLow.recompute net := by
  have hlow := h.lowCost
  rw [restoreLow]
  split
  · rename_i hnone
    rw [hnone] at hlow
    cases hlow
  · rename_i c hc
    rw [hc] at hlow
    cases hlow
    exact if_pos rfl

/-- Returning to the recorded assignment restores its cost. -/
theorem Recorded.cost_restoreLow (hw : net.Wired) (hp : net.Priced)
    (h : Recorded net inactive x s) : (s.restoreLow net).cost net = .finite x := by
  have hbook := rebooked_recompute net s.atLow
  rw [cost_eq_costFromScratch hw hp (h.reachable.tail .restoreLow), h.restoreLow_eq, ← h.cost]
  exact costFromScratch_congr hbook.values hbook.inactive

theorem Recorded.values_restoreLow (h : Recorded net inactive x s) :
    (s.restoreLow net).values = s.lowValues := by
  rw [h.restoreLow_eq]
  exact (rebooked_recompute net s.atLow).values

theorem Recorded.inactive_restoreLow (h : Recorded net inactive x s) :
    (s.restoreLow net).inactive = inactive := by
  rw [h.restoreLow_eq]
  exact (rebooked_recompute net s.atLow).inactive.trans h.inactive

/-! ### Descents -/

/-- On the way through the states `ts` the record falls from `x` to `y`: it is
not more than the slack above any cost on the way, and what is recorded at the
end was recorded before or is one of the states. -/
structure Descends (net : Network (Extended K)) (inactive : Array Bool) (x : K)
    (s : State (Extended K)) (ts : List (State (Extended K))) (y : K) (s' : State (Extended K)) :
    Prop where
  le : y ≤ x
  recorded : Recorded net inactive y s'
  below : ∀ t ∈ ts, .finite y ≤ t.cost net + slack
  origin : s'.lowValues = s.lowValues ∨ ∃ t ∈ ts, s'.lowValues = t.values

theorem Recorded.descends (h : Recorded net inactive x s) : Descends net inactive x s [] x s where
  le := le_refl x
  recorded := h
  below := by simp
  origin := .inl rfl

/-- The slack is a small positive number. -/
theorem slack_eq : (slack : Extended K) = .finite 1e-9 := rfl

theorem Descends.trans {ts us : List (State (Extended K))} {y z : K} {s'' : State (Extended K)}
    (hw : net.Wired) (hp : net.Priced) (hts : ∀ t ∈ ts, Reachable net t)
    (h : Descends net inactive x s ts y s') (h' : Descends net inactive y s' us z s'') :
    Descends net inactive x s (ts ++ us) z s'' where
  le := h'.le.trans h.le
  recorded := h'.recorded
  below t ht := by
    rcases List.mem_append.mp ht with ht | ht
    · obtain ⟨c, hc⟩ := exists_cost_eq hw hp (hts t ht)
      have hy := h.below t ht
      rw [hc, slack_eq, Extended.finite_add, Extended.finite_le] at hy ⊢
      exact h'.le.trans hy
    · exact h'.below t ht
  origin := by
    rcases h'.origin with hkept | ⟨t, ht, hvalues⟩
    · rw [hkept]
      refine h.origin.imp_right ?_
      rintro ⟨t, ht, hvalues⟩
      exact ⟨t, List.mem_append_left us ht, hvalues⟩
    · exact .inr ⟨t, List.mem_append_right ts ht, hvalues⟩

variable [IsStrictOrderedRing K]

/-- Records a state if it is cheaper than the recorded one by more than a
margin. -/
def record (net : Network (Extended K)) (margin : K) (s : State (Extended K)) :
    State (Extended K) :=
  if improves s (.finite margin) (s.cost net) then s.saveLow net else s

/-- With a margin up to the slack, the record falls to no more than the slack
above the cost of the state. -/
theorem Recorded.exists_descends (hw : net.Wired) (hp : net.Priced)
    (h : Recorded net inactive x s) {margin : K} (hmargin : 0 ≤ margin) (hslack : margin ≤ 1e-9) :
    ∃ y, Descends net inactive x s [record net margin s] y (record net margin s) := by
  obtain ⟨c, hc⟩ := exists_cost_eq hw hp h.reachable
  have himproves : improves s (.finite margin) (s.cost net) = decide (c < x - margin) := by
    rw [improves, h.lowCost, hc]
    exact decide_eq_decide.mpr (by simp)
  rw [record, himproves]
  by_cases hlt : c < x - margin
  · -- the state becomes the record
    refine ⟨c, ?_, ?_, ?_, ?_⟩
    · linarith
    · rw [if_pos (decide_eq_true hlt)]
      exact recorded_saveLow hw hp h.reachable h.inactive hc
    · rw [if_pos (decide_eq_true hlt), List.forall_mem_singleton]
      show Extended.finite c ≤ s.cost net + slack
      rw [hc, slack_eq, Extended.finite_add, Extended.finite_le]
      linarith
    · rw [if_pos (decide_eq_true hlt)]
      exact .inr ⟨_, List.mem_singleton_self _, rfl⟩
  · -- the record stays, and it is above the state by no more than the margin
    refine ⟨x, le_refl x, ?_, ?_, ?_⟩
    · rwa [if_neg (by simpa using hlt)]
    · rw [if_neg (by simpa using hlt), List.forall_mem_singleton, hc, slack_eq,
        Extended.finite_add, Extended.finite_le]
      linarith
    · rw [if_neg (by simpa using hlt)]
      exact .inl rfl

/-! ### The record along a search -/

variable {ρ : Type} [RandomSource ρ] {settings : Settings (Extended K)}

omit [IsStrictOrderedRing K] in
/-- A flip does not touch the record. -/
theorem Recorded.flip (h : Recorded net inactive x s) (a : Nat) :
    Recorded net inactive x (s.flip net a) :=
  have hbook := rebooked_flip net s a
  h.of_eq (h.reachable.tail (.flip a)) hbook.inactive hbook.lowCost hbook.lowValues

omit [IsStrictOrderedRing K] in
/-- A new start does not touch the record. -/
theorem Recorded.begin (h : Recorded net inactive x s) (settings : Settings (Extended K)) (r : ρ) :
    Recorded net inactive x (begin net settings s r).1 ∧
      (begin net settings s r).1.lowValues = s.lowValues := by
  obtain ⟨values, heq⟩ := exists_begin_eq net settings s r
  have hbook := rebooked_recompute net { s with values }
  have hvalues : (LocalSearch.begin net settings s r).1.lowValues = s.lowValues := by
    rw [heq]
    exact hbook.lowValues
  refine ⟨h.of_eq (reachable_begin h.reachable settings r) ?_ ?_ hvalues, hvalues⟩
  · rw [heq]
    exact hbook.inactive
  · rw [heq]
    exact hbook.lowCost

theorem Recorded.flipAndRecord (hw : net.Wired) (hp : net.Priced)
    (h : Recorded net inactive x s) (a : Nat) :
    ∃ y, Descends net inactive x s [flipAndRecord net s a] y (flipAndRecord net s a) := by
  obtain ⟨y, hy⟩ := (h.flip a).exists_descends hw hp (by norm_num) (le_refl (1e-9 : K))
  refine ⟨y, hy.le, hy.recorded, hy.below, hy.origin.imp_left fun hkept => ?_⟩
  exact hkept.trans (rebooked_flip net s a).lowValues

theorem Recorded.restart (hw : net.Wired) (hp : net.Priced)
    (settings : Settings (Extended K)) {p : Progress (Extended K) ρ}
    (h : Recorded net inactive x p.state) :
    ∃ y, Descends net inactive x p.state [(restart net settings p).state] y
      (restart net settings p).state := by
  obtain ⟨hbegin, hvalues⟩ := h.begin settings p.source
  obtain ⟨y, hy⟩ := hbegin.exists_descends hw hp (le_refl (0 : K)) (by norm_num)
  exact ⟨y, hy.le, hy.recorded, hy.below, hy.origin.imp_left fun hkept => hkept.trans hvalues⟩

/-- The record along the steps of a try. -/
theorem Recorded.walkSteps (hw : net.Wired) (hp : net.Priced)
    (settings : Settings (Extended K)) (n : Nat) {p : Progress (Extended K) ρ}
    (h : Recorded net inactive x p.state) :
    ∃ y, Descends net inactive x p.state (walkSteps net settings n p).2 y
      (walkSteps net settings n p).1.state := by
  induction n generalizing p x with
  | zero => exact ⟨x, h.descends⟩
  | succ n ih =>
    rw [LocalSearch.walkSteps]
    split
    · exact ⟨x, h.descends⟩
    · rcases pick net settings p.state p.source with ⟨_ | a, source⟩
      · exact ih (p := { p with source }) h
      · obtain ⟨y, hy⟩ := h.flipAndRecord hw hp a
        obtain ⟨z, hz⟩ := ih (p := { p with
          state := LocalSearch.flipAndRecord net p.state a, source, flips := p.flips + 1 })
          hy.recorded
        have hreachable := reachable_flipAndRecord h.reachable a
        exact ⟨z, hy.trans hw hp (by simpa using hreachable) hz⟩

/-- The record along the tries. -/
theorem Recorded.walkTries (hw : net.Wired) (hp : net.Priced)
    (settings : Settings (Extended K)) (left : Nat) {p : Progress (Extended K) ρ}
    (h : Recorded net inactive x p.state) :
    ∃ y, Descends net inactive x p.state (walkTries net settings left p).2 y
      (walkTries net settings left p).1.state := by
  induction left generalizing p x with
  | zero =>
    have htried := Recorded.walkSteps hw hp settings settings.maxFlips
      (p := { p with tries := p.tries + 1 }) h
    rw [LocalSearch.walkTries]
    split <;> exact htried
  | succ left ih =>
    obtain ⟨y, hy⟩ := Recorded.walkSteps hw hp settings settings.maxFlips
      (p := { p with tries := p.tries + 1 }) h
    rw [LocalSearch.walkTries]
    dsimp only
    split
    · exact ⟨y, hy⟩
    · -- a new start, which is looked at as well, and the tries that are left
      obtain ⟨z, hz⟩ := Recorded.restart hw hp settings hy.recorded
      obtain ⟨w, hw'⟩ := ih hz.recorded
      have hstarted := hz.trans hw hp
        (by simpa using reachable_restart settings hy.recorded.reachable) hw'
      have hsteps := reachable_walkSteps settings settings.maxFlips
        (p := { p with tries := p.tries + 1 }) h.reachable
      exact ⟨w, hy.trans hw hp hsteps.2 hstarted⟩

/-- **A search returns to the cheapest state up to the slack**, and to the inactive
constraints that it started with. -/
theorem exists_search (hw : net.Wired) (hp : net.Priced) (h : Reachable net s)
    (settings : Settings (Extended K)) (r : ρ) :
    ∃ x y, s.cost net = .finite x ∧ (search net settings s r).state.cost net = .finite y ∧
      y ≤ x ∧ (∀ t ∈ visited net settings s r, .finite y ≤ t.cost net + slack) ∧
      ((search net settings s r).state.values = s.values ∨
        ∃ t ∈ visited net settings s r, (search net settings s r).state.values = t.values) ∧
      (search net settings s r).state.inactive = s.inactive := by
  obtain ⟨x, hx⟩ := exists_cost_eq hw hp h
  -- the start is recorded before the first try
  obtain ⟨y, hy⟩ := Recorded.walkTries hw hp settings (settings.maxTries - 1)
    (p := ⟨s.saveLow net, r, 0, 0⟩) (recorded_saveLow hw hp h rfl hx)
  rw [search_eq, hy.recorded.cost_restoreLow hw hp, hy.recorded.values_restoreLow,
    hy.recorded.inactive_restoreLow]
  exact ⟨x, y, hx, rfl, hy.le, hy.below, hy.origin, rfl⟩

/-! ### Chains -/

/-- A result that reports its assignment as it is. -/
structure IsTruthful (net : Network (Extended K)) (m : MapState (Extended K)) : Prop where
  size : m.assignment.size = net.atomCount
  cost : m.cost = net.evaluate m.assignment
  hardViolations : m.hardViolations = net.hardViolations m.assignment

theorem isTruthful_runChain (ρ : Type) [RandomSource ρ] (hw : net.Wired) (hp : net.Priced)
    (settings : Settings (Extended K)) (chain : Nat) :
    IsTruthful net (runChain ρ net settings chain) := by
  let source : ρ := RandomSource.ofSeed (UInt64.ofNat (settings.seed + chain))
  let begun := begin net settings (start net) source
  have hbegun : Reachable net begun.1 := reachable_begin .refl settings source
  have hreachable := reachable_search hbegun settings begun.2
  obtain ⟨-, -, -, -, -, -, -, hinactive⟩ := exists_search hw hp hbegun settings begun.2
  have hactive : ∀ i, (search net settings begun.1 begun.2).state.isInactive i = false := by
    intro i
    obtain ⟨values, heq⟩ := exists_begin_eq net settings (start net) source
    have hkept : begun.1.inactive = (start net).inactive := by
      show (begin net settings (start net) source).1.inactive = _
      rw [heq]
      exact (rebooked_recompute net { start net with values }).inactive
    rw [isInactive, hinactive, hkept]
    exact isInactive_start net i
  exact ⟨(sized_of_reachable hreachable).values, cost_eq_evaluate hw hp hreachable hactive,
    hardViolations_eq hw hp hreachable hactive⟩

omit [IsStrictOrderedRing K] in
/-- The cost of a truthful result is finite. -/
theorem IsTruthful.exists_cost_eq (hp : net.Priced) {m : MapState (Extended K)}
    (h : IsTruthful net m) : ∃ x, m.cost = .finite x :=
  ⟨_, h.cost.trans (hp.evaluate_eq_sum _)⟩

omit [IsStrictOrderedRing K] in
/-- The cheaper of two results with finite costs. -/
theorem cheaper_eq {a b : MapState (Extended K)} {x y : K} (ha : a.cost = .finite x)
    (hb : b.cost = .finite y) : cheaper a b = if y < x then b else a := by
  have horder : Scalar.order b.cost a.cost = compare y x := by
    rw [ha, hb]
    rfl
  rw [cheaper, horder]
  simp only [compare_lt_iff_lt]

omit [IsStrictOrderedRing K] in
/-- Taking the cheaper result again and again leaves a cheapest one. -/
theorem foldl_cheaper {result : Nat → MapState (Extended K)}
    (hfinite : ∀ i, ∃ x, (result i).cost = .finite x) (chains : List Nat) (first : Nat) :
    ∃ best ∈ first :: chains,
      chains.foldl (fun best i => cheaper best (result i)) (result first) = result best ∧
      ∀ i ∈ first :: chains, (result best).cost ≤ (result i).cost := by
  induction chains generalizing first with
  | nil =>
    obtain ⟨x, hx⟩ := hfinite first
    exact ⟨first, List.mem_singleton_self _, rfl, by simp [hx]⟩
  | cons i chains ih =>
    obtain ⟨x, hx⟩ := hfinite first
    obtain ⟨y, hy⟩ := hfinite i
    -- the one that goes on is no dearer than the one that is dropped
    obtain ⟨next, hnext, hcheaper, hfirst, hi⟩ : ∃ next ∈ [first, i],
        cheaper (result first) (result i) = result next ∧
        (result next).cost ≤ (result first).cost ∧ (result next).cost ≤ (result i).cost := by
      rw [cheaper_eq hx hy]
      by_cases hlt : y < x
      · exact ⟨i, by simp, if_pos hlt, by simp [hx, hy, hlt.le], by simp [hy]⟩
      · exact ⟨first, by simp, if_neg hlt, by simp [hx], by simp [hx, hy, not_lt.mp hlt]⟩
    obtain ⟨best, hbest, heq, hle⟩ := ih next
    obtain ⟨z, hz⟩ := hfinite best
    obtain ⟨w, hw⟩ := hfinite next
    have hbestNext := hle next List.mem_cons_self
    rw [hx, hw, Extended.finite_le] at hfirst
    rw [hy, hw, Extended.finite_le] at hi
    rw [hz, hw, Extended.finite_le] at hbestNext
    refine ⟨best, ?_, ?_, ?_⟩
    · simp only [List.mem_cons, List.not_mem_nil, or_false] at hbest hnext ⊢
      rcases hbest with rfl | hbest
      · exact hnext.imp_right .inl
      · exact .inr (.inr hbest)
    · rw [List.foldl_cons, hcheaper, heq]
    · rw [List.forall_mem_cons, List.forall_mem_cons, hz, hx, hy, Extended.finite_le,
        Extended.finite_le]
      refine ⟨hbestNext.trans hfirst, hbestNext.trans hi, fun j hj => ?_⟩
      rw [← hz]
      exact hle j (List.mem_cons_of_mem _ hj)

/-- The chains are those below their number, and at least one. -/
theorem mem_chains_iff {n chain : Nat} : chain ∈ 0 :: List.range' 1 (n - 1) ↔ chain < max n 1 := by
  rw [List.mem_cons, List.mem_range'_1]
  omega

/-! ### The result of a search -/

/-- **A search returns the best state that it has seen, and its true cost.**  Take
an assembled network with finite soft weights.  From every reachable state,
whatever is inactive or fixed there, and with every source of randomness, a search
ends in a state whose cost is that of its assignment, no more than the cost at the
start, and no more than the slack above the cost of any state on the way; and its
assignment is one of those.  A run over several chains returns an assignment of all
atoms with its true cost and hard violations, and it is the result of a chain than
which no other is cheaper. -/
theorem search_returns_best (ρ : Type) [RandomSource ρ]
    (cliques : List (UInt64 × Clique (Extended K))) (extra : List Nat)
    (range : Option (Nat × Nat))
    (hfinite : ∀ c ∈ (Network.assemble cliques extra range).constraints, ∀ w,
      c.strength = .soft w → Scalar.isFinite w = true)
    (settings : Settings (Extended K)) :
    let net := Network.assemble cliques extra range
    (∀ (s : State (Extended K)) (r : ρ), Reachable net s →
      let found := (search net settings s r).state
      found.cost net = found.costFromScratch net ∧ found.cost net ≤ s.cost net ∧
        (∀ t ∈ visited net settings s r, found.cost net ≤ t.cost net + slack) ∧
        (found.values = s.values ∨ ∃ t ∈ visited net settings s r, found.values = t.values)) ∧
    let best := run ρ net settings
    best.assignment.size = net.atomCount ∧ best.cost = net.evaluate best.assignment ∧
      best.hardViolations = net.hardViolations best.assignment ∧
      (∃ chain < max settings.chains 1, best = runChain ρ net settings chain) ∧
      ∀ chain < max settings.chains 1, best.cost ≤ (runChain ρ net settings chain).cost := by
  intro net
  have hw : net.Wired := Network.wired_assemble cliques extra range
  have hp : net.Priced := Network.priced_assemble hfinite
  refine ⟨fun s r h => ?_, ?_⟩
  · obtain ⟨x, y, hx, hy, hle, hbelow, horigin, -⟩ := exists_search hw hp h settings r
    refine ⟨cost_eq_costFromScratch hw hp (reachable_search h settings r), ?_, ?_, horigin⟩
    · rwa [hx, hy, Extended.finite_le]
    · rwa [hy]
  · have htruthful := isTruthful_runChain ρ hw hp settings
    obtain ⟨chain, hchain, heq, hle⟩ := foldl_cheaper
      (fun i => (htruthful i).exists_cost_eq hp) (List.range' 1 (settings.chains - 1)) 0
    have hrun : run ρ net settings = runChain ρ net settings chain := heq
    intro best
    rw [show best = runChain ρ net settings chain from hrun]
    refine ⟨(htruthful chain).size, (htruthful chain).cost, (htruthful chain).hardViolations,
      ⟨chain, mem_chains_iff.mp hchain, rfl⟩, fun i hi => ?_⟩
    exact hle i (mem_chains_iff.mpr hi)

/-- Two tries of few flips over two chains. -/
def briefSearch : Settings (Extended ℚ) :=
  ⟨20, 2, .finite 0, .finite (1 / 2), 3, 2, 7, .random⟩

theorem search_returns_best_threeCliques :
    let net := Network.assemble threeCliques [] none
    let s := ((start net).setInactive net 0 true).fix net 1 true
    let r : ChaCha := RandomSource.ofSeed 7
    let found := (search net briefSearch s r).state
    let best := run ChaCha net briefSearch
    (∀ c ∈ net.constraints, ∀ w, c.strength = .soft w → Scalar.isFinite w = true) ∧
      Reachable net s ∧ found.cost net = found.costFromScratch net ∧
      found.cost net ≤ s.cost net ∧
      (∀ t ∈ visited net briefSearch s r, found.cost net ≤ t.cost net + slack) ∧
      best.cost = net.evaluate best.assignment ∧
      best.cost ≤ (runChain ChaCha net briefSearch 1).cost := by
  intro net s r found best
  have hreach : Reachable net s :=
    (Relation.ReflTransGen.refl.tail (Step.setInactive 0 true)).tail (Step.fix 1 true)
  obtain ⟨hsearch, hrun⟩ :=
    search_returns_best ChaCha threeCliques [] none finite_threeCliques briefSearch
  obtain ⟨hcost, hentry, hbelow, -⟩ := hsearch s r hreach
  obtain ⟨-, hbest, -, -, hle⟩ := hrun
  exact ⟨finite_threeCliques, hreach, hcost, hentry, hbelow, hbest, hle 1 (by decide)⟩

end LocalSearch

end MarkovLogic
