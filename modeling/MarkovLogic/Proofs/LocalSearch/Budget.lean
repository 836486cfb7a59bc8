/-
MarkovLogic/Proofs/LocalSearch/Budget.lean

A larger budget never makes a search worse.

A search has two budgets: the number of its tries, and the flips of one try.  Nothing
that a step decides depends on them, neither a draw nor whether an atom is tabu.  So
of two searches from one state and one source of randomness, the one with more flips
for its only try takes the steps of the other first (`walkSteps_add`), and the one
with more tries makes the tries of the other first (`walkTries_add`).  A search that
has come down to its target stops, but then it stops there under every budget.

What the longer search does after that can only lower the record, because each
state is recorded only if it is cheaper.

Main statement: `cost_search_antitone`.
-/
import MarkovLogic.Proofs.LocalSearch.Best

namespace MarkovLogic

namespace LocalSearch

open State

/-! ### Budgets -/

/-- `LargerBudget small large`: the settings differ in one budget at most, and `large`
has no less of it.  More flips for each try are a larger budget only if there is one
try, since they change where the second try starts. -/
inductive LargerBudget {α : Type} (small : Settings α) : Settings α → Prop
  | tries {n : Nat} : small.maxTries ≤ n → LargerBudget small { small with maxTries := n }
  | flips {n : Nat} : small.maxTries = 1 → small.maxFlips ≤ n →
      LargerBudget small { small with maxFlips := n }

section Replay

variable {α : Type} [Scalar α] {ρ : Type} [RandomSource ρ] {net : Network α}
  {settings : Settings α}

/-! ### More flips -/

/-- A step reads neither budget. -/
theorem walkSteps_withBudgets (net : Network α) (settings : Settings α) (flips tries n : Nat)
    (p : Progress α ρ) :
    walkSteps net { settings with maxFlips := flips, maxTries := tries } n p =
      walkSteps net settings n p := by
  induction n generalizing p with
  | zero => rfl
  | succ n ih =>
    rw [walkSteps, walkSteps]
    simp only [ih]
    rfl

/-- A try that has come down to its target takes no further step. -/
theorem walkSteps_of_reaches {p : Progress α ρ} (h : reaches settings (p.state.cost net) = true)
    (n : Nat) : walkSteps net settings n p = (p, []) := by
  cases n with
  | zero => rfl
  | succ n => rw [walkSteps, if_pos h]

/-- More steps are the steps and then some more. -/
theorem walkSteps_add (net : Network α) (settings : Settings α) (m n : Nat) (p : Progress α ρ) :
    walkSteps net settings (m + n) p =
      let first := walkSteps net settings m p
      let rest := walkSteps net settings n first.1
      (rest.1, first.2 ++ rest.2) := by
  induction m generalizing p with
  | zero => simp [walkSteps]
  | succ m ih =>
    rw [Nat.succ_add, walkSteps, walkSteps]
    by_cases hreaches : reaches settings (p.state.cost net) = true
    · simp [if_pos hreaches, walkSteps_of_reaches hreaches]
    · rw [if_neg hreaches, if_neg hreaches]
      rcases pick net settings p.state p.source with ⟨_ | a, source⟩
      · exact ih _
      · simp [ih]

/-! ### More tries -/

/-- A try does not read the number of tries. -/
theorem walkTries_withTries (net : Network α) (settings : Settings α) (tries left : Nat)
    (p : Progress α ρ) :
    walkTries net { settings with maxTries := tries } left p = walkTries net settings left p := by
  have hsteps := walkSteps_withBudgets (ρ := ρ) net settings settings.maxFlips tries
  induction left generalizing p with
  | zero =>
    rw [walkTries, walkTries, hsteps]
    rfl
  | succ left ih =>
    rw [walkTries, walkTries, hsteps]
    simp only [ih]
    rfl

/-- Without further tries there are the steps of one. -/
theorem walkTries_zero (net : Network α) (settings : Settings α) (p : Progress α ρ) :
    walkTries net settings 0 p =
      walkSteps net settings settings.maxFlips { p with tries := p.tries + 1 } := by
  rw [walkTries]
  split <;> rfl

/-- Up to so many further tries after a try has ended, with the states on the way. -/
def walkFurther (net : Network α) (settings : Settings α) :
    Nat → Progress α ρ → Progress α ρ × List (State α)
  | 0, p => (p, [])
  | n + 1, p =>
    if isDone settings p.state then (p, [])
    else
      let next := restart net settings p
      let walked := walkTries net settings n next
      (walked.1, next.state :: walked.2)

/-- After a search that has come down to its target there is no further try. -/
theorem walkFurther_of_isDone {p : Progress α ρ} (h : isDone settings p.state = true) (n : Nat) :
    walkFurther net settings n p = (p, []) := by
  cases n with
  | zero => rfl
  | succ n => rw [walkFurther, if_pos h]

/-- The tries are one try and the further ones. -/
theorem walkTries_eq (net : Network α) (settings : Settings α) (left : Nat) (p : Progress α ρ) :
    walkTries net settings left p =
      let tried := walkSteps net settings settings.maxFlips { p with tries := p.tries + 1 }
      let rest := walkFurther net settings left tried.1
      (rest.1, tried.2 ++ rest.2) := by
  cases left with
  | zero => simp [walkTries_zero, walkFurther]
  | succ left =>
    rw [walkTries]
    dsimp only
    rw [walkFurther]
    split
    · simp
    · rfl

/-- More tries are the tries and then some more. -/
theorem walkTries_add (net : Network α) (settings : Settings α) (left more : Nat)
    (p : Progress α ρ) :
    walkTries net settings (left + more) p =
      let first := walkTries net settings left p
      let rest := walkFurther net settings more first.1
      (rest.1, first.2 ++ rest.2) := by
  induction left generalizing p with
  | zero =>
    rw [Nat.zero_add, walkTries_eq, walkTries_eq]
    simp [walkFurther]
  | succ left ih =>
    rw [walkTries_eq, walkTries_eq, Nat.succ_add]
    dsimp only
    rw [walkFurther, walkFurther]
    split
    · rename_i hdone
      simp [walkFurther_of_isDone hdone]
    · simp [ih]

end Replay

/-! ### The record under a larger budget -/

variable {K : Type} [Field K] [LinearOrder K] [FloorRing K] [IsStrictOrderedRing K]
variable {ρ : Type} [RandomSource ρ] {net : Network (Extended K)} {inactive : Array Bool} {x : K}

/-- The record along further tries. -/
theorem Recorded.walkFurther (hw : net.Wired) (hp : net.Priced)
    (settings : Settings (Extended K)) (n : Nat) {p : Progress (Extended K) ρ}
    (h : Recorded net inactive x p.state) :
    ∃ y ≤ x, Recorded net inactive y (walkFurther net settings n p).1.state := by
  cases n with
  | zero => exact ⟨x, le_refl x, h⟩
  | succ n =>
    rw [LocalSearch.walkFurther]
    split
    · exact ⟨x, le_refl x, h⟩
    · obtain ⟨y, hy⟩ := Recorded.restart hw hp settings h
      obtain ⟨z, hz⟩ := Recorded.walkTries hw hp settings n hy.recorded
      exact ⟨z, hz.le.trans hy.le, hz.recorded⟩

/-- A search with a larger budget goes on where the other one ends, and its record
is no higher. -/
theorem LargerBudget.exists_walkTries_eq (hw : net.Wired) (hp : net.Priced)
    {small large : Settings (Extended K)} (h : LargerBudget small large)
    {p : Progress (Extended K) ρ}
    (hx : Recorded net inactive x (walkTries net small (small.maxTries - 1) p).1.state) :
    ∃ q ts, walkTries net large (large.maxTries - 1) p =
        (q, (walkTries net small (small.maxTries - 1) p).2 ++ ts) ∧
      ∃ y ≤ x, Recorded net inactive y q.state := by
  cases h with
  | @tries n hle =>
    obtain ⟨more, hmore⟩ := Nat.exists_eq_add_of_le (Nat.sub_le_sub_right hle 1)
    have hlarge := walkTries_add net small (small.maxTries - 1) more p
    rw [← hmore, ← walkTries_withTries net small n] at hlarge
    exact ⟨_, _, hlarge, Recorded.walkFurther hw hp small more hx⟩
  | @flips n hone hle =>
    obtain ⟨more, rfl⟩ := Nat.exists_eq_add_of_le hle
    have hlarge := walkSteps_add net small small.maxFlips more { p with tries := p.tries + 1 }
    rw [← walkSteps_withBudgets net small (small.maxFlips + more) small.maxTries] at hlarge
    -- there is one try, so the walk is that of its steps
    simp only [hone, Nat.sub_self, walkTries_zero] at hx hlarge ⊢
    obtain ⟨y, hy⟩ := Recorded.walkSteps hw hp small more hx
    exact ⟨_, _, hlarge, y, hy.le, hy.recorded⟩

/-- **A larger budget never makes a search worse.**  Take an assembled network with
finite soft weights, a reachable state, and a source of randomness.  Of two searches
whose settings differ in the number of tries only, or allow one try and differ in the
number of its flips only, the one with the larger budget comes through all states
that the other one comes through, in the same order and before any other, and ends
with a cost that is no higher. -/
theorem cost_search_antitone (ρ : Type) [RandomSource ρ]
    (cliques : List (UInt64 × Clique (Extended K))) (extra : List Nat)
    (range : Option (Nat × Nat))
    (hfinite : ∀ c ∈ (Network.assemble cliques extra range).constraints, ∀ w,
      c.strength = .soft w → Scalar.isFinite w = true)
    {small large : Settings (Extended K)} (hbudget : LargerBudget small large) :
    let net := Network.assemble cliques extra range
    ∀ (s : State (Extended K)) (r : ρ), Reachable net s →
      visited net small s r <+: visited net large s r ∧
        (search net large s r).state.cost net ≤ (search net small s r).state.cost net := by
  intro net s r h
  have hw : net.Wired := Network.wired_assemble cliques extra range
  have hp : net.Priced := Network.priced_assemble hfinite
  obtain ⟨x, hx⟩ := exists_cost_eq hw hp h
  obtain ⟨y, hy⟩ := Recorded.walkTries hw hp small (small.maxTries - 1)
    (p := ⟨s.saveLow net, r, 0, 0⟩) (recorded_saveLow hw hp h rfl hx)
  obtain ⟨q, ts, hlarge, z, hzy, hz⟩ := hbudget.exists_walkTries_eq hw hp hy.recorded
  constructor
  · refine ⟨ts, ?_⟩
    rw [visited, visited, hlarge]
  · rw [search_eq, search_eq, hlarge, hz.cost_restoreLow hw hp, hy.recorded.cost_restoreLow hw hp,
      Extended.finite_le]
    exact hzy

/-- A search of two tries and one of three. -/
theorem cost_search_antitone_threeCliques :
    let net := Network.assemble threeCliques [] none
    let s := ((start net).setInactive net 0 true).fix net 1 true
    let r : ChaCha := RandomSource.ofSeed 7
    let more : Settings (Extended ℚ) := { briefSearch with maxTries := 3 }
    let single : Settings (Extended ℚ) := { briefSearch with maxTries := 1 }
    let longer : Settings (Extended ℚ) := { single with maxFlips := 50 }
    (∀ c ∈ net.constraints, ∀ w, c.strength = .soft w → Scalar.isFinite w = true) ∧
      Reachable net s ∧ LargerBudget briefSearch more ∧ LargerBudget single longer ∧
      visited net briefSearch s r <+: visited net more s r ∧
      (search net more s r).state.cost net ≤ (search net briefSearch s r).state.cost net ∧
      (search net longer s r).state.cost net ≤ (search net single s r).state.cost net := by
  intro net s r more single longer
  have hreach : Reachable net s :=
    (Relation.ReflTransGen.refl.tail (Step.setInactive 0 true)).tail (Step.fix 1 true)
  have hmore : LargerBudget briefSearch more := .tries (by decide)
  have hlonger : LargerBudget single longer := .flips rfl (by decide)
  obtain ⟨hvisited, htries⟩ :=
    cost_search_antitone ChaCha threeCliques [] none finite_threeCliques hmore s r hreach
  obtain ⟨-, hflips⟩ :=
    cost_search_antitone ChaCha threeCliques [] none finite_threeCliques hlonger s r hreach
  exact ⟨finite_threeCliques, hreach, hmore, hlonger, hvisited, htries, hflips⟩

end LocalSearch

end MarkovLogic
