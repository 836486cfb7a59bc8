/-
MarkovLogic/Proofs/LocalSearch/Walk.lean

The states that a search walks through.

A search returns its last state only.  To speak about the states in between,
the steps of a try and the tries are written once more so that they also return
the states that they come through (`walkSteps`, `walkTries`): the one after each
flip, and the one at the start of each further try.  The search itself is what
is left when these states are forgotten (`fst_walkSteps`, `fst_walkTries`).

Everything a search does is made of operations on the state, so all of these
states are reachable.

Main statements: `fst_walkTries`, `reachable_search`.
-/
import MarkovLogic.LocalSearch
import MarkovLogic.Proofs.Network.Counts

namespace MarkovLogic

namespace LocalSearch

open State

variable {α ρ : Type} [Scalar α] [RandomSource ρ] {net : Network α} {settings : Settings α}

/-! ### The parts of a search -/

/-- A try starts from a recomputed state with new values. -/
theorem exists_begin_eq (net : Network α) (settings : Settings α) (s : State α) (r : ρ) :
    ∃ values, (begin net settings s r).1 = ({ s with values } : State α).recompute net := by
  rw [begin]
  split
  · exact ⟨_, rfl⟩
  · exact ⟨_, rfl⟩

theorem reachable_begin {s : State α} (h : Reachable net s) (settings : Settings α) (r : ρ) :
    Reachable net (begin net settings s r).1 := by
  rw [begin]
  split
  · exact h.tail (.assign _)
  · exact h.tail (.randomize r)

/-- After a flip the state is recorded or not. -/
theorem flipAndRecord_eq (net : Network α) (s : State α) (a : Nat) :
    flipAndRecord net s a =
      if improves (s.flip net a) slack ((s.flip net a).cost net) then (s.flip net a).saveLow net
      else s.flip net a :=
  rfl

theorem reachable_flipAndRecord {s : State α} (h : Reachable net s) (a : Nat) :
    Reachable net (flipAndRecord net s a) := by
  rw [flipAndRecord_eq]
  split
  · exact (h.tail (.flip a)).tail .saveLow
  · exact h.tail (.flip a)

theorem reachable_restart (settings : Settings α) {p : Progress α ρ} (h : Reachable net p.state) :
    Reachable net (restart net settings p).state := by
  have hbegin := reachable_begin h settings p.source
  rw [restart]
  dsimp only
  split
  · exact hbegin.tail .saveLow
  · exact hbegin

/-! ### Walks -/

/-- The steps of a try, with the states after its flips. -/
def walkSteps (net : Network α) (settings : Settings α) :
    Nat → Progress α ρ → Progress α ρ × List (State α)
  | 0, p => (p, [])
  | n + 1, p =>
    if reaches settings (p.state.cost net) then (p, [])
    else
      match pick net settings p.state p.source with
      | (none, source) => walkSteps net settings n { p with source }
      | (some a, source) =>
        let state := flipAndRecord net p.state a
        let walked := walkSteps net settings n { p with state, source, flips := p.flips + 1 }
        (walked.1, state :: walked.2)

/-- The tries, with the states after their flips and at the start of each
further try. -/
def walkTries (net : Network α) (settings : Settings α) :
    (left : Nat) → Progress α ρ → Progress α ρ × List (State α)
  | left, p =>
    let tried := walkSteps net settings settings.maxFlips { p with tries := p.tries + 1 }
    if isDone settings tried.1.state then tried
    else
      match left with
      | 0 => tried
      | left + 1 =>
        let next := restart net settings tried.1
        let walked := walkTries net settings left next
        (walked.1, tried.2 ++ next.state :: walked.2)

/-- The states that a search comes through: after each flip and at the start
of each further try. -/
def visited (net : Network α) (settings : Settings α) (s : State α) (r : ρ) : List (State α) :=
  (walkTries net settings (settings.maxTries - 1) ⟨s.saveLow net, r, 0, 0⟩).2

/-- Forgetting the states leaves the steps of a try. -/
theorem fst_walkSteps (net : Network α) (settings : Settings α) (n : Nat) (p : Progress α ρ) :
    (walkSteps net settings n p).1 = steps net settings n p := by
  induction n generalizing p with
  | zero => rfl
  | succ n ih =>
    rw [walkSteps, steps]
    split
    · rfl
    · rcases pick net settings p.state p.source with ⟨_ | a, source⟩
      · exact ih _
      · exact ih _

/-- Forgetting the states leaves the tries. -/
theorem fst_walkTries (net : Network α) (settings : Settings α) (left : Nat) (p : Progress α ρ) :
    (walkTries net settings left p).1 = runTries net settings left p := by
  induction left generalizing p with
  | zero =>
    rw [walkTries, runTries, ← fst_walkSteps]
    split <;> rfl
  | succ left ih =>
    rw [walkTries, runTries, ← fst_walkSteps]
    dsimp only
    split
    · rfl
    · exact ih _

/-- A search walks through the tries and returns to the recorded state. -/
theorem search_eq (net : Network α) (settings : Settings α) (s : State α) (r : ρ) :
    (search net settings s r).state =
      ((walkTries net settings (settings.maxTries - 1) ⟨s.saveLow net, r, 0, 0⟩).1.state).restoreLow
        net := by
  rw [fst_walkTries]
  rfl

/-! ### What a walk keeps -/

/-- What every flip keeps, the steps of a try keep, and all states on the way
have it. -/
theorem walkSteps_induction (settings : Settings α) {P : State α → Prop}
    (hflip : ∀ (s : State α) (r r' : ρ) (a : Nat), P s → pick net settings s r = (some a, r') →
      P (flipAndRecord net s a)) (n : Nat) {p : Progress α ρ} (h : P p.state) :
    P (walkSteps net settings n p).1.state ∧ ∀ t ∈ (walkSteps net settings n p).2, P t := by
  induction n generalizing p with
  | zero => exact ⟨h, by simp [walkSteps]⟩
  | succ n ih =>
    rw [walkSteps]
    split
    · exact ⟨h, by simp⟩
    · split
      · exact ih h
      · rename_i a source hpick
        have hstate := hflip _ _ _ _ h hpick
        have hrest := ih (p := { p with
          state := flipAndRecord net p.state a, source, flips := p.flips + 1 }) hstate
        exact ⟨hrest.1, List.forall_mem_cons.mpr ⟨hstate, hrest.2⟩⟩

/-- What every flip and every new start keep, the tries keep, and all states on
the way have it. -/
theorem walkTries_induction {P : State α → Prop}
    (hflip : ∀ (s : State α) (r r' : ρ) (a : Nat), P s → pick net settings s r = (some a, r') →
      P (flipAndRecord net s a))
    (hrestart : ∀ p : Progress α ρ, P p.state → P (restart net settings p).state)
    (left : Nat) {p : Progress α ρ} (h : P p.state) :
    P (walkTries net settings left p).1.state ∧ ∀ t ∈ (walkTries net settings left p).2, P t := by
  induction left generalizing p with
  | zero =>
    have htried := walkSteps_induction settings hflip settings.maxFlips
      (p := { p with tries := p.tries + 1 }) h
    rw [walkTries]
    split <;> exact htried
  | succ left ih =>
    have htried := walkSteps_induction settings hflip settings.maxFlips
      (p := { p with tries := p.tries + 1 }) h
    have hnext := hrestart _ htried.1
    rw [walkTries]
    dsimp only
    split
    · exact htried
    · refine ⟨(ih hnext).1, fun t ht => ?_⟩
      rcases List.mem_append.mp ht with ht | ht
      · exact htried.2 t ht
      · exact List.forall_mem_cons.mpr ⟨hnext, (ih hnext).2⟩ t ht

theorem reachable_walkSteps (settings : Settings α) (n : Nat) {p : Progress α ρ}
    (h : Reachable net p.state) : Reachable net (walkSteps net settings n p).1.state ∧
      ∀ t ∈ (walkSteps net settings n p).2, Reachable net t :=
  walkSteps_induction settings (P := Reachable net)
    (fun _ _ _ a hs _ => reachable_flipAndRecord hs a) n h

theorem reachable_walkTries (left : Nat) {p : Progress α ρ} (h : Reachable net p.state) :
    Reachable net (walkTries net settings left p).1.state ∧
      ∀ t ∈ (walkTries net settings left p).2, Reachable net t :=
  walkTries_induction (P := Reachable net) (fun _ _ _ a hs _ => reachable_flipAndRecord hs a)
    (fun _ hp => reachable_restart settings hp) left h

/-- A search leads to reachable states. -/
theorem reachable_search {s : State α} (h : Reachable net s) (settings : Settings α) (r : ρ) :
    Reachable net (search net settings s r).state := by
  rw [search_eq]
  exact (reachable_walkTries _ (h.tail .saveLow)).1.tail .restoreLow

end LocalSearch

end MarkovLogic
