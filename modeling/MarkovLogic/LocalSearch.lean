/-
MarkovLogic/LocalSearch.lean

Local search for a cheap assignment.

A search repairs.  Each step takes one of the violated constraints at random
and flips one of its atoms: with some probability any of them, otherwise one
whose flip costs least.  An atom that was flipped just before is left alone
for a while, unless flipping it leads below the best cost so far.  An atom
whose flip would violate a hard constraint is flipped only to mend a violated
hard constraint, and a fixed atom never.

A try ends when the cost reaches its target or the flips are used up; further
tries start over.  The search returns to the best assignment it has seen.
Several independent searches, the chains, differ in their seeds, and the
cheapest result is taken.
-/
import MarkovLogic.MapState
import MarkovLogic.Network.State

namespace MarkovLogic

/-- Where a try starts. -/
inductive InitialState where
  | allFalse
  | random
deriving Repr, DecidableEq, Inhabited

namespace LocalSearch

/-- How to search. -/
structure Settings (α : Type) where
  /-- The flips of one try. -/
  maxFlips : Nat
  /-- The number of tries. -/
  maxTries : Nat
  /-- A try ends when the cost comes down to this. -/
  targetCost : α
  /-- The probability of flipping any atom of the constraint. -/
  noise : α
  /-- For how many flips an atom is left alone after its flip. -/
  tabuLength : Nat
  /-- The number of independent searches. -/
  chains : Nat
  /-- The seed of the first search; each further one has the next seed. -/
  seed : Nat
  init : InitialState
deriving Repr, BEq, DecidableEq

variable {α : Type} [Scalar α] {ρ : Type} [RandomSource ρ]

/-- Costs that differ by less count as equal. -/
def slack : α := 1e-9

/-- Whether a cost is below the best cost so far by more than `margin`. -/
def improves (s : State α) (margin cost : α) : Bool :=
  match s.lowCost with
  | none => true
  | some low => decide (cost < low - margin)

/-- Whether a cost reaches the target. -/
def reaches (settings : Settings α) (cost : α) : Bool :=
  decide (cost ≤ settings.targetCost + slack)

/-! ### Choosing an atom -/

/-- The atoms of a violated constraint whose flip helps: any atom of one that
should hold, the true literals of one that should fail.  Fixed atoms are out,
and so are critical ones unless the constraint is hard. -/
def candidates (net : Network α) (s : State α) (c : Constraint α) : List Nat :=
  ((c.lits.filter fun l => c.isPositive || s.value l.atom == l.positive).map
    NetLiteral.atom).filter fun a => !s.isFixed a && (c.isHard || !s.isCritical net a)

/-- Whether an atom was flipped just before. -/
def isTabu (settings : Settings α) (s : State α) (a : Nat) : Bool :=
  let last := s.lastFlip.getD a 0
  0 < settings.tabuLength && 0 < last && s.flips - last < settings.tabuLength

/-- Whether flipping an atom leads below the best cost so far. -/
def aspires (net : Network α) (s : State α) (a : Nat) : Bool :=
  improves s slack (s.cost net + s.delta a)

/-- The least of some numbers, passing over what is not a number. -/
def least? (xs : List α) : Option α :=
  xs.foldl (fun best x =>
    if Scalar.isNaN x then best
    else match best with
      | none => some x
      | some b => if x < b then some x else some b) none

/-- The atoms among which a greedy step chooses: of those that are not tabu,
or of all if they all are, the ones whose flip costs least. -/
def greedyChoices (net : Network α) (settings : Settings α) (s : State α) (atoms : List Nat) :
    List Nat :=
  let allowed := atoms.filter fun a => !isTabu settings s a || aspires net s a
  let pool := if allowed.isEmpty then atoms else allowed
  match least? (pool.map s.delta) with
  | none => []
  | some best => pool.filter fun a => decide (s.delta a ≤ best + slack)

/-- A number cut down to a probability. -/
def clampUnit (p : α) : α :=
  if p < 0 then 0 else if 1 < p then 1 else p

/-- Chooses the atom to flip for a violated constraint. -/
def pickFrom (net : Network α) (settings : Settings α) (s : State α) (c : Constraint α) (r : ρ) :
    Option Nat × ρ :=
  let atoms := candidates net s c
  if atoms.isEmpty then (none, r)
  else
    let (walk, r) := Random.coin (clampUnit settings.noise) r
    if walk then Random.choose atoms.toArray r
    else Random.choose (greedyChoices net settings s atoms).toArray r

/-- Chooses a violated constraint and an atom to flip for it. -/
def pick (net : Network α) (settings : Settings α) (s : State α) (r : ρ) : Option Nat × ρ :=
  let (i, r) := Random.choose s.violated r
  match i.bind fun i => net.constraints[i]? with
  | none => (none, r)
  | some c => pickFrom net settings s c r

/-! ### Tries -/

/-- A search under way. -/
structure Progress (α ρ : Type) where
  state : State α
  source : ρ
  flips : Nat
  tries : Nat

/-- Flips an atom and records the result if it is the best so far. -/
def flipAndRecord (net : Network α) (s : State α) (a : Nat) : State α :=
  let s := s.flip net a
  if improves s slack (s.cost net) then s.saveLow net else s

/-- Up to so many steps of a try.  A step that finds no atom to flip uses up
its turn. -/
def steps (net : Network α) (settings : Settings α) : Nat → Progress α ρ → Progress α ρ
  | 0, p => p
  | n + 1, p =>
    if reaches settings (p.state.cost net) then p
    else
      match pick net settings p.state p.source with
      | (none, source) => steps net settings n { p with source }
      | (some a, source) =>
        steps net settings n
          { p with state := flipAndRecord net p.state a, source, flips := p.flips + 1 }

/-- Sets the free atoms to where a try starts. -/
def begin (net : Network α) (settings : Settings α) (s : State α) (r : ρ) : State α × ρ :=
  match settings.init with
  | .allFalse => (s.assign net (Array.replicate net.nodes.size false), r)
  | .random => s.randomize net r

/-- Starts over. -/
def restart (net : Network α) (settings : Settings α) (p : Progress α ρ) : Progress α ρ :=
  let (s, source) := begin net settings p.state p.source
  let state := if improves s 0 (s.cost net) then s.saveLow net else s
  { p with state, source }

/-- Whether the best cost so far reaches the target. -/
def isDone (settings : Settings α) (s : State α) : Bool :=
  match s.lowCost with
  | none => false
  | some low => reaches settings low

/-- Runs a try and then up to `left` more. -/
def runTries (net : Network α) (settings : Settings α) :
    (left : Nat) → Progress α ρ → Progress α ρ
  | left, p =>
    let p := steps net settings settings.maxFlips { p with tries := p.tries + 1 }
    if isDone settings p.state then p
    else
      match left with
      | 0 => p
      | left + 1 => runTries net settings left (restart net settings p)

/-- Searches from a state and returns to the best assignment. -/
def search (net : Network α) (settings : Settings α) (s : State α) (r : ρ) : Progress α ρ :=
  let p := runTries net settings (settings.maxTries - 1) ⟨s.saveLow net, r, 0, 0⟩
  { p with state := p.state.restoreLow net }

/-! ### Chains -/

/-- The result of one chain. -/
def runChain (ρ : Type) [RandomSource ρ] (net : Network α) (settings : Settings α) (chain : Nat) :
    MapState α :=
  let source : ρ := RandomSource.ofSeed (UInt64.ofNat (settings.seed + chain))
  let (s, source) := begin net settings (State.start net) source
  let p := search net settings s source
  { assignment := p.state.values
    cost := p.state.cost net
    hardViolations := p.state.hardViolations
    effort := { Effort.zero with flips := p.flips, tries := p.tries } }

/-- The cheaper of two results; of equally cheap ones the first. -/
def cheaper (a b : MapState α) : MapState α :=
  if Scalar.order b.cost a.cost = .lt then b else a

/-- Runs all chains and takes the cheapest result. -/
def run (ρ : Type) [RandomSource ρ] (net : Network α) (settings : Settings α) : MapState α :=
  (List.range' 1 (settings.chains - 1)).foldl
    (fun best chain => cheaper best (runChain ρ net settings chain)) (runChain ρ net settings 0)

end LocalSearch

end MarkovLogic
