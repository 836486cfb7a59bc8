/-
MarkovLogic/Network/State.lean

The state of a search through the assignments of a network.

Besides the assignment itself the state keeps what a search asks for all the
time, and changes it with each flip instead of computing it anew: how many
literals of each constraint are true, which constraints are violated, what
they cost, and for each atom two sums.  The make cost of an atom is the price
of the violated constraints that flipping it would mend; the break cost is
the price of the others that flipping it would violate.  Their difference is
what a flip changes the cost by.

With `w` the price of a constraint, it takes part in the sums as follows.

    true literals    none                      one
    should hold      make of each atom + w     break of the true atom + w
    should fail      break of each atom + w    make of the true atom + w

With two or more true literals a single flip changes nothing.

Atoms can be fixed, which keeps a search from flipping them, and constraints
can be made inactive, which takes them out of all sums.
-/
import MarkovLogic.Network
import MarkovLogic.Random

namespace MarkovLogic

/-- Whether an atom is fixed, and to which value. -/
inductive Fixing where
  | free
  | fixed (value : Bool)
deriving Repr, DecidableEq, Inhabited

/-- The state of a search. -/
structure State (α : Type) where
  /-- The assignment. -/
  values : Array Bool
  fixing : Array Fixing
  /-- The best assignment recorded so far; all atoms false at first. -/
  lowValues : Array Bool
  /-- Its cost; `none` as long as nothing is recorded. -/
  lowCost : Option α
  /-- In how many counted states each atom was true. -/
  trueCounts : Array Nat
  /-- The make cost of each atom. -/
  makeSums : Array α
  /-- The break cost of each atom. -/
  breakSums : Array α
  /-- The number of the last flip of each atom; zero if there was none. -/
  lastFlip : Array Nat
  /-- The number of flips. -/
  flips : Nat
  /-- The number of true literals of each constraint. -/
  trueLits : Array Nat
  inactive : Array Bool
  /-- The violated active constraints. -/
  violated : Array Nat
  /-- The place of each constraint in that list. -/
  violatedAt : Array (Option Nat)
  /-- The price of the violated soft constraints. -/
  softCost : α
  /-- The number of violated hard constraints. -/
  hardViolations : Nat

namespace State

variable {α : Type} [Scalar α]

/-! ### Looking at a state -/

/-- The value of an atom. -/
def value (s : State α) (a : Nat) : Bool :=
  s.values.getD a false

/-- Whether an atom is fixed. -/
def isFixed (s : State α) (a : Nat) : Bool :=
  s.fixing.getD a .free != .free

/-- The price of the violated constraints that flipping the atom would mend. -/
def makeCost (s : State α) (a : Nat) : α :=
  s.makeSums.getD a 0

/-- The price of the constraints that flipping the atom would violate. -/
def breakCost (s : State α) (a : Nat) : α :=
  s.breakSums.getD a 0

/-- What flipping the atom changes the cost by. -/
def delta (s : State α) (a : Nat) : α :=
  s.breakCost a - s.makeCost a

/-- Whether the atom is fixed or flipping it would violate a hard constraint. -/
def isCritical (net : Network α) (s : State α) (a : Nat) : Bool :=
  s.isFixed a || decide (net.hardWeight ≤ s.breakCost a)

/-- The number of true literals of a constraint. -/
def countOf (s : State α) (c : Nat) : Nat :=
  s.trueLits.getD c 0

/-- Whether a constraint is inactive. -/
def isInactive (s : State α) (c : Nat) : Bool :=
  s.inactive.getD c false

/-- The cost of the state. -/
def cost (net : Network α) (s : State α) : α :=
  s.softCost + Scalar.ofNat s.hardViolations * net.hardWeight

/-- The cost of the state, computed anew from the assignment. -/
def costFromScratch (net : Network α) (s : State α) : α :=
  let counted := net.constraints.toList.zipIdx.filter fun (c, i) =>
    !s.isInactive i && c.isViolated (c.countTrue s.values)
  Scalar.sum (counted.map fun (c, _) => net.price c)

/-! ### Bookkeeping for one constraint -/

/-- Adds a violated constraint to the list of violated ones. -/
def pushViolated (s : State α) (i : Nat) : State α :=
  { s with
    violatedAt := s.violatedAt.setIfInBounds i (some s.violated.size)
    violated := s.violated.push i }

/-- Takes a constraint out of the list of violated ones; the last of the list
moves to its place. -/
def dropViolated (s : State α) (i : Nat) : State α :=
  match s.violatedAt.getD i none with
  | none => s
  | some place =>
    let violatedAt := s.violatedAt.setIfInBounds i none
    match s.violated.back? with
    | none => { s with violatedAt }
    | some moved =>
      let violated := (s.violated.setIfInBounds place moved).pop
      let violatedAt :=
        if place < violated.size then violatedAt.setIfInBounds moved (some place) else violatedAt
      { s with violated, violatedAt }

/-- Counts a constraint among the violated ones, if it is violated. -/
def enter (s : State α) (i : Nat) (c : Constraint α) : State α :=
  if c.isViolated (s.countOf i) then
    let s := match c.strength with
      | .hard => { s with hardViolations := s.hardViolations + 1 }
      | .soft w => { s with softCost := s.softCost + Scalar.abs w }
    s.pushViolated i
  else s

/-- Takes back what `enter` did. -/
def withdraw (s : State α) (i : Nat) (c : Constraint α) : State α :=
  if c.isViolated (s.countOf i) then
    let s := match c.strength with
      | .hard => { s with hardViolations := s.hardViolations - 1 }
      | .soft w => { s with softCost := s.softCost - Scalar.abs w }
    s.dropViolated i
  else s

/-- Adds `w` to the make costs of the given atoms. -/
def addMake (s : State α) (w : α) (atoms : List Nat) : State α :=
  { s with makeSums := atoms.foldl (fun m a => m.modify a (· + w)) s.makeSums }

/-- Adds `w` to the break costs of the given atoms. -/
def addBreak (s : State α) (w : α) (atoms : List Nat) : State α :=
  { s with breakSums := atoms.foldl (fun m a => m.modify a (· + w)) s.breakSums }

/-- Adds the part of a constraint in the make and break costs, multiplied by
`sign`. -/
def addPotential (net : Network α) (s : State α) (i : Nat) (c : Constraint α) (sign : α) :
    State α :=
  if s.isInactive i then s
  else
    let w := sign * net.price c
    match s.countOf i with
    | 0 =>
      let atoms := c.lits.map NetLiteral.atom
      if c.isPositive then s.addMake w atoms else s.addBreak w atoms
    | 1 =>
      match c.lits.find? fun l => s.value l.atom == l.positive with
      | none => s
      | some l => if c.isPositive then s.addBreak w [l.atom] else s.addMake w [l.atom]
    | _ => s

/-- Applies a step to the constraint with the given index. -/
def onConstraint (net : Network α) (s : State α) (i : Nat)
    (step : State α → Constraint α → State α) : State α :=
  match net.constraints[i]? with
  | none => s
  | some c => step s c

/-- One literal of the constraint becomes true or false. -/
def shiftCount (s : State α) (i : Nat) (becameTrue : Bool) (c : Constraint α) : State α :=
  let active := !s.isInactive i
  let s := if active then s.withdraw i c else s
  let s := { s with trueLits := s.trueLits.modify i fun n => if becameTrue then n + 1 else n - 1 }
  if active then s.enter i c else s

/-! ### Operations -/

/-- Computes all sums anew from the assignment. -/
def recompute (net : Network α) (s : State α) : State α :=
  let cleared : State α := { s with
    makeSums := s.makeSums.map fun _ => 0
    breakSums := s.breakSums.map fun _ => 0
    violated := #[]
    violatedAt := s.violatedAt.map fun _ => none
    softCost := 0
    hardViolations := 0
    trueLits := net.constraints.map fun c => c.countTrue s.values }
  net.constraints.toList.zipIdx.foldl (fun s (c, i) =>
    if s.isInactive i then s else (s.enter i c).addPotential net i c 1) cleared

/-- The state with all atoms false and free. -/
def start (net : Network α) : State α :=
  let n := net.nodes.size
  let m := net.constraints.size
  recompute net {
    values := Array.replicate n false
    fixing := Array.replicate n .free
    lowValues := Array.replicate n false
    lowCost := none
    trueCounts := Array.replicate n 0
    makeSums := Array.replicate n 0
    breakSums := Array.replicate n 0
    lastFlip := Array.replicate n 0
    flips := 0
    trueLits := Array.replicate m 0
    inactive := Array.replicate m false
    violated := #[]
    violatedAt := Array.replicate m none
    softCost := 0
    hardViolations := 0 }

/-- Flips an atom. -/
def flip (net : Network α) (s : State α) (a : Nat) : State α :=
  let node := net.nodes.getD a default
  let occurrences := node.occurrences
  let potential (sign : α) (s : State α) (i : Nat) : State α :=
    s.onConstraint net i fun s c => s.addPotential net i c sign
  let shift (becameTrue : Bool) (s : State α) (i : Nat) : State α :=
    s.onConstraint net i fun s c => s.shiftCount i becameTrue c
  let now := !s.value a
  let s := occurrences.foldl (potential (-1)) s
  let s := { s with values := s.values.setIfInBounds a now }
  let s := node.positive.toList.foldl (shift now) s
  let s := node.negative.toList.foldl (shift (!now)) s
  let s := occurrences.foldl (potential 1) s
  let flips := s.flips + 1
  { s with flips, lastFlip := s.lastFlip.setIfInBounds a flips }

/-- Gives an atom a value and fixes it. -/
def fix (net : Network α) (s : State α) (a : Nat) (value : Bool) : State α :=
  let s := if s.value a = value then s else s.flip net a
  { s with fixing := s.fixing.setIfInBounds a (.fixed value) }

/-- Frees an atom. -/
def unfix (s : State α) (a : Nat) : State α :=
  { s with fixing := s.fixing.setIfInBounds a .free }

/-- Gives the free atoms new values, as far as `values` reaches. -/
def assign (net : Network α) (s : State α) (values : Array Bool) : State α :=
  let values := s.values.mapIdx fun i v => if s.isFixed i then v else values.getD i v
  recompute net { s with values }

/-- Draws values for the given atoms, passing over fixed ones. -/
def drawValues {ρ : Type} [RandomSource ρ] (s : State α) :
    List Nat → Array Bool → ρ → Array Bool × ρ
  | [], values, r => (values, r)
  | a :: as, values, r =>
    if s.isFixed a then drawValues s as values r
    else
      let (v, r) := Random.coin (0.5 : α) r
      drawValues s as (values.setIfInBounds a v) r

/-- Gives the free atoms random values. -/
def randomize {ρ : Type} [RandomSource ρ] (net : Network α) (s : State α) (r : ρ) :
    State α × ρ :=
  let (values, r) := s.drawValues (List.range s.values.size) s.values r
  (recompute net { s with values }, r)

/-- Takes a constraint out of all sums, or back in. -/
def setInactive (net : Network α) (s : State α) (i : Nat) (inactive : Bool) : State α :=
  if s.isInactive i = inactive then s
  else
    s.onConstraint net i fun s c =>
      if inactive then
        let s := (s.addPotential net i c (-1)).withdraw i c
        { s with inactive := s.inactive.setIfInBounds i true }
      else
        let s := { s with inactive := s.inactive.setIfInBounds i false }
        (s.enter i c).addPotential net i c 1

/-! ### The best state and statistics -/

/-- Records the current assignment as the best one. -/
def saveLow (net : Network α) (s : State α) : State α :=
  { s with lowValues := s.values, lowCost := some (s.cost net) }

/-- Goes back to the recorded assignment, if its cost is finite. -/
def restoreLow (net : Network α) (s : State α) : State α :=
  match s.lowCost with
  | none => s
  | some c => if Scalar.isFinite c then recompute net { s with values := s.lowValues } else s

/-- Counts in which atoms the current assignment is true. -/
def countStates (s : State α) : State α :=
  { s with trueCounts := s.trueCounts.mapIdx fun i n => if s.value i then n + 1 else n }

/-- The part of `samples` counted states in which the atom was true. -/
def probability (s : State α) (a samples : Nat) : α :=
  if samples = 0 then 0 else Scalar.ofNat (s.trueCounts.getD a 0) / Scalar.ofNat samples

end State

end MarkovLogic
