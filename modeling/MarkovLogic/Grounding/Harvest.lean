/-
MarkovLogic/Grounding/Harvest.lean

The ground clauses of one clause.

An odometer runs through the substitutions of constants for the variables.
Under a substitution the literals are asked in turn.  A literal that evidence
or a rule satisfies makes the ground clause true, whatever the other literals
say, and one whose atom does not exist makes it vanish; either way nothing is
left of it, and the same holds of every substitution that agrees from the
pivot of the literal on.  Those are skipped.  If all literals fail, nothing is
left either.  Otherwise the unknown literals are left, and they are kept if no
literal stands beside its own negation and some atom is of interest.

The way the odometer leaves a decided substitution is a parameter (`walk`):
`harvest` skips, and stepping on one by one would find the same.
-/
import MarkovLogic.Grounding.Template
import MarkovLogic.Odometer
import Std.Data.HashSet

namespace MarkovLogic.Grounding

/-! ### Asking the literals -/

/-- What a literal's atom turns out to be. -/
inductive Finding where
  /-- There is no such atom. -/
  | absent
  /-- Evidence or a rule decides it. -/
  | known (value : Bool)
  /-- It is not known; its number. -/
  | unknown (id : Nat)
deriving Repr, DecidableEq

/-- The position of an argument in its domain. -/
def IndexSlot.index? (digits : List Nat) : IndexSlot → Option Nat
  | .digit position places => do
    let value ← digits[position]?
    (places[value]?).join
  | .fixed index => index

/-- The name of an argument. -/
def NameSlot.name? (digits : List Nat) : NameSlot → Option String
  | .digit position domain => do
    let value ← digits[position]?
    domain.name? value
  | .fixed name => some name

/-- Finds out about an atom. -/
def Test.find (digits : List Nat) : Test → Finding
  | .lookUp evidence arguments =>
    match (arguments.mapM (IndexSlot.index? digits)).bind evidence.block.encodeIndices? with
    | none => .absent
    | some id =>
      match (evidence.get id).toBool? with
      | some value => .known value
      | none => .unknown id
  | .compute rule arguments =>
    match arguments.mapM (NameSlot.name? digits) with
    | none => .absent
    | some names => .known (rule names)

/-- What is left of a clause under a substitution. -/
inductive Verdict where
  /-- A literal with this pivot is satisfied. -/
  | satisfied (pivot : Nat)
  /-- The atom of a literal with this pivot does not exist. -/
  | absent (pivot : Nat)
  /-- Every literal fails. -/
  | falsified
  /-- The unknown literals. -/
  | pending (literals : List Int)
deriving Repr, DecidableEq

/-- The literal of an unknown atom. -/
def signedLiteral (positive : Bool) (id : Nat) : Int :=
  if positive then literalOf id else oppositeLiteral (literalOf id)

/-- Asks the literals in turn; `left` holds the unknown ones so far. -/
def judge (digits : List Nat) : List Probe → List Int → Verdict
  | [], left => if left.isEmpty then .falsified else .pending left
  | p :: ps, left =>
    match p.test.find digits with
    | .absent => .absent p.pivot
    | .known value => if value = p.positive then .satisfied p.pivot else judge digits ps left
    | .unknown id => judge digits ps (left ++ [signedLiteral p.positive id])

/-! ### Weights -/

/-- In which form ground clauses are registered. -/
structure Options where
  /-- Whether clauses of negative weight are split into units. -/
  splitNegative : Bool
  /-- Whether a negated unit becomes a unit of the opposite weight. -/
  flipNegatedUnit : Bool
deriving Repr, DecidableEq, Inhabited

/-- The entries that a ground clause is registered as. -/
def entriesOf {α : Type} [Scalar α] (options : Options) (clause : Nat) (w : α)
    (literals : List Int) : List (Entry α) :=
  let hard := Scalar.isInfinite w
  let negated (l : Int) (share : α) := Entry.make [oppositeLiteral l] share clause (-1)
  if w < 0 ∧ (hard ∨ options.splitNegative) then
    match literals with
    | [l] => [negated l w]
    | _ =>
      let share := if hard then w else w / Scalar.ofNat literals.length
      literals.map fun l => negated l share
  else
    match literals with
    | [l] =>
      if !hard ∧ options.flipNegatedUnit ∧ l < 0 then [negated l w]
      else [Entry.make literals w clause 1]
    | _ => [Entry.make literals w clause 1]

/-- The number of entries that a ground clause of `n` literals is registered as:
one, or one for each literal if it is split. -/
def entryCount {α : Type} [Scalar α] (options : Options) (w : α) (n : Nat) : Nat :=
  if w < 0 ∧ (Scalar.isInfinite w ∨ options.splitNegative) then n else 1

/-! ### Running through the substitutions -/

/-- How the substitutions of a clause turned out. -/
structure Counts where
  substitutions : Nat
  tautologies : Nat
  absent : Nat
  falsified : Nat
  filtered : Nat
  emitted : Nat
deriving Repr, DecidableEq, Inhabited

namespace Counts

/-- No substitution yet. -/
def zero : Counts := ⟨0, 0, 0, 0, 0, 0⟩

/-- The counts of two clauses together. -/
def add (a b : Counts) : Counts :=
  ⟨a.substitutions + b.substitutions, a.tautologies + b.tautologies, a.absent + b.absent,
    a.falsified + b.falsified, a.filtered + b.filtered, a.emitted + b.emitted⟩

end Counts

/-- What grounding one clause brings in. -/
structure Harvest (α : Type) where
  counts : Counts
  /-- The entries in the order in which they were found. -/
  entries : Array (Entry α)
  /-- The atoms of the ground clauses that were kept. -/
  atoms : Std.HashSet Nat

namespace Harvest

variable {α : Type} [Scalar α]

/-- Nothing yet. -/
def empty : Harvest α :=
  ⟨.zero, #[], ∅⟩

/-- Whether a literal stands beside its own negation. -/
def isTautology (literals : List Int) : Bool :=
  literals.any fun l => 0 < l && literals.contains (-l)

/-- Takes in the unknown literals of a substitution. -/
def takePending (t : Template α) (options : Options) (interest : Nat → Bool) (pending : List Int)
    (h : Harvest α) : Harvest α :=
  let literals := literalSet pending
  if isTautology literals then
    { h with counts.tautologies := h.counts.tautologies + 1 }
  else if !literals.any fun l => interest l.natAbs then
    { h with counts.filtered := h.counts.filtered + 1 }
  else
    let emitted := h.counts.emitted + entryCount options t.weight literals.length
    { counts := { h.counts with emitted }
      entries := h.entries ++ (entriesOf options t.clause t.weight literals).toArray
      atoms := h.atoms.insertMany (literals.map Int.natAbs) }

/-- Goes on from a substitution; `leave` is the way out of a decided one.
Each step uses up at least one substitution, so `fuel` need not exceed their
number. -/
def walk (leave : Odometer → Nat → Odometer) (t : Template α) (options : Options)
    (interest : Nat → Bool) : Nat → Odometer → Harvest α → Harvest α
  | 0, _, h => h
  | fuel + 1, o, h =>
    match o.digits with
    | none => h
    | some digits =>
      let h := { h with counts.substitutions := h.counts.substitutions + 1 }
      match judge digits t.probes [] with
      | .satisfied pivot =>
        walk leave t options interest fuel (leave o pivot)
          { h with counts.tautologies := h.counts.tautologies + 1 }
      | .absent pivot =>
        walk leave t options interest fuel (leave o pivot)
          { h with counts.absent := h.counts.absent + 1 }
      | .falsified =>
        walk leave t options interest fuel o.advance
          { h with counts.falsified := h.counts.falsified + 1 }
      | .pending literals =>
        walk leave t options interest fuel o.advance (h.takePending t options interest literals)

end Harvest

/-- Grounds a clause.  A clause of weight zero brings in nothing. -/
def harvest {α : Type} [Scalar α] (t : Template α) (options : Options) (interest : Nat → Bool) :
    Harvest α :=
  if t.weight == 0 then .empty
  else
    let o := Odometer.start t.radices
    Harvest.walk Odometer.skipPast t options interest o.size o .empty

end MarkovLogic.Grounding
