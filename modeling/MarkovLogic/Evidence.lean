/-
MarkovLogic/Evidence.lean

Evidence about the ground atoms of one predicate.

A ground atom is known to hold, known to fail, or not known.  What is stated
about it counts; the last statement wins.  About an atom without a statement
the assumption of the predicate decides: in a closed world it fails, in an
open world it is not known.
-/
import MarkovLogic.Herbrand.Block

namespace MarkovLogic

/-- What evidence says about a ground atom. -/
inductive Truth where
  | holds
  | fails
  | unknown
deriving Repr, DecidableEq, Inhabited

namespace Truth

/-- A known truth value. -/
def ofBool (value : Bool) : Truth :=
  if value then holds else fails

/-- Whether evidence decides the atom. -/
def isKnown (t : Truth) : Bool :=
  t != unknown

/-- The truth value, if it is known. -/
def toBool? : Truth → Option Bool
  | holds => some true
  | fails => some false
  | unknown => none

/-- Writes a truth value. -/
def text : Truth → String
  | holds => "TRUE"
  | fails => "FALSE"
  | unknown => "UNKNOWN"

end Truth

/-- What is assumed about atoms without a statement. -/
inductive WorldAssumption where
  | closed
  | open
deriving Repr, DecidableEq, Inhabited

/-- The truth value of an atom without a statement. -/
def WorldAssumption.default : WorldAssumption → Truth
  | .closed => .fails
  | .open => .unknown

/-- The evidence about one predicate. -/
structure Evidence where
  block : Herbrand.Block
  assumption : WorldAssumption
  /-- What is stated, by the numbers of the atoms. -/
  facts : Std.HashMap Nat Bool
  /-- How many atoms are stated to hold. -/
  trueCount : Nat

namespace Evidence

/-- No statements yet. -/
def empty (block : Herbrand.Block) (assumption : WorldAssumption) : Evidence :=
  ⟨block, assumption, ∅, 0⟩

/-- The predicate that the evidence is about. -/
def signature (e : Evidence) : Signature :=
  e.block.signature

/-- Records a statement. -/
def set (e : Evidence) (id : Nat) (value : Bool) : Evidence :=
  let count := match e.facts[id]?, value with
    | some true, false => e.trueCount - 1
    | some true, true => e.trueCount
    | _, true => e.trueCount + 1
    | _, false => e.trueCount
  { e with facts := e.facts.insert id value, trueCount := count }

/-- What is known about an atom. -/
def get (e : Evidence) (id : Nat) : Truth :=
  match e.facts[id]? with
  | some value => Truth.ofBool value
  | none => e.assumption.default

/-- How many atoms a statement is about. -/
def factCount (e : Evidence) : Nat :=
  e.facts.size

/-- Whether some atom can still be unknown. -/
def hasUnknown (e : Evidence) : Bool :=
  e.assumption == .open && e.facts.size < e.block.size

/-- The numbers of the atoms that are not known, in increasing order. -/
def unknownIds (e : Evidence) : List Nat :=
  if e.assumption = .open then
    (List.range' e.block.start e.block.size).filter fun id => !e.facts.contains id
  else []

end Evidence

end MarkovLogic
