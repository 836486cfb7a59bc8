/-
MarkovLogic/Odometer.lean

Odometers: counting through the combinations of digits.

The first digit is the least significant and turns fastest; each digit has a
radix of its own.  Besides stepping to the next combination an odometer can
skip: `skipPast k` leaves every combination that agrees with the current one
from digit `k` on.  Stepping is skipping past digit `0`, and skipping past a
digit that is not there ends the count.
-/
namespace MarkovLogic

/-- The state of a count: `digits` is `none` once every combination has been
left behind. -/
structure Odometer where
  radices : List Nat
  digits : Option (List Nat)
deriving Repr, DecidableEq

namespace Odometer

/-- The first combination; there is none if some radix is zero. -/
def start (radices : List Nat) : Odometer :=
  ⟨radices, if radices.contains 0 then none else some (radices.map fun _ => 0)⟩

/-- The number of combinations. -/
def size (o : Odometer) : Nat :=
  o.radices.foldl (· * ·) 1

/-- Whether every combination has been left behind. -/
def isExhausted (o : Odometer) : Bool :=
  o.digits.isNone

/-- Adds one to the number that the digits spell, carrying to the right;
`none` if the carry runs off the end. -/
def carry : List Nat → List Nat → Option (List Nat)
  | r :: rs, d :: ds => if d + 1 < r then some ((d + 1) :: ds) else (carry rs ds).map (0 :: ·)
  | _, _ => none

/-- Clears the digits below `k` and adds one to the rest. -/
def skipDigits : Nat → List Nat → List Nat → Option (List Nat)
  | 0, rs, ds => carry rs ds
  | k + 1, _ :: rs, _ :: ds => (skipDigits k rs ds).map (0 :: ·)
  | _ + 1, _, _ => none

/-- Leaves every combination that agrees with the current one from digit `k`
on. -/
def skipPast (o : Odometer) (k : Nat) : Odometer :=
  { o with digits := o.digits.bind (skipDigits k o.radices) }

/-- Steps to the next combination. -/
def advance (o : Odometer) : Odometer :=
  o.skipPast 0

end Odometer

end MarkovLogic
