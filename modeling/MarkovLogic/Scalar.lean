/-
MarkovLogic/Scalar.lean

The numbers that weights, costs and linear programs are made of.

Everything numerical in the library is written over an arbitrary type with
the operations of `Scalar`.  The programs run it on `Float`, where addition
rounds and a sum of two infinities can be no number at all; a theory of the
same definitions can read them over an ordered field, where arithmetic is
exact.  The class therefore carries operations only, and no laws: the laws
belong to the type one reads the definitions over.
-/
namespace MarkovLogic

/-- The operations that grounding, search and linear programming ask of
their numbers.  Comparisons are decidable propositions, and `==` is
numerical equality, which on `Float` identifies the two zeros and separates
a NaN from itself. -/
class Scalar (α : Type) extends Zero α, One α, Add α, Sub α, Mul α, Div α, Neg α, LT α, LE α,
    BEq α, OfScientific α where
  /-- Strict comparison is decidable. -/
  decidableLT : DecidableLT α
  /-- Comparison is decidable. -/
  decidableLE : DecidableLE α
  /-- The absolute value. -/
  abs : α → α
  /-- The scalar nearest to an integer. -/
  ofInt : Int → α
  /-- Whether the value is not a number. -/
  isNaN : α → Bool
  /-- Whether the value is a number and not infinite. -/
  isFinite : α → Bool
  /-- The integer part, `0` below zero, and at most `2 ^ 64 - 1`. -/
  truncate : α → Nat
  /-- A total order that refines `<`, used to pick a least element. -/
  order : α → α → Ordering

namespace Scalar

variable {α : Type} [Scalar α]

instance : DecidableLT α := decidableLT

instance : DecidableLE α := decidableLE

/-- A hard weight: infinite, of either sign. -/
def isInfinite (x : α) : Bool :=
  !isNaN x && !isFinite x

/-- The scalar nearest to a natural number. -/
def ofNat (n : Nat) : α :=
  ofInt n

/-- The sum of a list, added up from the left. -/
def sum (xs : List α) : α :=
  xs.foldl (· + ·) 0

/-- The larger of a value and zero; zero also stands in for a NaN. -/
def atLeastZero (x : α) : α :=
  if 0 < x then x else 0

end Scalar

/-! ### Floating point -/

/-- A key whose order as an unsigned integer is the total order of floating
point numbers: negative numbers before positive ones, the zeros apart, and a
NaN last. -/
def floatKey (x : Float) : UInt64 :=
  let bits := x.toBits
  if bits &&& 0x8000000000000000 == 0 then bits ||| 0x8000000000000000 else ~~~ bits

instance : Scalar Float where
  zero := 0.0
  one := 1.0
  add a b := a + b
  sub a b := a - b
  mul a b := a * b
  div a b := a / b
  neg a := -a
  lt a b := a < b
  le a b := a ≤ b
  beq a b := a == b
  ofScientific := OfScientific.ofScientific
  decidableLT a b := inferInstanceAs (Decidable (a < b))
  decidableLE a b := inferInstanceAs (Decidable (a ≤ b))
  abs := Float.abs
  ofInt := Float.ofInt
  isNaN := Float.isNaN
  isFinite := Float.isFinite
  truncate x := x.toUInt64.toNat
  order a b := compare (floatKey a) (floatKey b)

end MarkovLogic
