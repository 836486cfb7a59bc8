/-
MarkovLogic/Decimal/Rounding.lean

Exact values of floating point numbers and rounding back to them.

A finite floating point number is `mantissa * 2 ^ exponent` up to its sign.
In the other direction a quotient of natural numbers is rounded to the
nearest floating point number, a half going to the even neighbour.  Both
directions are exact arithmetic on natural numbers; only the last step packs
the result into 64 bits.
-/
namespace MarkovLogic.Decimal

/-- The absolute value of a finite floating point number as
`mantissa * 2 ^ exponent`. -/
structure Binary where
  mantissa : Nat
  exponent : Int
deriving Repr, DecidableEq

/-- Whether the sign bit is set; it can be set on a zero. -/
def isNegative (x : Float) : Bool :=
  x.toBits &&& 0x8000000000000000 != 0

/-- The exact absolute value of a finite number. -/
def Binary.ofFloat (x : Float) : Binary :=
  let bits : Nat := x.toBits.toNat
  let fraction : Nat := bits % Nat.pow 2 52
  let field : Nat := bits / Nat.pow 2 52 % Nat.pow 2 11
  if field = 0 then ⟨fraction, -1074⟩ else ⟨Nat.pow 2 52 + fraction, (field : Int) - 1075⟩

/-- The value as a quotient of natural numbers. -/
def Binary.toQuotient (b : Binary) : Nat × Nat :=
  (b.mantissa * Nat.pow 2 b.exponent.toNat, Nat.pow 2 (-b.exponent).toNat)

/-- The integer nearest to `num / den`, a half going to the even neighbour. -/
def roundQuotient (num den : Nat) : Nat :=
  let q := num / den
  let r := num % den
  if 2 * r < den then q
  else if den < 2 * r then q + 1
  else if q % 2 = 0 then q else q + 1

/-- The exponent at which `num / den` has a mantissa of 53 bits, but never
below the least exponent. -/
def mantissaExponent (num den : Nat) : Int :=
  let guess : Int := (num.log2 : Int) - (den.log2 : Int) - 52
  -- The quotient of the two leading powers is off by at most one.
  let small := num * Nat.pow 2 (-guess).toNat < Nat.pow 2 52 * (den * Nat.pow 2 guess.toNat)
  max (-1074) (if small then guess - 1 else guess)

/-- The floating point number nearest to `num / den`; past the largest one it
is infinite. -/
def nearestFloat (negative : Bool) (num den : Nat) : Float :=
  let e := mantissaExponent num den
  let mantissa := roundQuotient (num * Nat.pow 2 (-e).toNat) (den * Nat.pow 2 e.toNat)
  -- A carry into the next power of two is the next exponent with a zero fraction.
  let packed := (e + 1074).toNat * Nat.pow 2 52 + mantissa
  let magnitude := if num = 0 then 0 else min packed 0x7FF0000000000000
  Float.ofBits (UInt64.ofNat (if negative then magnitude + Nat.pow 2 63 else magnitude))

/-- The floating point number nearest to `digits * 10 ^ power`.  Powers far
outside the range are settled without computing them. -/
def ofScientific (negative : Bool) (digits : Nat) (power : Int) : Float :=
  let width : Int := digits.log2 / 3 + 1
  if digits = 0 ∨ power + width < -400 then nearestFloat negative 0 1
  else if power > 400 then nearestFloat negative (Nat.pow 10 400) 1
  else nearestFloat negative (digits * Nat.pow 10 power.toNat) (Nat.pow 10 (-power).toNat)

end MarkovLogic.Decimal
