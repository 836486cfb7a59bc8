/-
MarkovLogic/Decimal/Scaled.lean

Reading numerals by scaling.

A numeral is first cut to a whole number of 64 bits.  Digits are kept as long
as there is room for them; a digit left out before the point counts as a power
of ten, and one left out behind the point counts for nothing.  The whole number
is rounded to a floating point number, and that number is multiplied or divided
by the power of ten that the numeral asks for, itself rounded.

Every step rounds to nearest, but several of them follow one another, so the
result may miss the number nearest to the numeral by a unit in its last place,
and near the end of the range it may be out of range where that number is not,
or the other way round.  `Numeral.toFloat` gives the nearest number.
-/
import MarkovLogic.Decimal.Reading

namespace MarkovLogic.Decimal

/-- Appends decimal digits to a whole number as long as 64 bits hold it: the
number, and the digits from the first that found no room. -/
def keepDigits : Nat → List Char → Nat × List Char
  | n, [] => (n, [])
  | n, c :: cs =>
    let longer := 10 * n + (c.toNat - 48)
    if longer < Nat.pow 2 64 then keepDigits longer cs else (n, c :: cs)

/-- A whole number of 64 bits times a power of ten. -/
structure Scaled where
  significand : Nat
  power : Int
deriving Repr, DecidableEq

/-- Cuts a numeral to a whole number of 64 bits.  The digits behind the point
are tried again even if some before it were left out. -/
def Numeral.scaled (n : Numeral) : Scaled :=
  let (whole, left) := keepDigits 0 n.whole
  let (significand, lost) := keepDigits whole n.fraction
  ⟨significand, n.exponent + left.length - ((n.fraction.length : Int) - lost.length)⟩

/-- The number nearest to a power of ten. -/
def powerOfTen (n : Nat) : Float :=
  nearestFloat false (Nat.pow 10 n) 1

/-- Multiplies or divides by a power of ten.  The largest power of ten is
`10 ^ 308`: a higher one is out of range for all but zero, and division by a
higher one goes by steps.  A product that overflows is out of range too. -/
def scaleBy? (x : Float) (power : Int) : Option Float :=
  if power < -308 then
    if x == 0 then some x else scaleBy? (x / powerOfTen 308) (power + 308)
  else if power < 0 then some (x / powerOfTen (-power).toNat)
  else if power ≤ 308 then
    let y := x * powerOfTen power.toNat
    if y.isInf then none else some y
  else if x == 0 then some x
  else none
termination_by (-power).toNat
decreasing_by omega

/-- The floating point number of a cut numeral, if it is in range. -/
def Scaled.toFloat? (negative : Bool) (s : Scaled) : Option Float :=
  let magnitude := scaleBy? (nearestFloat false s.significand 1) s.power
  magnitude.map fun x => if negative then -x else x

end MarkovLogic.Decimal
