/-
MarkovLogic/Decimal/Layout.lean

Writing numbers down.

Two forms are in use: the shortest digits that read back, laid out by the
rules of the format that is written, and a fixed number of places after the
point.  What differs between formats is kept in one record, `Layout`; the
digits themselves are those of `shortest`.
-/
import MarkovLogic.Decimal.Shortest

namespace MarkovLogic.Decimal

/-- The choices a format makes for its numbers. -/
structure Layout where
  /-- Whether a whole number is written with `.0`. -/
  keepPoint : Bool
  /-- The places of the point for which no exponent is written; without them
  an exponent is never written. -/
  plain : Option (Int × Int)
  /-- Which digits are written where two choices are equally near. -/
  tie : Tie
  /-- The text of a NaN. -/
  nan : String
  /-- The text of positive infinity. -/
  infinity : String
  /-- The text of negative infinity. -/
  negativeInfinity : String

/-- Numbers in messages and formulas: never an exponent, and a whole number
stands without a point. -/
def Layout.message : Layout := ⟨false, none, .away, "NaN", "inf", "-inf"⟩

/-- Numbers in configuration files: never an exponent, always a point. -/
def Layout.setting : Layout := ⟨true, none, .away, "nan", "inf", "-inf"⟩

/-- Numbers in result documents: plain from `0.00001` up to `10 ^ 16`, with an
exponent outside, and nothing at all for what is not finite. -/
def Layout.result : Layout := ⟨true, some (-4, 16), .toEven, "null", "null", "null"⟩

/-- Lays digits out without an exponent. -/
def Digits.plainText (d : Digits) (keepPoint : Bool) : String :=
  let zeros (n : Int) := List.replicate n.toNat '0'
  let whole := if d.point ≤ 0 then ['0'] else
    d.digits.take d.point.toNat ++ zeros (d.point - d.digits.length)
  let fraction := zeros (-d.point) ++ d.digits.drop d.point.toNat
  String.ofList <|
    if fraction.isEmpty then whole ++ (if keepPoint then ['.', '0'] else [])
    else whole ++ '.' :: fraction

/-- Lays digits out with one digit before the point and a signed exponent. -/
def Digits.exponentText (d : Digits) : String :=
  let exponent := d.point - 1
  let fraction := d.digits.drop 1
  String.ofList (d.digits.take 1 ++ (if fraction.isEmpty then [] else '.' :: fraction)) ++
    (if exponent < 0 then "e-" else "e+") ++ toString exponent.natAbs

/-- Writes a number by the rules of a format. -/
def Layout.print (l : Layout) (x : Float) : String :=
  if x.isNaN then l.nan
  else if x.isInf then (if x < 0 then l.negativeInfinity else l.infinity)
  else
    let d := shortest l.tie x
    let d := if d.digits.isEmpty then ⟨[], 0⟩ else d
    let text := match l.plain with
      | none => d.plainText l.keepPoint
      | some (least, most) =>
        if d.digits.isEmpty ∨ (least ≤ d.point ∧ d.point ≤ most) then d.plainText l.keepPoint
        else d.exponentText
    if isNegative x then "-" ++ text else text

/-- Writes a number with a fixed number of places after the point, rounding
its exact value and sending a half to the even neighbour. -/
def fixedPlaces (places : Nat) (x : Float) : String :=
  if x.isNaN ∨ x.isInf then Layout.message.print x
  else
    let (num, den) := (Binary.ofFloat x).toQuotient
    let scaled := roundQuotient (num * Nat.pow 10 places) den
    let fraction := Nat.toDigits 10 (scaled % Nat.pow 10 places)
    let filled := List.replicate (places - fraction.length) '0' ++ fraction
    (if isNegative x then "-" else "") ++ toString (scaled / Nat.pow 10 places) ++ "." ++
      String.ofList filled

end MarkovLogic.Decimal
