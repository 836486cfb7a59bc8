/-
MarkovLogic/Decimal/Reading.lean

Reading numbers from text.

Whole numbers are decimal digits with an optional sign and have to fit their
range.  A real number is an optional sign followed by digits with an optional
point and an optional exponent, or by one of the words `inf`, `infinity` and
`nan` in any mixture of small and capital letters.  Nothing else is a number:
no blanks, no separators between digits, no other bases.
-/
import MarkovLogic.Decimal.Rounding

namespace MarkovLogic.Decimal

/-- The value of a string of decimal digits. -/
def digitsValue (ds : List Char) : Nat :=
  ds.foldl (fun acc c => 10 * acc + (c.toNat - 48)) 0

/-- The value of a non-empty text of digits and nothing else. -/
def readDigits? (cs : List Char) : Option Nat :=
  if cs ≠ [] ∧ cs.all Char.isDigit then some (digitsValue cs) else none

/-- Reads a natural number below `2 ^ 64`, with an optional plus sign. -/
def readNat? (cs : List Char) : Option Nat :=
  let digits := match cs with
    | '+' :: rest => rest
    | _ => cs
  (readDigits? digits).filter (· < Nat.pow 2 64)

/-- Reads an integer of 64 bits, with an optional sign. -/
def readInt? (cs : List Char) : Option Int :=
  let value : Option Int := match cs with
    | '+' :: rest => (readDigits? rest).map Int.ofNat
    | '-' :: rest => (readDigits? rest).map fun n => -(n : Int)
    | _ => (readDigits? cs).map Int.ofNat
  value.filter fun n => -(Nat.pow 2 63 : Nat) ≤ n ∧ n < (Nat.pow 2 63 : Nat)

/-- Reads a signed exponent of any size. -/
def readExponent? (cs : List Char) : Option Int :=
  match cs with
  | '+' :: rest => (readDigits? rest).map Int.ofNat
  | '-' :: rest => (readDigits? rest).map fun n => -(n : Int)
  | _ => (readDigits? cs).map Int.ofNat

/-- The digits before the point, the digits after it, and the exponent. -/
structure Numeral where
  whole : List Char
  fraction : List Char
  exponent : Int
deriving Repr, DecidableEq

/-- Reads an unsigned decimal numeral.  The digits on one side of the point
may be missing, but not on both. -/
def readNumeral? (cs : List Char) : Option Numeral := do
  let whole := cs.takeWhile Char.isDigit
  let afterWhole := cs.dropWhile Char.isDigit
  let (fraction, afterFraction) := match afterWhole with
    | '.' :: rest => (rest.takeWhile Char.isDigit, rest.dropWhile Char.isDigit)
    | rest => ([], rest)
  guard (whole ≠ [] ∨ fraction ≠ [])
  match afterFraction with
  | [] => some ⟨whole, fraction, 0⟩
  | mark :: rest =>
    guard (mark = 'e' ∨ mark = 'E')
    let exponent ← readExponent? rest
    some ⟨whole, fraction, exponent⟩

/-- The floating point number nearest to a numeral. -/
def Numeral.toFloat (negative : Bool) (n : Numeral) : Float :=
  ofScientific negative (digitsValue (n.whole ++ n.fraction)) (n.exponent - n.fraction.length)

/-- The text without its sign, and whether the sign is a minus. -/
def takeSign : List Char → Bool × List Char
  | '-' :: rest => (true, rest)
  | '+' :: rest => (false, rest)
  | rest => (false, rest)

/-- Reads a real number. -/
def readFloat? (cs : List Char) : Option Float :=
  let (negative, rest) := takeSign cs
  let signed (x : Float) := if negative then -x else x
  match String.ofList (rest.map Char.toLower) with
  | "inf" => some (signed (1.0 / 0.0))
  | "infinity" => some (signed (1.0 / 0.0))
  | "nan" => some (0.0 / 0.0)
  | _ => (readNumeral? rest).map (Numeral.toFloat negative)

end MarkovLogic.Decimal
