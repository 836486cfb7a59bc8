/-
MarkovLogic/Decimal/Shortest.lean

The fewest decimal digits that read back as a given number.

The reals that round to `mantissa * 2 ^ exponent` form an interval around it
whose ends belong to it exactly when the mantissa is even.  For one digit,
two digits, and so on, the two neighbours of the value on the grid of that
many digits are tried; the first grid with a neighbour inside the interval
wins, and of two neighbours inside, the nearer one.  Where both are equally
near, the format that is written decides.  Seventeen digits always suffice.
-/
import MarkovLogic.Decimal.Rounding

namespace MarkovLogic.Decimal

/-- The digits of a positive decimal `0.d₁d₂d₃… * 10 ^ point`, with no zero at
either end. -/
structure Digits where
  digits : List Char
  point : Int
deriving Repr, DecidableEq

/-- The interval of reals that round to a number, in units of a quarter of
its last binary place: its value, its lower end and its upper end. -/
structure RoundingInterval where
  value : Nat
  lower : Nat
  upper : Nat
  closed : Bool
  exponent : Int

/-- The interval of a positive number.  Below a power of two the numbers lie
twice as dense, so there the lower half is half as wide. -/
def Binary.interval (b : Binary) : RoundingInterval where
  value := 4 * b.mantissa
  lower := if b.mantissa = Nat.pow 2 52 ∧ -1074 < b.exponent then 4 * b.mantissa - 1
    else 4 * b.mantissa - 2
  upper := 4 * b.mantissa + 2
  closed := b.mantissa % 2 == 0
  exponent := b.exponent - 2

/-- The place of the decimal point: the least `p` with `value < 10 ^ p`. -/
def Binary.point (b : Binary) : Int :=
  let (num, den) := b.toQuotient
  let whole := num / den
  if 0 < whole then (Nat.toDigits 10 whole).length
  else
    match (List.range 400).find? fun j => den ≤ num * Nat.pow 10 (j + 1) with
    | some j => -(j : Int)
    | none => 0

/-- What becomes of a number halfway between two neighbours. -/
inductive Tie where
  /-- It goes to the even neighbour. -/
  | toEven
  /-- It goes to the neighbour that is farther from zero. -/
  | away
deriving Repr, DecidableEq

/-- The neighbour on the grid `10 ^ place` that rounds back, if one does. -/
def RoundingInterval.onGrid (tie : Tie) (i : RoundingInterval) (place : Int) : Option Nat :=
  let scale := Nat.pow 2 i.exponent.toNat * Nat.pow 10 (-place).toNat
  let unit := Nat.pow 2 (-i.exponent).toNat * Nat.pow 10 place.toNat
  let value := i.value * scale
  let inside (d : Nat) : Bool :=
    let spot := d * unit
    if i.closed then i.lower * scale ≤ spot && spot ≤ i.upper * scale
    else i.lower * scale < spot && spot < i.upper * scale
  let below := value / unit
  match inside below, inside (below + 1) with
  | true, true =>
    let r := value % unit
    if 2 * r < unit then some below
    else if unit < 2 * r then some (below + 1)
    else some (if tie = .toEven ∧ below % 2 = 0 then below else below + 1)
  | true, false => some below
  | false, true => some (below + 1)
  | false, false => none

/-- Packs a grid point into digits without zeros at the end. -/
def Digits.ofGrid (d : Nat) (place : Int) : Digits :=
  let all := Nat.toDigits 10 d
  ⟨(all.reverse.dropWhile (· == '0')).reverse, place + all.length⟩

/-- The shortest digits of the absolute value of a finite number; a zero has
no digits. -/
def shortest (tie : Tie) (x : Float) : Digits :=
  let b := Binary.ofFloat x
  if b.mantissa = 0 then ⟨[], 0⟩
  else
    let interval := b.interval
    let point := b.point
    let hit := (List.range 17).findSome? fun n =>
      let place := point - (n + 1 : Nat)
      (interval.onGrid tie place).map fun d => Digits.ofGrid d place
    hit.getD ⟨[], 0⟩

end MarkovLogic.Decimal
