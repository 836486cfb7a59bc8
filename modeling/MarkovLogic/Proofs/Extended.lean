/-
MarkovLogic/Proofs/Extended.lean

Exact numbers with infinities.

The theory reads the arithmetic of the library over an ordered field `K` to
which two infinities and a NaN are added.  On finite numbers the operations
are those of `K`, so nothing is rounded; beyond them they follow the rules of
IEEE arithmetic: opposite infinities do not add up to a number, zero times an
infinity is no number, and a NaN compares with nothing.  There is one zero.

Main statements: finite numbers are closed under the operations that costs
are made of (`finite_add`, `finite_mul` and so on), and a sum of finite
numbers is the sum in `K` (`sum_map_finite`).
-/
import Mathlib
import MarkovLogic.Scalar

namespace MarkovLogic

/-- An element of the field, an infinity or no number at all. -/
inductive Extended (K : Type) where
  | finite (x : K)
  | posInf
  | negInf
  | nan
deriving DecidableEq

namespace Extended

variable {K : Type}

/-! ### The operations -/

section Operations

variable [Field K] [LinearOrder K]

/-- The opposite number. -/
def neg : Extended K → Extended K
  | finite x => finite (-x)
  | posInf => negInf
  | negInf => posInf
  | nan => nan

/-- The sum; opposite infinities have none. -/
def add : Extended K → Extended K → Extended K
  | finite x, finite y => finite (x + y)
  | nan, _ => nan
  | _, nan => nan
  | posInf, negInf => nan
  | negInf, posInf => nan
  | posInf, _ => posInf
  | negInf, _ => negInf
  | finite _, posInf => posInf
  | finite _, negInf => negInf

/-- An infinity with the sign of a number; zero has none. -/
def infinityLike (x : K) : Extended K :=
  if 0 < x then posInf else if x < 0 then negInf else nan

/-- The product; zero and an infinity have none. -/
def mul : Extended K → Extended K → Extended K
  | finite x, finite y => finite (x * y)
  | nan, _ => nan
  | _, nan => nan
  | finite x, posInf => infinityLike x
  | finite x, negInf => (infinityLike x).neg
  | posInf, finite y => infinityLike y
  | negInf, finite y => (infinityLike y).neg
  | posInf, posInf => posInf
  | negInf, negInf => posInf
  | posInf, negInf => negInf
  | negInf, posInf => negInf

/-- The quotient; a number divided by zero is an infinity of its sign. -/
def div : Extended K → Extended K → Extended K
  | finite x, finite y => if y = 0 then infinityLike x else finite (x / y)
  | nan, _ => nan
  | _, nan => nan
  | finite _, _ => finite 0
  | posInf, finite y => if y < 0 then negInf else posInf
  | negInf, finite y => if y < 0 then posInf else negInf
  | _, _ => nan

/-- Whether the first number is less than the second. -/
def isLess : Extended K → Extended K → Bool
  | finite x, finite y => decide (x < y)
  | finite _, posInf => true
  | negInf, finite _ => true
  | negInf, posInf => true
  | _, _ => false

/-- Numerical equality, which no NaN has. -/
def isEqual : Extended K → Extended K → Bool
  | finite x, finite y => decide (x = y)
  | posInf, posInf => true
  | negInf, negInf => true
  | _, _ => false

/-- The absolute value. -/
def magnitude : Extended K → Extended K
  | finite x => finite |x|
  | posInf => posInf
  | negInf => posInf
  | nan => nan

/-- The total order, with a NaN last. -/
def totalOrder : Extended K → Extended K → Ordering
  | finite x, finite y => compare x y
  | a, b => if isLess a b then .lt else if isEqual a b then .eq else
    match a, b with
    | nan, nan => .eq
    | nan, _ => .gt
    | _, nan => .lt
    | _, _ => .gt

/-- The integer part, within 64 bits. -/
def wholePart [FloorRing K] : Extended K → Nat
  | finite x => min ⌊x⌋₊ (2 ^ 64 - 1)
  | posInf => 2 ^ 64 - 1
  | negInf => 0
  | nan => 0

instance [FloorRing K] : Scalar (Extended K) where
  zero := finite 0
  one := finite 1
  add := add
  sub a b := a.add b.neg
  mul := mul
  div := div
  neg := neg
  lt a b := isLess a b = true
  le a b := (isLess a b || isEqual a b) = true
  beq := isEqual
  ofScientific m s e := finite (OfScientific.ofScientific m s e)
  decidableLT _ _ := inferInstanceAs (Decidable (_ = true))
  decidableLE _ _ := inferInstanceAs (Decidable (_ = true))
  abs := magnitude
  ofInt n := finite n
  isNaN a := match a with
    | nan => true
    | _ => false
  isFinite a := match a with
    | finite _ => true
    | _ => false
  truncate := wholePart
  order := totalOrder

end Operations

/-- The field element of a finite number, and zero for the others. -/
def value [Zero K] : Extended K → K
  | finite x => x
  | _ => 0

/-! ### Finite numbers -/

section Finite

variable [Field K] [LinearOrder K] [FloorRing K]

omit [LinearOrder K] [FloorRing K] in
@[simp] theorem value_finite (x : K) : (finite x).value = x := rfl

@[simp] theorem zero_eq : (0 : Extended K) = finite 0 := rfl

@[simp] theorem one_eq : (1 : Extended K) = finite 1 := rfl

@[simp] theorem finite_add (x y : K) : (finite x + finite y : Extended K) = finite (x + y) := rfl

/-- Adding to zero changes nothing. -/
theorem zero_add_eq (x : Extended K) : 0 + x = x := by
  cases x with
  | finite x => rw [zero_eq, finite_add, zero_add]
  | posInf => rfl
  | negInf => rfl
  | nan => rfl

@[simp] theorem finite_sub (x y : K) :
    (finite x - finite y : Extended K) = finite (x - y) := by
  rw [sub_eq_add_neg]
  rfl

@[simp] theorem finite_mul (x y : K) : (finite x * finite y : Extended K) = finite (x * y) := rfl

@[simp] theorem abs_finite (x : K) : Scalar.abs (finite x) = finite |x| := rfl

@[simp] theorem ofInt_eq (n : Int) : (Scalar.ofInt n : Extended K) = finite (n : K) := rfl

@[simp] theorem ofNat_eq (n : Nat) : (Scalar.ofNat n : Extended K) = finite (n : K) := by
  rw [Scalar.ofNat, ofInt_eq, Int.cast_natCast]

@[simp] theorem finite_lt (x y : K) : (finite x < finite y : Prop) ↔ x < y :=
  decide_eq_true_iff

@[simp] theorem finite_le (x y : K) : (finite x ≤ finite y : Prop) ↔ x ≤ y := by
  show (isLess (finite x) (finite y) || isEqual (finite x) (finite y)) = true ↔ x ≤ y
  simp [isLess, isEqual, le_iff_lt_or_eq]

theorem le_of_lt {a b : Extended K} (h : a < b) : a ≤ b :=
  Bool.or_eq_true_iff.2 (.inl h)

/-- The order is transitive; a NaN is on neither side of it. -/
theorem le_trans {a b c : Extended K} (hab : a ≤ b) (hbc : b ≤ c) : a ≤ c := by
  cases a <;> cases b <;> cases c
  case finite.finite.finite x y z =>
    rw [finite_le] at hab hbc ⊢
    exact hab.trans hbc
  all_goals first | rfl | (cases hab; done) | cases hbc

@[simp] theorem neg_finite (x : K) : (-finite x : Extended K) = finite (-x) := rfl

@[simp] theorem isInfinite_finite (x : K) : Scalar.isInfinite (finite x) = false := rfl

@[simp] theorem isInfinite_posInf : Scalar.isInfinite (posInf : Extended K) = true := rfl

@[simp] theorem isInfinite_negInf : Scalar.isInfinite (negInf : Extended K) = true := rfl

@[simp] theorem negInf_lt_finite (x : K) : (negInf : Extended K) < finite x := rfl

@[simp] theorem not_posInf_lt (a : Extended K) : ¬ posInf < a := by
  intro h
  have hless : isLess posInf a = true := h
  cases a <;> cases hless

/-- A number is finite exactly if it is an element of the field. -/
theorem isFinite_iff {a : Extended K} : Scalar.isFinite a = true ↔ ∃ x, a = finite x := by
  cases a <;> simp [Scalar.isFinite]

/-- A sum of finite numbers is the sum in the field. -/
theorem foldl_add_finite (x : K) (xs : List K) :
    (xs.map finite).foldl (· + ·) (finite x) = (finite (x + xs.sum) : Extended K) := by
  induction xs generalizing x with
  | nil => simp
  | cons y ys ih =>
    rw [List.map_cons, List.foldl_cons, finite_add, ih, List.sum_cons, add_assoc]

theorem sum_map_finite (xs : List K) :
    Scalar.sum (xs.map finite) = (finite xs.sum : Extended K) := by
  rw [Scalar.sum, zero_eq, foldl_add_finite, zero_add]

end Finite

end Extended

end MarkovLogic
