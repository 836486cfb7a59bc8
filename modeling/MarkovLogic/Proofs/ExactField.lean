/-
MarkovLogic/Proofs/ExactField.lean

The arithmetic of an ordered field.

Linear programs are made of finite numbers only: a variable without an upper
bound has none, instead of an infinite one.  So their theory needs no infinities
and reads the arithmetic of the library over any ordered field as it stands.
Nothing is rounded, every number is finite, and the comparisons are those of the
field.

The instance is scoped: it is there only where the namespace is opened.
-/
import Mathlib
import MarkovLogic.Scalar

namespace MarkovLogic.ExactField

variable {K : Type} [Field K] [LinearOrder K]

/-- The operations of the field. -/
scoped instance scalar : Scalar K where
  toZero := inferInstance
  toOne := inferInstance
  toAdd := inferInstance
  toSub := inferInstance
  toMul := inferInstance
  toDiv := inferInstance
  toNeg := inferInstance
  toLT := inferInstance
  toLE := inferInstance
  toBEq := inferInstance
  toOfScientific := inferInstance
  decidableLT := inferInstance
  decidableLE := inferInstance
  abs x := |x|
  ofInt n := n
  isNaN _ := false
  isFinite _ := true
  truncate x := Nat.findGreatest (fun n => (n : K) ≤ x) (2 ^ 64 - 1)
  order := compare

@[simp] theorem abs_eq (x : K) : Scalar.abs x = |x| := rfl

@[simp] theorem isNaN_eq (x : K) : Scalar.isNaN x = false := rfl

@[simp] theorem isFinite_eq (x : K) : Scalar.isFinite x = true := rfl

/-- Adding up from the left is the sum. -/
@[simp] theorem sum_eq (xs : List K) : Scalar.sum xs = xs.sum :=
  (List.sum_eq_foldl).symm

theorem atLeastZero_of_nonneg {x : K} (h : 0 ≤ x) : Scalar.atLeastZero x = x := by
  rw [Scalar.atLeastZero]
  split
  · rfl
  · exact le_antisymm h (not_lt.mp ‹_›)

end MarkovLogic.ExactField
