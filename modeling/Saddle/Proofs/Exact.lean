import Mathlib.Algebra.Order.Field.Basic
import Mathlib.Algebra.Order.Field.Rat
import Mathlib.Algebra.Order.Ring.Abs
import Saddle.Scalar

/-!
# Exact arithmetic

No law of the operations is assumed in the kernels, and none holds of rounded
ones beyond those of the single operation. What the kernels compute is stated
for the exact reading: the operations are those of a field, and the tests that
steer control flow answer what their names say. Where signs matter the field is
ordered, and every number is finite.

The rationals are such a reading, and one that runs.
-/

namespace Saddle

/-- The operations are those of a commutative ring. -/
class RingScalar (α : Type) extends CommRing α, Scalar α

/-- The operations are those of a field. -/
class FieldScalar (α : Type) extends Field α, Scalar α where
  isZero_iff : ∀ x : α, Scalar.isZero x = true ↔ x = 0

instance (priority := low) {α : Type} [FieldScalar α] : RingScalar α where

/-- The operations are those of an ordered field. -/
class OrderedScalar (α : Type) extends FieldScalar α, LinearOrder α, IsStrictOrderedRing α where
  isPositive_iff : ∀ x : α, Scalar.isPositive x = true ↔ 0 < x
  isFinite_eq : ∀ x : α, Scalar.isFinite x = true

/-- So are the functions by which vectors are measured. -/
class MeasuredScalar (α : Type) extends OrderedScalar α where
  abs_eq : ∀ x : α, Scalar.abs x = |x|
  larger_eq : ∀ x y : α, Scalar.larger x y = max x y

instance : MeasuredScalar ℚ where
  isZero x := decide (x = 0)
  isPositive x := decide (0 < x)
  isFinite _ := true
  ofNat n := n
  abs x := |x|
  larger x y := max x y
  isZero_iff _ := decide_eq_true_iff
  isPositive_iff _ := decide_eq_true_iff
  isFinite_eq _ := rfl
  abs_eq _ := rfl
  larger_eq _ _ := rfl

variable {α : Type}

theorem isZero_eq_true [FieldScalar α] {x : α} : Scalar.isZero x = true ↔ x = 0 :=
  FieldScalar.isZero_iff x

theorem isPositive_eq_true [OrderedScalar α] {x : α} : Scalar.isPositive x = true ↔ 0 < x :=
  OrderedScalar.isPositive_iff x

theorem abs_eq_abs [MeasuredScalar α] (x : α) : Scalar.abs x = |x| :=
  MeasuredScalar.abs_eq x

theorem larger_eq_max [MeasuredScalar α] (x y : α) : Scalar.larger x y = max x y :=
  MeasuredScalar.larger_eq x y

end Saddle
