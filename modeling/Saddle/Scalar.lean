/-!
# The numbers the solver computes with

Every kernel of the library is written once, over a type with the arithmetic
operations and the few tests that steer control flow: is this pivot zero, is it
positive, is this setting finite. No law is assumed. What a kernel does to its
arrays, and in which order it combines their entries, can therefore be stated
for any reading of the operations: the double precision one that runs, in which
each operation rounds on its own, or the exact one of an ordered field, in which
the kernels compute what linear algebra says they should.
-/

namespace Saddle

/-- Arithmetic, together with the tests the algorithms branch on. -/
class Scalar (α : Type) extends Zero α, One α, Add α, Sub α, Neg α, Mul α, Div α where
  /-- Whether a number equals zero, of either sign. -/
  isZero : α → Bool
  /-- Whether a number is greater than zero. -/
  isPositive : α → Bool
  /-- Whether a number is neither infinite nor undefined. -/
  isFinite : α → Bool
  /-- The number nearest to a count. -/
  ofNat : Nat → α
  /-- The absolute value. -/
  abs : α → α
  /-- The larger of two numbers, or the one that is defined. -/
  larger : α → α → α

/-- Double precision: each operation is rounded to nearest, ties to even. -/
instance : Scalar Float where
  zero := 0.0
  one := 1.0
  isZero x := x == 0.0
  isPositive x := 0.0 < x
  isFinite x := x.isFinite
  ofNat n := n.toFloat
  abs x := x.abs
  larger x y := if x.isNaN then y else if y.isNaN then x else if x < y then y else x

end Saddle
