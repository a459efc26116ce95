import Saddle.Json.Token
import Saddle.Decimal.Integer

/-!
# Numbers as doubles

A number is converted in two roundings. Its digits are read as an integer of 64
bits: when one in front of the point does not fit, it and those up to the point
count as zeros; when one behind the point does not fit, it and the rest are
ignored. That integer is rounded to a double, which is then multiplied with or
divided by a power of ten, rounded to a double as well. A power beyond those that
doubles reach is divided by in steps. For all numbers of moderate length this is the
nearest double or one beside it, and integers that fit are exact up to one
rounding. A number that would be infinite is refused.
-/

namespace Saddle.Json

/-- Goes on from `n` with digits as long as they fit, and returns those that are left. -/
def takeFitting (n : Nat) : List Nat → Nat × List Nat
  | [] => (n, [])
  | d :: rest =>
      if maxSize < 10 * n + d then (n, d :: rest) else takeFitting (10 * n + d) rest

/-- The exponent of the largest power of ten that a double reaches. -/
def maxPower : Nat := 308

/-- The double nearest to a power of ten. -/
def powerOfTen (exponent : Nat) : Float := Decimal.nearest false (Nat.pow 10 exponent) 1

/-- Divides by a power of ten. -/
def divideByPower (x : Float) (exponent : Nat) : Float :=
  if exponent ≤ maxPower then x / powerOfTen exponent
  else if x == 0.0 then x
  else divideByPower (x / powerOfTen maxPower) (exponent - maxPower)
termination_by exponent
decreasing_by simp only [maxPower] at *; omega

/-- Multiplies with a power of ten, unless that leads beyond the largest double. -/
def multiplyByPower (x : Float) (exponent : Nat) : Option Float :=
  if exponent ≤ maxPower then
    let product := x * powerOfTen exponent
    if product.isInf then none else some product
  else if x == 0.0 then some x
  else none

/-- Multiplies with a power of ten, whose exponent may be negative. -/
def scale (x : Float) (exponent : Int) : Option Float :=
  if 0 ≤ exponent then multiplyByPower x exponent.toNat
  else some (divideByPower x (-exponent).toNat)

/-- The double that a number stands for. -/
def Number.toFloat? (x : Number) : Option Float :=
  let (significand, zeros) := takeFitting 0 x.whole
  let (significand, ignored) := takeFitting significand x.fraction
  let exponent := x.exponent + zeros.length + ignored.length - x.fraction.length
  (scale (Decimal.nearest false significand 1) exponent).map fun y =>
    if x.negative then -y else y

end Saddle.Json
