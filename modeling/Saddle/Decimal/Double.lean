/-!
# Double precision numbers as integers times powers of two

A finite double is an integer of at most 53 bits times a power of two, and the
double nearest to a fraction is found by one division of integers, rounded to
nearest with ties to even. The exponent of the quotient is the largest one that
leaves it 53 bits, but not below that of the smallest double, so that small
numbers get fewer bits instead of a smaller exponent. A quotient that rounds up to
54 bits carries into the exponent, which is what the layout of the bits does by
itself.
-/

namespace Saddle.Decimal

/-- The absolute value of a double. -/
inductive Magnitude where
  /-- The number `mantissa * 2 ^ exponent`. -/
  | finite (mantissa : Nat) (exponent : Int)
  | infinite
  | undefined
deriving Repr, BEq, DecidableEq

/-- The exponent of the smallest double greater than zero. -/
def minExponent : Int := -1074

/-- Whether the sign bit of a double is set. -/
def isNegative (x : Float) : Bool := Nat.pow 2 63 ≤ x.toBits.toNat

/-- The absolute value of a double. -/
def magnitude (x : Float) : Magnitude :=
  let bits := x.toBits.toNat
  let exponent : Nat := bits / Nat.pow 2 52 % 2048
  let fraction := bits % Nat.pow 2 52
  if exponent = 2047 then if fraction = 0 then .infinite else .undefined
  else if exponent = 0 then .finite fraction minExponent
  else .finite (Nat.pow 2 52 + fraction) (minExponent + (exponent - 1 : Nat))

/-- The integer nearest to `num / den`, the even one if two are equally near. -/
def divToEven (num den : Nat) : Nat :=
  let quotient := num / den
  let twice := 2 * (num % den)
  if den < twice ∨ (twice = den ∧ quotient % 2 = 1) then quotient + 1 else quotient

/-- The fraction `num / den` times `base ^ exponent`, as a fraction. -/
def shift (base : Nat) (exponent : Int) (num den : Nat) : Nat × Nat :=
  if 0 ≤ exponent then (num * Nat.pow base exponent.toNat, den)
  else (num, den * Nat.pow base (-exponent).toNat)

/-- The largest power of two that is not above the fraction `num / den`, by its exponent. -/
def binaryExponent (num den : Nat) : Int :=
  let guess : Int := (Nat.log2 num : Int) - Nat.log2 den
  let (n, d) := shift 2 (-guess) num den
  if d ≤ n then guess else guess - 1

/-- The bits of infinity. -/
def infinityBits : Nat := 2047 * Nat.pow 2 52

/-- The bits of the double nearest to the fraction `num / den`. -/
def nearestBits (num den : Nat) : Nat :=
  if num = 0 then 0
  else
    let exponent := max (binaryExponent num den - 52) minExponent
    let (n, d) := shift 2 (-exponent) num den
    min ((exponent - minExponent).toNat * Nat.pow 2 52 + divToEven n d) infinityBits

/-- The double with the given sign nearest to the fraction `num / den`. Beyond the largest double
that is infinity. -/
def nearest (negative : Bool) (num den : Nat) : Float :=
  .ofBits (.ofNat ((if negative then Nat.pow 2 63 else 0) + nearestBits num den))

/-- The double nearest to an integer. -/
def nearestInt (n : Int) : Float := nearest (n < 0) n.natAbs 1

end Saddle.Decimal
