/-!
# Decimal digits

Reading digits as a number and counting the digits of one. A number is read from
its most significant digit on; zero has no digits of its own.
-/

namespace Saddle.Decimal

/-- The value of a digit from `0` to `9`. -/
def digit? (c : Char) : Option Nat :=
  if '0' ≤ c ∧ c ≤ '9' then some (c.toNat - '0'.toNat) else none

/-- Whether a character is a digit from `0` to `9`. -/
def isDigit (c : Char) : Bool := (digit? c).isSome

/-- The number that goes on from `n` with the given digits. -/
def append (n : Nat) (digits : List Nat) : Nat := digits.foldl (fun n d => 10 * n + d) n

/-- The digits in front of a text, and the rest of it. -/
def leadingDigits (cs : List Char) : List Nat × List Char :=
  ((cs.takeWhile isDigit).filterMap digit?, cs.dropWhile isDigit)

/-- How many digits a number has. -/
def digitCount (n : Nat) : Nat := if n = 0 then 0 else digitCount (n / 10) + 1

end Saddle.Decimal
