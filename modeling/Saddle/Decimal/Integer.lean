import Saddle.Access
import Saddle.Decimal.Digits

/-!
# Integers of limited size

An integer is read digit by digit, and the first character that cannot be taken
decides what is reported: one that is no digit, or one that carries the number out
of its range. A sign has to be followed by something. Natural numbers may have a
plus sign; a minus sign in front of one counts as a character that is no digit.
-/

namespace Saddle.Decimal

/-- Why a text is not an integer of the range asked for. -/
inductive IntegerError where
  /-- A character is no digit, or there is no digit at all. -/
  | invalidDigit
  /-- The number is above its range. -/
  | tooLarge
  /-- The number is below its range. -/
  | tooSmall
deriving Repr, BEq, DecidableEq

/-- What is reported of a text that is not such an integer. -/
def IntegerError.message : IntegerError → String
  | .invalidDigit => "invalid digit found in string"
  | .tooLarge => "number too large to fit in target type"
  | .tooSmall => "number too small to fit in target type"

/-- Goes on from `n` with the digits of a text, as long as the number is at most `limit`. Beyond
it the outcome is `excess`. -/
def readOn (limit : Nat) (excess : IntegerError) : Nat → List Char → Except IntegerError Nat
  | n, [] => .ok n
  | n, c :: rest =>
      match digit? c with
      | none => .error .invalidDigit
      | some d =>
          if limit < 10 * n + d then .error excess else readOn limit excess (10 * n + d) rest

/-- Reads a number that has at least one digit and is at most `limit`. -/
def readDigits (limit : Nat) (excess : IntegerError) (cs : List Char) : Except IntegerError Nat :=
  if cs.isEmpty then .error .invalidDigit else readOn limit excess 0 cs

/-- Reads a size or an index. -/
def readNat (cs : List Char) : Except IntegerError Nat :=
  match cs with
  | '+' :: rest => readDigits maxSize .tooLarge rest
  | _ => readDigits maxSize .tooLarge cs

/-- Reads an integer of 64 bits, one of which is its sign. -/
def readInt (cs : List Char) : Except IntegerError Int :=
  match cs with
  | '-' :: rest => (readDigits (Nat.pow 2 63) .tooSmall rest).map fun n => -(n : Int)
  | '+' :: rest => (readDigits (Nat.pow 2 63 - 1) .tooLarge rest).map Int.ofNat
  | _ => (readDigits (Nat.pow 2 63 - 1) .tooLarge cs).map Int.ofNat

end Saddle.Decimal
