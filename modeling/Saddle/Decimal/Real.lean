import Saddle.Decimal.Digits
import Saddle.Decimal.Double

/-!
# Real numbers in decimal notation

A literal consists of digits, which may contain a point, and of an exponent, which
may be left out. Its value is an integer times a power of ten, and what is read is
the double nearest to it. The words for infinity and for an undefined result are
read too, in letters of either case.
-/

namespace Saddle.Decimal

/-- The number `significand * 10 ^ exponent`. -/
structure Numeral where
  /-- The digits, read as an integer. -/
  significand : Nat
  /-- The power of ten they are multiplied with. -/
  exponent : Int
deriving Repr, BEq, DecidableEq

/-- The double with the given sign nearest to a numeral. A numeral that is certainly above the
largest double, or below half the smallest one, is not written out: the bounds follow from
`8 ^ e ≤ 10 ^ e`. -/
def Numeral.nearest (negative : Bool) (x : Numeral) : Float :=
  let size : Int := Nat.log2 x.significand + 3 * x.exponent
  if x.significand = 0 then Decimal.nearest negative 0 1
  else if 0 < x.exponent ∧ 1024 ≤ size then Decimal.nearest negative (Nat.pow 2 1024) 1
  else if x.exponent < 0 ∧ size < minExponent - 1 then Decimal.nearest negative 0 1
  else
    let (num, den) := shift 10 x.exponent x.significand 1
    Decimal.nearest negative num den

/-- Splits a text into its sign, which is negative for a minus sign only, and the rest. -/
def splitSign (cs : List Char) : Bool × List Char :=
  match cs with
  | '-' :: rest => (true, rest)
  | '+' :: rest => (false, rest)
  | _ => (false, cs)

/-- Reads what may follow the digits: nothing, or an exponent to the end of the text. -/
def readExponent (cs : List Char) : Option Int :=
  match cs with
  | [] => some 0
  | mark :: rest =>
      let (negative, rest) := splitSign rest
      let (digits, rest) := leadingDigits rest
      if (mark = 'e' ∨ mark = 'E') ∧ digits ≠ [] ∧ rest = [] then
        let exponent : Int := append 0 digits
        some (if negative then -exponent else exponent)
      else none

/-- Reads digits with at most one point, which at least one digit stands beside, and an
exponent. -/
def readNumeral (cs : List Char) : Option Numeral :=
  let (whole, rest) := leadingDigits cs
  let (fraction, rest) :=
    match rest with
    | '.' :: rest => leadingDigits rest
    | _ => ([], rest)
  if whole = [] ∧ fraction = [] then none
  else
    (readExponent rest).map fun exponent =>
      ⟨append 0 (whole ++ fraction), exponent - fraction.length⟩

/-- Reads a real number without its sign. -/
def readMagnitude (negative : Bool) (cs : List Char) : Option Float :=
  let lower := cs.map Char.toLower
  if lower = "inf".toList ∨ lower = "infinity".toList then
    some (nearest negative (Nat.pow 2 1024) 1)
  else if lower = "nan".toList then some (0.0 / 0.0)
  else (readNumeral cs).map (Numeral.nearest negative)

/-- Reads a real number. -/
def readReal (cs : List Char) : Option Float :=
  let (negative, rest) := splitSign cs
  readMagnitude negative rest

/-- What is reported of a text that is not a real number. -/
def realErrorMessage : String := "invalid float literal"

end Saddle.Decimal
