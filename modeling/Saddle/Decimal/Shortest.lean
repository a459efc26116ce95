import Saddle.Decimal.Real

/-!
# Doubles in decimal notation

The digits shown of a double are as few as read back as the same double, and of
those with that few the nearest. All reals between the half-way points to the
neighbouring doubles read back as it, and the half-way points themselves do if its
mantissa is even. So the digits are found on the grids of the multiples of a power
of ten, from the coarsest one on: if a multiple lies between the half-way points,
then so does one of the two multiples that enclose the double.

Rounded to a given number of places, on the other hand, a double is shown as what
it exactly is, with a half going to the even digit.
-/

namespace Saddle.Decimal

/-- The reals that read back as a double `mantissa * 2 ^ exponent`: an interval. -/
structure Neighbourhood where
  /-- The lower end, in quarters of `2 ^ exponent`. -/
  low : Nat
  /-- The upper end, in quarters of `2 ^ exponent`. -/
  high : Nat
  /-- Whether the ends belong to it. -/
  closed : Bool
deriving Repr, BEq, DecidableEq

/-- The reals that read back as `mantissa * 2 ^ exponent`. The double below a power of two is only
half as far away as the one above. -/
def neighbourhood (mantissa : Nat) (exponent : Int) : Neighbourhood where
  low := 4 * mantissa - if mantissa = Nat.pow 2 52 ∧ minExponent < exponent then 1 else 2
  high := 4 * mantissa + 2
  closed := mantissa % 2 == 0

/-- Whether the fraction `num / den` lies in a neighbourhood. -/
def Neighbourhood.contains (s : Neighbourhood) (num den : Nat) : Bool :=
  if s.closed then s.low * den ≤ num && num ≤ s.high * den
  else s.low * den < num && num < s.high * den

/-- The exponent of the largest power of ten that is not above the fraction `num / den`. -/
def decimalExponent (num den : Nat) : Int :=
  if den ≤ num then digitCount (num / den) - 1 else -(digitCount ((den - 1) / num) : Int)

/-- The multiple of `10 ^ grid` nearest to `mantissa * 2 ^ exponent` that reads back as the same
double, if there is one. Of two equally near ones it is the larger. -/
def onGrid (mantissa : Nat) (exponent grid : Int) : Option Numeral :=
  let reads := neighbourhood mantissa exponent
  let (num, den) := shift 10 (-grid) (4 * mantissa) 1
  let (num, den) := shift 2 (exponent - 2) num den
  let below := num / den
  let isInside (multiple : Nat) : Bool :=
    let (n, d) := shift 10 grid multiple 1
    let (n, d) := shift 2 (2 - exponent) n d
    reads.contains n d
  if isInside below && (!isInside (below + 1) || 2 * (num % den) < den) then
    some ⟨below, grid⟩
  else if isInside (below + 1) then some ⟨below + 1, grid⟩
  else none

/-- The numeral without zeros at its end. -/
def stripZeros (significand : Nat) (exponent : Int) : Numeral :=
  if significand ≠ 0 ∧ significand % 10 = 0 then stripZeros (significand / 10) (exponent + 1)
  else ⟨significand, exponent⟩
termination_by significand

/-- The shortest numeral that reads back as `mantissa * 2 ^ exponent`, which is not zero. Seventeen
digits are enough for any double. -/
def shortest (mantissa : Nat) (exponent : Int) : Numeral :=
  let (num, den) := shift 2 exponent mantissa 1
  let top := decimalExponent num den
  match (List.range 17).findSome? fun (i : Nat) => onGrid mantissa exponent (top - i) with
  | some x => stripZeros x.significand x.exponent
  | none => ⟨0, 0⟩

/-- A numeral without an exponent. A point is written only where digits follow it. -/
def Numeral.plainText (x : Numeral) : String :=
  let digits := Nat.toDigits 10 x.significand
  if 0 ≤ x.exponent then
    .ofList (digits ++ List.replicate x.exponent.toNat '0')
  else
    let places := (-x.exponent).toNat
    let padded := List.replicate (places + 1 - digits.length) '0' ++ digits
    let (whole, fraction) := padded.splitAt (padded.length - places)
    .ofList (whole ++ '.' :: fraction)

/-- The sign that is written in front of a number. -/
def signText (x : Float) : String := if isNegative x then "-" else ""

/-- A double in the fewest digits that read back, without an exponent. -/
def plainText (x : Float) : String :=
  match magnitude x with
  | .undefined => "NaN"
  | .infinite => signText x ++ "inf"
  | .finite 0 _ => signText x ++ "0"
  | .finite mantissa exponent => signText x ++ (shortest mantissa exponent).plainText

/-- The fraction `num / den`, which is not zero, with `places` digits after the first one. -/
def roundToPlaces (places num den : Nat) : Numeral :=
  let grid := decimalExponent num den - places
  let (n, d) := shift 10 (-grid) num den
  let rounded := divToEven n d
  if rounded = Nat.pow 10 (places + 1) then ⟨Nat.pow 10 places, grid + 1⟩ else ⟨rounded, grid⟩

/-- A numeral with one digit in front of the point and an exponent. -/
def Numeral.scientificText (x : Numeral) : String :=
  let digits := Nat.toDigits 10 x.significand
  let (whole, fraction) := digits.splitAt 1
  let exponent := x.exponent + fraction.length
  .ofList (whole ++ '.' :: fraction) ++ s!"e{exponent}"

/-- A double rounded to one digit in front of the point and `places` behind it, of which there is
at least one, with an exponent. -/
def scientificText (places : Nat) (x : Float) : String :=
  match magnitude x with
  | .undefined => "NaN"
  | .infinite => signText x ++ "inf"
  | .finite 0 _ => signText x ++ "0." ++ .ofList (List.replicate places '0') ++ "e0"
  | .finite mantissa exponent =>
      let (num, den) := shift 2 exponent mantissa 1
      signText x ++ (roundToPlaces places num den).scientificText

end Saddle.Decimal
