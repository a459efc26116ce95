import Saddle.Decimal.Real

/-!
# The tokens of a JSON text

A text is cut into brackets, separators, the three words, strings and numbers. White
space between tokens is a space, a tab, a carriage return or a newline. A string is
kept as the characters and code units it is written with, since a code unit may be
half of a surrogate pair without the other half: such a string is no text, but it
does no harm where nobody asks for its characters.
-/

namespace Saddle.Json

/-- A part of a string. -/
inductive Piece where
  /-- A character, written as it is or by a letter that stands for it. -/
  | char (c : Char)
  /-- A code unit of 16 bits, written as a number. -/
  | unit (code : Nat)
deriving Repr, BEq, DecidableEq

/-- A number as it is written. -/
structure Number where
  /-- Whether there is a minus sign. -/
  negative : Bool
  /-- The digits in front of the point. -/
  whole : List Nat
  /-- The digits behind the point. -/
  fraction : List Nat
  /-- The power of ten. -/
  exponent : Int
deriving Repr, BEq, DecidableEq

/-- A token. -/
inductive Token where
  | beginObject
  | endObject
  | beginArray
  | endArray
  | colon
  | comma
  | null
  | true
  | false
  | string (pieces : List Piece)
  | number (value : Number)
deriving Repr, BEq, DecidableEq

/-! ## Strings -/

/-- The value of a hexadecimal digit. -/
def hexDigit? (c : Char) : Option Nat :=
  if '0' ≤ c ∧ c ≤ '9' then some (c.toNat - '0'.toNat)
  else if 'a' ≤ c ∧ c ≤ 'f' then some (c.toNat - 'a'.toNat + 10)
  else if 'A' ≤ c ∧ c ≤ 'F' then some (c.toNat - 'A'.toNat + 10)
  else none

/-- The code unit that four hexadecimal digits stand for. -/
def codeUnit? (digits : List Char) : Option Piece :=
  (digits.mapM hexDigit?).map fun ds => .unit (ds.foldl (fun n d => 16 * n + d) 0)

/-- The character that a letter behind a backslash stands for. -/
def escaped? (c : Char) : Option Piece :=
  match c with
  | '"' | '\\' | '/' => some (.char c)
  | 'b' => some (.char '\x08')
  | 'f' => some (.char '\x0c')
  | 'n' => some (.char '\n')
  | 'r' => some (.char '\r')
  | 't' => some (.char '\t')
  | _ => none

/-- Reads the rest of a string, up to the quote that closes it. -/
def readPieces (pieces : Array Piece) : List Char → Option (List Piece × List Char)
  | [] => none
  | '"' :: rest => some (pieces.toList, rest)
  | '\\' :: 'u' :: a :: b :: c :: d :: rest =>
      match codeUnit? [a, b, c, d] with
      | some piece => readPieces (pieces.push piece) rest
      | none => none
  | '\\' :: c :: rest =>
      match escaped? c with
      | some piece => readPieces (pieces.push piece) rest
      | none => none
  | c :: rest => if c < ' ' then none else readPieces (pieces.push (.char c)) rest

/-- The characters of a string, if every half of a surrogate pair is followed by the other. -/
def decode : List Piece → Option (List Char)
  | [] => some []
  | .char c :: rest => (decode rest).map (c :: ·)
  | .unit high :: .unit low :: rest =>
      if high < 0xd800 ∨ 0xe000 ≤ high then (decode (.unit low :: rest)).map (.ofNat high :: ·)
      else if high < 0xdc00 ∧ 0xdc00 ≤ low ∧ low < 0xe000 then
        (decode rest).map (.ofNat (0x10000 + 0x400 * (high - 0xd800) + (low - 0xdc00)) :: ·)
      else none
  | .unit code :: rest =>
      if code < 0xd800 ∨ 0xe000 ≤ code then (decode rest).map (.ofNat code :: ·) else none

/-! ## Numbers -/

/-- Reads the digits behind a point, of which there has to be one, if there is a point. -/
def readFraction (cs : List Char) : Option (List Nat × List Char) :=
  match cs with
  | '.' :: rest =>
      let (digits, rest) := Decimal.leadingDigits rest
      if digits = [] then none else some (digits, rest)
  | _ => some ([], cs)

/-- Reads the digits of an exponent, of which there has to be one. -/
def readPower (cs : List Char) : Option (Int × List Char) :=
  let (negative, rest) := Decimal.splitSign cs
  let (digits, rest) := Decimal.leadingDigits rest
  let power : Int := Decimal.append 0 digits
  if digits = [] then none else some (if negative then -power else power, rest)

/-- Reads an exponent, if there is one. -/
def readExponent (cs : List Char) : Option (Int × List Char) :=
  match cs with
  | 'e' :: rest | 'E' :: rest => readPower rest
  | _ => some (0, cs)

/-- Reads a number without its sign. The digits in front of the point start with a zero only if it
is the only one. -/
def readUnsigned (negative : Bool) (cs : List Char) : Option (Token × List Char) := do
  let (whole, rest) := Decimal.leadingDigits cs
  if whole = [] ∨ (whole.head? = some 0 ∧ whole ≠ [0]) then none
  else
    let (fraction, rest) ← readFraction rest
    let (exponent, rest) ← readExponent rest
    return (.number ⟨negative, whole, fraction, exponent⟩, rest)

/-! ## Texts -/

/-- Whether a character may stand between tokens. -/
def isSpace (c : Char) : Bool := c == ' ' || c == '\t' || c == '\r' || c == '\n'

/-- Reads the token at the start of a text. -/
def readToken (cs : List Char) : Option (Token × List Char) :=
  match cs with
  | [] => none
  | '{' :: rest => some (.beginObject, rest)
  | '}' :: rest => some (.endObject, rest)
  | '[' :: rest => some (.beginArray, rest)
  | ']' :: rest => some (.endArray, rest)
  | ':' :: rest => some (.colon, rest)
  | ',' :: rest => some (.comma, rest)
  | 'n' :: 'u' :: 'l' :: 'l' :: rest => some (.null, rest)
  | 't' :: 'r' :: 'u' :: 'e' :: rest => some (.true, rest)
  | 'f' :: 'a' :: 'l' :: 's' :: 'e' :: rest => some (.false, rest)
  | '"' :: rest => (readPieces #[] rest).map fun (pieces, rest) => (.string pieces, rest)
  | '-' :: rest => readUnsigned Bool.true rest
  | _ => readUnsigned Bool.false cs

/-- Reads at most `fuel` tokens, and nothing else, from a text. -/
def readTokens : (fuel : Nat) → Array Token → List Char → Option (List Token)
  | 0, tokens, cs => if cs.all isSpace then some tokens.toList else none
  | fuel + 1, tokens, cs =>
      match cs.dropWhile isSpace with
      | [] => some tokens.toList
      | c :: rest =>
          match readToken (c :: rest) with
          | some (token, rest) => readTokens fuel (tokens.push token) rest
          | none => none

/-- The tokens of a text. A token takes at least one character. -/
def tokens (cs : List Char) : Option (List Token) := readTokens cs.length #[] cs

end Saddle.Json
