/-!
# Blanks and words

The blank characters are those with the property White_Space. Words are the
longest stretches without one; trimming removes blanks at both ends and leaves
those between words.
-/

namespace Saddle.Text

/-- The code points of the blank characters, as ranges with both ends included. -/
def blankRanges : List (Nat × Nat) := [
  (0x9, 0xd), (0x20, 0x20), (0x85, 0x85), (0xa0, 0xa0), (0x1680, 0x1680), (0x2000, 0x200a),
  (0x2028, 0x2029), (0x202f, 0x202f), (0x205f, 0x205f), (0x3000, 0x3000)]

/-- Whether a character is blank. -/
def isBlank (c : Char) : Bool :=
  blankRanges.any fun (first, last) => first ≤ c.toNat && c.toNat ≤ last

/-- A text without the blanks at its ends. -/
def trim (cs : List Char) : List Char :=
  ((cs.dropWhile isBlank).reverse.dropWhile isBlank).reverse

/-- The words behind some place of a text. -/
structure Words where
  /-- Whether the first word begins at that place. -/
  adjacent : Bool := false
  /-- The words, in order. -/
  words : List (List Char) := []

/-- The words behind the place in front of `c`. -/
def Words.add (c : Char) (s : Words) : Words :=
  if isBlank c then { s with adjacent := false }
  else
    match s.adjacent, s.words with
    | true, word :: rest => ⟨true, (c :: word) :: rest⟩
    | _, words => ⟨true, [c] :: words⟩

/-- The words of a text, in order. -/
def words (cs : List Char) : List (List Char) := (cs.foldr Words.add {}).words

end Saddle.Text
