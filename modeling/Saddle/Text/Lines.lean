/-!
# Lines

A line ends at a newline character. A carriage return in front of the newline
belongs to the end of the line, and what follows the last newline is a line of its
own if it is not empty. A line whose bytes do not encode a text is still a line:
it is refused only when it is read.
-/

namespace Saddle.Text

/-- The lines behind some place of a file, as bytes. -/
structure Lines where
  /-- Whether the byte at that place ends a line. -/
  atNewline : Bool := false
  /-- The lines, in order; the place may be in the middle of the first one. -/
  lines : List (List UInt8) := []

/-- The byte that ends a line. -/
def newline : UInt8 := 10

/-- The byte that may stand in front of that one. -/
def carriageReturn : UInt8 := 13

/-- The lines behind the place in front of the byte `b`. -/
def Lines.add (b : UInt8) (s : Lines) : Lines :=
  if b = newline then ⟨true, [] :: s.lines⟩
  else if b = carriageReturn ∧ s.atNewline then { s with atNewline := false }
  else
    match s.lines with
    | [] => ⟨false, [[b]]⟩
    | line :: rest => ⟨false, (b :: line) :: rest⟩

/-- The lines of a file, each as a text if its bytes encode one. -/
def lines (bytes : List UInt8) : List (Option String) :=
  (bytes.foldr Lines.add {}).lines.map fun line => String.fromUTF8? ⟨line.toArray⟩

end Saddle.Text
