import Saddle.Text.Printable

/-!
# Quoted texts

A text is quoted so that it takes one line and shows what it consists of: quotes
and backslashes are marked by a backslash, four control characters have a letter
or digit of their own, and every other character that is not printable is given by
the hexadecimal number of its code point.
-/

namespace Saddle.Text

/-- How a character is written inside quotes. -/
def escape (c : Char) : List Char :=
  match c with
  | '"' => ['\\', '"']
  | '\\' => ['\\', '\\']
  | '\t' => ['\\', 't']
  | '\r' => ['\\', 'r']
  | '\n' => ['\\', 'n']
  | '\x00' => ['\\', '0']
  | _ =>
      if isPrintable c then [c]
      else ['\\', 'u', '\x7b'] ++ Nat.toDigits 16 c.toNat ++ ['\x7d']

/-- A text in quotes. -/
def quoted (cs : List Char) : List Char := ['"'] ++ cs.flatMap escape ++ ['"']

end Saddle.Text
