import Saddle.Market.Error
import Saddle.Sparse.Triplets
import Saddle.Text.Blank
import Saddle.Text.Lines

/-!
# Matrices from text files

A MatrixMarket file starts with a banner, which says what kind of matrix follows,
and a line with the numbers of rows, columns and entries. Each line after that
gives the row, the column and the value of an entry, in any order, with rows and
columns counted from one. Blank lines are skipped, and so are comments after the
banner, which start with a percent sign.

A symmetric file gives the entries of one triangle, or some on either side; each is
put on or above the diagonal. Entries at one place are added up.

Lines are looked at one after the other, so what is reported is the first thing that
is wrong. Before any entry is looked at, the reader asks for room for the column
pointers; what the answer is depends on the machine it runs on.
-/

namespace Saddle.Market

/-- What the values of a file are. -/
inductive Field where
  | integer
  | real
deriving Repr, BEq, DecidableEq

/-- Which entries a file gives. -/
inductive Symmetry where
  | general
  | symmetric
deriving Repr, BEq, DecidableEq

/-- What a banner says. -/
structure Banner where
  /-- What the values are. -/
  field : Field
  /-- Which entries are given. -/
  symmetry : Symmetry
deriving Repr, BEq, DecidableEq

/-- What a size line says. -/
structure Size where
  /-- The number of rows. -/
  nrows : Nat
  /-- The number of columns. -/
  ncols : Nat
  /-- The number of lines with entries. -/
  nnz : Nat
deriving Repr, BEq, DecidableEq

/-- A line of a file. -/
structure Line where
  /-- Its number, from one on. -/
  number : Nat
  /-- Its text, if its bytes encode one. -/
  text? : Option (List Char)

/-- The lines of a file with their numbers. -/
def numbered (lines : List (Option String)) : List Line :=
  (lines.zipIdx 1).map fun (text, number) => ⟨number, text.map String.toList⟩

/-- The text of a line. -/
def Line.read (line : Line) : Except Error (List Char) :=
  match line.text? with
  | some text => .ok text
  | none => .error (.source .notText)

/-- A line that holds something. -/
structure Content where
  /-- The number of the line. -/
  number : Nat
  /-- What it holds. -/
  text : List Char
  /-- The lines after it. -/
  rest : List Line

/-- The first line that holds something, where `clean` takes away from a line what does not
count. -/
def seek (clean : List Char → List Char) : List Line → Except Error (Option Content)
  | [] => .ok none
  | line :: rest => do
      let text := clean (← line.read)
      if text = [] then seek clean rest else return some ⟨line.number, text, rest⟩

/-! ## The banner -/

/-- A line in front of the banner counts without blanks at its ends and without byte order marks
at its start. -/
def cleanBanner (text : List Char) : List Char := (Text.trim text).dropWhile (· == '\ufeff')

/-- A line after the banner counts without blanks at its ends, and not at all if it is a
comment. -/
def cleanLine (text : List Char) : List Char :=
  let text := Text.trim text
  if text.head? = some '%' then [] else text

/-- Whether a word of the banner is the given one, in letters of either case. -/
def isWord (word : List Char) (expected : String) : Bool :=
  word.map Char.toLower == expected.toList

/-- The kind of values that a word of the banner stands for. -/
def readField (word : List Char) : Except KindError Field :=
  if isWord word "integer" then .ok .integer
  else if isWord word "real" then .ok .real
  else .error (.field word)

/-- The kind of symmetry that a word of the banner stands for. -/
def readSymmetry (word : List Char) : Except KindError Symmetry :=
  if isWord word "general" then .ok .general
  else if isWord word "symmetric" then .ok .symmetric
  else .error (.symmetry word)

/-- What the words after the mark of the format say. -/
def readKind (object format field symmetry : List Char) : Except KindError Banner := do
  if !(isWord object "matrix" && isWord format "coordinate") then
    throw (.layout object format)
  return ⟨← readField field, ← readSymmetry symmetry⟩

/-- What the banner says. -/
def readBanner (number : Nat) (text : List Char) : Except Error Banner :=
  match Text.words text with
  | [mark, object, format, field, symmetry] =>
      if mark ≠ "%%MatrixMarket".toList then .error (.banner (.mark number text))
      else (readKind object format field symmetry).mapError (.kind number)
  | words => .error (.banner (.wordCount words.length number text))

/-! ## The size -/

/-- The number of bytes of a column pointer. -/
def pointerBytes : Nat := 8

/-- More bytes than this cannot be addressed. -/
def maxCapacity : Nat := Nat.pow 2 63 - 1

/-- Whether there is room for that many column pointers, where `allocates` says whether so many
bytes are to be had. It is not asked for more than can be addressed. -/
def checkRoom (allocates : Nat → Bool) (pointers : Nat) : Except RoomError Unit :=
  if maxCapacity < pointerBytes * pointers then .error .capacity
  else if allocates (pointerBytes * pointers) then .ok ()
  else .error .memory

/-- One of the numbers of the size line. -/
def readDimension (number : Nat) (dimension : Dimension) (word : List Char) :
    Except SizeError Nat :=
  (Decimal.readNat word).mapError (.number dimension word number)

/-- Whether the size is possible for the kind of matrix, and there is room for it. -/
def checkSize (allocates : Nat → Bool) (number : Nat) (symmetry : Symmetry) (size : Size) :
    Except SizeError Unit := do
  if symmetry = .symmetric ∧ size.nrows ≠ size.ncols then
    throw (.notSquare size.nrows size.ncols)
  if maxSize < size.ncols + 1 then
    throw (.tooManyColumns size.ncols number)
  (checkRoom allocates (size.ncols + 1)).mapError (.room (size.ncols + 1) number)

/-- What the size line says. -/
def readSize (allocates : Nat → Bool) (number : Nat) (symmetry : Symmetry) (text : List Char) :
    Except SizeError Size :=
  match Text.words text with
  | [nrows, ncols, nnz] => do
      let nrows ← readDimension number .nrows nrows
      let ncols ← readDimension number .ncols ncols
      let nnz ← readDimension number .nnz nnz
      checkSize allocates number symmetry ⟨nrows, ncols, nnz⟩
      return ⟨nrows, ncols, nnz⟩
  | _ => .error (.wordCount number text)

/-! ## The entries -/

/-- A row or column, counted from zero. -/
def readIndex (word : List Char) : Except EntryError Nat := do
  match ← (Decimal.readNat word).mapError (.index word) with
  | 0 => throw .zeroIndex
  | index + 1 => return index

/-- The value of an entry. -/
def Field.readValue (field : Field) (word : List Char) : Except EntryError Float :=
  match field with
  | .integer => ((Decimal.readInt word).map Decimal.nearestInt).mapError (.integer word)
  | .real =>
      match Decimal.readReal word with
      | some value => .ok value
      | none => .error (.real word)

/-- The place and the value that the line of an entry gives. -/
def readEntry (field : Field) (text : List Char) : Except EntryError (Cell Float) :=
  match Text.words text with
  | [row, column, value] => do
      let row ← readIndex row
      let column ← readIndex column
      return ⟨column, row, ← field.readValue value⟩
  | _ => .error (.wordCount text)

/-- The entry as it is stored. -/
def Symmetry.place (symmetry : Symmetry) (c : Cell Float) : Cell Float :=
  match symmetry with
  | .general => c
  | .symmetric => ⟨max c.row c.column, min c.row c.column, c.value⟩

/-- Adds the entry that a line gives, unless there are as many as announced. -/
def addEntry (banner : Banner) (size : Size) (number : Nat) (text : List Char)
    (t : Triplets Float) : Except Error (Triplets Float) := do
  if size.nnz ≤ t.size then
    throw (.entry number (.excess size.nnz))
  let c ← ((readEntry banner.field text).map banner.symmetry.place).mapError (.entry number)
  let (t, _) ← (t.push c.column c.row c.value).mapError .position
  return t

/-- Adds the entries that the lines give. -/
def addEntries (banner : Banner) (size : Size) :
    List Line → Triplets Float → Except Error (Triplets Float)
  | [], t => .ok t
  | line :: rest, t => do
      let text := cleanLine (← line.read)
      if text = [] then addEntries banner size rest t
      else addEntries banner size rest (← addEntry banner size line.number text t)

/-! ## The file -/

/-- The first line that holds something, which has to exist. -/
def require (clean : List Char → List Char) (missing : Error) (lines : List Line) :
    Except Error Content := do
  match ← seek clean lines with
  | some content => return content
  | none => throw missing

/-- The entries given by the lines of a file. -/
def gather (allocates : Nat → Bool) (lines : List (Option String)) :
    Except Error (Triplets Float) := do
  let first ← require cleanBanner (.banner .missing) (numbered lines)
  let banner ← readBanner first.number first.text
  let second ← require cleanLine (.size .missing) first.rest
  let size ← (readSize allocates second.number banner.symmetry second.text).mapError .size
  let t ← addEntries banner size second.rest (.empty size.nrows size.ncols)
  if t.size ≠ size.nnz then
    throw (.entryCount size.nnz t.size)
  return t

/-- The matrix given by the lines of a file. -/
def readLines (allocates : Nat → Bool) (lines : List (Option String)) :
    Checked Error (Csc Float) := do
  let t ← gather allocates lines
  let (a, _) ← t.build
  return a

/-- The matrix given by the bytes of a file. -/
def read (allocates : Nat → Bool) (bytes : List UInt8) : Checked Error (Csc Float) :=
  readLines allocates (Text.lines bytes)

end Saddle.Market
