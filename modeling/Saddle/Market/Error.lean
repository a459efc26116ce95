import Saddle.Decimal.Integer
import Saddle.Decimal.Real
import Saddle.Sparse.Check
import Saddle.Text.Quoted

/-!
# What can be wrong with a matrix file

Each error keeps the part of the file it is about. One that concerns a line says
which, with lines counted from one, blank lines and comments included.
-/

namespace Saddle.Market

/-- Why there is no text to be read. -/
inductive SourceError where
  /-- There is no such file. -/
  | missing
  /-- The bytes of a line do not encode a text. -/
  | notText
  /-- The system reports something else. -/
  | other (report : String)
deriving Repr, BEq, DecidableEq

/-- What is reported of a file that cannot be read. -/
def SourceError.message : SourceError → String
  | .missing => "No such file or directory (os error 2)"
  | .notText => "stream did not contain valid UTF-8"
  | .other report => report

/-- What is wrong with the first line. -/
inductive BannerError where
  /-- Every line is blank. -/
  | missing
  /-- The line does not consist of five words. -/
  | wordCount (count line : Nat) (text : List Char)
  /-- The first word is not the mark of the format. -/
  | mark (line : Nat) (text : List Char)
deriving Repr, BEq, DecidableEq

/-- What is reported of the first line. -/
def BannerError.message : BannerError → String
  | .missing => "empty input"
  | .wordCount count line text =>
      s!"expected 5 tokens, got {count} at line {line}: {String.ofList (Text.quoted text)}"
  | .mark line text => s!"missing %%MatrixMarket at line {line}: {String.ofList text}"

/-- Which kind of file is not supported. -/
inductive KindError where
  /-- The file does not hold a matrix given by the coordinates of its entries. -/
  | layout (object format : List Char)
  /-- The values are neither integers nor real numbers. -/
  | field (word : List Char)
  /-- The entries are neither all given nor those of one triangle of a symmetric matrix. -/
  | symmetry (word : List Char)
deriving Repr, BEq, DecidableEq

/-- What is reported of a kind of file that is not supported, named in the given line. -/
def KindError.message (line : Nat) : KindError → String
  | .layout object format =>
      s!"only 'matrix coordinate' is supported, got '{String.ofList object}' " ++
        s!"'{String.ofList format}' (line {line})"
  | .field word =>
      "only 'integer' and 'real' fields are supported, " ++
        s!"got '{String.ofList word}' (line {line})"
  | .symmetry word =>
      "only 'general' and 'symmetric' are supported, " ++
        s!"got '{String.ofList word}' (line {line})"

/-- The three numbers of the size line. -/
inductive Dimension where
  | nrows
  | ncols
  | nnz
deriving Repr, BEq, DecidableEq

/-- What a number of the size line is called. -/
def Dimension.name : Dimension → String
  | .nrows => "nrows"
  | .ncols => "ncols"
  | .nnz => "nnz"

/-- Why there is no room for an array. -/
inductive RoomError where
  /-- It would have more bytes than an array can have. -/
  | capacity
  /-- It would have more bytes than there are. -/
  | memory
deriving Repr, BEq, DecidableEq

/-- What is reported of an array for which there is no room. -/
def RoomError.message : RoomError → String
  | .capacity =>
      "memory allocation failed because the computed capacity exceeded the collection's maximum"
  | .memory => "memory allocation failed because the memory allocator returned an error"

/-- What is wrong with the size line. -/
inductive SizeError where
  /-- There is no such line. -/
  | missing
  /-- The line does not consist of three words. -/
  | wordCount (line : Nat) (text : List Char)
  /-- One of the words is not a number of the range of sizes. -/
  | number (dimension : Dimension) (word : List Char) (line : Nat) (cause : Decimal.IntegerError)
  /-- A matrix that has to be symmetric is not square. -/
  | notSquare (nrows ncols : Nat)
  /-- The number of column pointers would be out of the range of sizes. -/
  | tooManyColumns (ncols line : Nat)
  /-- There is no room for the column pointers. -/
  | room (pointers line : Nat) (cause : RoomError)
deriving Repr, BEq, DecidableEq

/-- What is reported of the size line. -/
def SizeError.message : SizeError → String
  | .missing => "missing size line"
  | .wordCount line text => s!"expected 3 integers at line {line}: {String.ofList text}"
  | .number dimension word line cause =>
      s!"bad {dimension.name} '{String.ofList word}' at line {line}: {cause.message}"
  | .notSquare nrows ncols => s!"symmetric matrix must be square, got {nrows} x {ncols}"
  | .tooManyColumns ncols line => s!"ncols {ncols} at line {line} is too large"
  | .room pointers line cause =>
      s!"cannot allocate {pointers} column pointers for line {line}: {cause.message}"

/-- What is wrong with the line of an entry. -/
inductive EntryError where
  /-- All entries announced have been read already. -/
  | excess (nnz : Nat)
  /-- The line does not consist of three words. -/
  | wordCount (text : List Char)
  /-- A row or column is not a number of the range of indices. -/
  | index (word : List Char) (cause : Decimal.IntegerError)
  /-- A row or column is zero, while they are counted from one. -/
  | zeroIndex
  /-- The value is not an integer of the range supported. -/
  | integer (word : List Char) (cause : Decimal.IntegerError)
  /-- The value is not a real number. -/
  | real (word : List Char)
deriving Repr, BEq, DecidableEq

/-- What is reported of the line of an entry. -/
def EntryError.message : EntryError → String
  | .excess nnz => s!"found more than nnz={nnz} entries"
  | .wordCount text => s!"expected 3 tokens 'row col val', got: {String.ofList text}"
  | .index word cause => s!"bad index '{String.ofList word}': {cause.message}"
  | .zeroIndex => "MatrixMarket indices are 1-based; found 0"
  | .integer word cause => s!"bad integer value '{String.ofList word}': {cause.message}"
  | .real word => s!"bad real value '{String.ofList word}': {Decimal.realErrorMessage}"

/-- Why no matrix is read from a file. -/
inductive Error where
  /-- There is no text, or it ends where a line is no text. -/
  | source (cause : SourceError)
  /-- The first line does not announce the format. -/
  | banner (cause : BannerError)
  /-- The first line announces a kind of file that is not supported. -/
  | kind (line : Nat) (cause : KindError)
  /-- The line with the size is missing or wrong. -/
  | size (cause : SizeError)
  /-- The line of an entry is wrong. -/
  | entry (line : Nat) (cause : EntryError)
  /-- There are fewer entries than announced. -/
  | entryCount (expected actual : Nat)
  /-- An entry is outside the matrix. -/
  | position (cause : Csc.Error)
deriving Repr, BEq, DecidableEq

/-- What is reported of a file from which no matrix is read. -/
def Error.message : Error → String
  | .source cause => s!"io error: {cause.message}"
  | .banner cause => s!"invalid banner: {cause.message}"
  | .kind line cause => s!"unsupported type: {cause.message line}"
  | .size cause => s!"invalid size line: {cause.message}"
  | .entry line cause => s!"invalid entry at line {line}: {cause.message}"
  | .entryCount expected actual =>
      s!"entry count mismatch: expected {expected}, read {actual}"
  | .position cause => cause.message

end Saddle.Market
