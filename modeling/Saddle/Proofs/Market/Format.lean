import Saddle.Market.Reader
import Saddle.Proofs.Decimal.Integer
import Saddle.Proofs.Sparse.Triplets
import Saddle.Proofs.Text.Words

/-!
# The format of a matrix file

What a file has to look like, and which matrix it stands for, is said here without
reading it: a file is a list of lines, some of which say nothing; of the others the
first announces the kind of matrix, the second measures it, and each of the rest lists
an entry. What belongs on a line is a number of words, and where a number is asked for
the word has to denote one.

The matrix has the size that is measured and an entry at every place that is listed.
Entries of one place are added up in the order of their lines, by an addition that may
round. In a symmetric file an entry below the diagonal stands for the one opposite to it.
-/

namespace Saddle.Market

open Text Decimal

/-! ## The lines -/

/-- How the kind of values is named in a banner. -/
def Field.word : Field → String
  | .integer => "integer"
  | .real => "real"

/-- How the kind of symmetry is named in a banner. -/
def Symmetry.word : Symmetry → String
  | .general => "general"
  | .symmetric => "symmetric"

/-- The text announces matrices of the given kind. -/
def Announces (text : List Char) (banner : Banner) : Prop :=
  ∃ object format field symmetry,
    Spaced ["%%MatrixMarket".toList, object, format, field, symmetry] text ∧
    isWord object "matrix" = true ∧ isWord format "coordinate" = true ∧
    isWord field banner.field.word = true ∧ isWord symmetry banner.symmetry.word = true

/-- A line after the banner says nothing: it is blank, or a comment. -/
def Idle (text : List Char) : Prop :=
  (∀ c ∈ text, isBlank c = true) ∨ (text.dropWhile isBlank).head? = some '%'

/-- The text gives the numbers of rows, columns and entries. -/
def Measures (text : List Char) (size : Size) : Prop :=
  ∃ nrows ncols nnz, Spaced [nrows, ncols, nnz] text ∧
    (Denotes nrows size.nrows ∧ size.nrows ≤ maxSize) ∧
    (Denotes ncols size.ncols ∧ size.ncols ≤ maxSize) ∧
    (Denotes nnz size.nnz ∧ size.nnz ≤ maxSize)

/-- The text lists the entry, with its row and its column counted from one. -/
def Lists (field : Field) (size : Size) (text : List Char) (c : Cell Float) : Prop :=
  ∃ row column value, Spaced [row, column, value] text ∧
    (Denotes row (c.row + 1) ∧ c.row < size.nrows) ∧
    (Denotes column (c.column + 1) ∧ c.column < size.ncols) ∧
    field.readValue value = .ok c.value

/-- The lines list the entries, one on each line that says something. -/
inductive Body (field : Field) (size : Size) : List (List Char) → List (Cell Float) → Prop
  | nil : Body field size [] []
  | idle {text : List Char} {texts : List (List Char)} {entries : List (Cell Float)}
      (htext : Idle text) (hrest : Body field size texts entries) :
      Body field size (text :: texts) entries
  | entry {text : List Char} {texts : List (List Char)} {c : Cell Float}
      {entries : List (Cell Float)} (htext : ¬ Idle text) (hentry : Lists field size text c)
      (hrest : Body field size texts entries) : Body field size (text :: texts) (c :: entries)

/-! ## The file -/

/-- What a file says. -/
structure Document where
  /-- What its banner says. -/
  banner : Banner
  /-- What its size line says. -/
  size : Size
  /-- The entries in the order of their lines, with rows and columns counted from zero. -/
  entries : List (Cell Float)

/-- The lines are those of a file that says what the document holds. -/
inductive Says : List (List Char) → Document → Prop
  | intro {front : List (List Char)} {top : List Char} {middle : List (List Char)}
      {line : List Char} {body : List (List Char)} {d : Document}
      (hfront : ∀ text ∈ front, cleanBanner text = [])
      (hbanner : Announces (cleanBanner top) d.banner)
      (hmiddle : ∀ text ∈ middle, Idle text) (hline : ¬ Idle line) (hsize : Measures line d.size)
      (hsquare : d.banner.symmetry = .symmetric → d.size.nrows = d.size.ncols)
      (hpointers : d.size.ncols + 1 ≤ maxSize) (hbody : Body d.banner.field d.size body d.entries)
      (hcount : d.entries.length = d.size.nnz) : Says (front ++ top :: (middle ++ line :: body)) d

/-! ## The matrix -/

/-- The entries where the matrix is to store them. -/
def Document.cells (d : Document) : List (Cell Float) := d.entries.map d.banner.symmetry.place

/-- The matrix is the one that the document describes. -/
structure Describes (d : Document) (m : Csc Float) : Prop where
  nrows_eq : m.nrows = d.size.nrows
  ncols_eq : m.ncols = d.size.ncols
  check : m.check.run = some (.ok ())
  /-- What is stored is what is listed. -/
  places : ∀ p, p ∈ m.cellList.map Cell.place ↔ p ∈ d.cells.map Cell.place
  /-- Values of one place are added up in the order of their lines. -/
  value : ∀ c ∈ m.cellList, Triplets.chain? (Triplets.valuesAt c.place d.cells) = some c.value

end Saddle.Market
