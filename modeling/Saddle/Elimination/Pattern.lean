import Saddle.Sparse.Matrix

/-!
# Patterns to be ordered

The order in which a symmetric matrix is eliminated is chosen from its pattern
alone. A pattern lists, for each column, the rows of its entries; entries may be
stored on one side of the diagonal or on both, and the diagonal may be stored or
not. It says nothing about how the columns are to be read if the pointers do not
fit, so it is checked before anything follows them.
-/

namespace Saddle.Elimination

/-- The rows of the entries of a square matrix, column after column. -/
structure Pattern where
  /-- The number of rows and of columns. -/
  n : Nat
  /-- Where each column starts among the rows, and at the end their number. -/
  colPtr : Array Nat
  /-- The row of each entry. -/
  rowIdx : Array Nat

/-- The pattern of a matrix. -/
def Pattern.ofMatrix {α : Type} (a : Csc α) : Pattern := ⟨a.ncols, a.colPtr, a.rowIdx⟩

/-- What is wrong with a pattern. -/
inductive Defect where
  /-- There is not one pointer more than there are columns. -/
  | pointerCount (expected actual : Nat)
  /-- The first pointer is not zero, or the last is past the rows. -/
  | span
  /-- A column ends before it starts. -/
  | decreasing (column : Nat)
  /-- A row is not below the number of rows. -/
  | outOfRange (row n : Nat)
  /-- The rows of a column do not increase. -/
  | unsorted (column : Nat)
deriving Repr, BEq, DecidableEq

/-- What is reported of a defect. -/
def Defect.message : Defect → String
  | .pointerCount expected actual => s!"expected {expected} column pointers, got {actual}"
  | .span => "column pointers do not span the row indices"
  | .decreasing column => s!"column pointers decrease at column {column}"
  | .outOfRange row n => s!"row index {row} out of range for dimension {n}"
  | .unsorted column => s!"row indices of column {column} are not strictly increasing"

/-- Why no order was obtained. -/
inductive Error where
  /-- The pattern is not one of a square matrix. -/
  | invalidPattern (defect : Defect)
  /-- The order does not name as many nodes as there are. -/
  | wrongLength (expected actual : Nat)
  /-- The order names a node twice, or one that does not exist. -/
  | notPermutation
  /-- The method gave up, for a reason of its own. -/
  | failed (reason : String)
deriving Repr, BEq, DecidableEq

/-- What is reported of a failure. -/
def Error.message : Error → String
  | .invalidPattern defect => s!"invalid sparsity pattern: {defect.message}"
  | .wrongLength expected actual =>
      s!"ordering returned {actual} entries for a matrix of dimension {expected}"
  | .notPermutation => "ordering result is not a permutation"
  | .failed reason => s!"ordering failed: {reason}"

namespace Pattern

/-- The position of the first entry of column `j`. -/
def start? (p : Pattern) (j : Nat) : Option Nat := p.colPtr[j]?

/-- The rows of column `j`. -/
def column? (p : Pattern) (j : Nat) : Option (List Nat) := do
  Access.slice p.rowIdx (← p.start? j) (← p.start? (j + 1))

/-- Whether column `j` ends no earlier than it starts. -/
def checkColumn (p : Pattern) (j : Nat) : Checked Error Unit := do
  let start ← p.start? j
  let stop ← p.start? (j + 1)
  if stop < start then
    throw (.invalidPattern (.decreasing j))

/-- Whether the pointers lead through the rows in order, and the rows exist. -/
def check (p : Pattern) : Checked Error Unit := do
  if p.colPtr.size ≠ p.n + 1 then
    throw (.invalidPattern (.pointerCount (p.n + 1) p.colPtr.size))
  let first ← p.start? 0
  let last ← p.start? p.n
  if first ≠ 0 ∨ p.rowIdx.size < last then
    throw (.invalidPattern .span)
  (List.range p.n).forM p.checkColumn
  let rows ← Access.slice p.rowIdx 0 last
  match rows.find? (p.n ≤ ·) with
  | some row => throw (.invalidPattern (.outOfRange row p.n))
  | none => pure ()

/-- Whether each number exceeds the one before it. -/
def increasing : List Nat → Bool
  | [] => true
  | [_] => true
  | i :: j :: rest => i < j && increasing (j :: rest)

/-- Whether the rows of column `j` increase. -/
def checkSortedColumn (p : Pattern) (j : Nat) : Checked Error Unit := do
  let rows ← p.column? j
  if !increasing rows then
    throw (.invalidPattern (.unsorted j))

/-- Whether the rows of every column increase. -/
def checkSorted (p : Pattern) : Checked Error Unit :=
  (List.range p.n).forM p.checkSortedColumn

end Pattern

end Saddle.Elimination
