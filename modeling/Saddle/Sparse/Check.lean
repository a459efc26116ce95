import Saddle.Sparse.Matrix

/-!
# Which arrays describe a matrix

The checks run in an order in which each one makes the next one safe: the number
of column pointers, their two ends, the number of values, and only then the
columns one after the other, each with its pointers before its rows. The first
check that fails names the cause.
-/

namespace Saddle.Csc

/-- Why a matrix, or an index into one, is refused. -/
inductive Error where
  /-- A row or column number is not below the number of rows or columns. -/
  | outOfBounds (index bound : Nat)
  /-- There is not one column pointer more than there are columns. -/
  | pointerCount (expected actual : Nat)
  /-- The first pointer is not zero, the last is not the number of entries, or one decreases. -/
  | pointer (index expected actual : Nat)
  /-- There are not as many values as rows. -/
  | lengthMismatch (values rows : Nat)
  /-- A row of a column does not exceed the row before it. -/
  | rowsNotIncreasing (column previous row : Nat)
  /-- A matrix that has to be symmetric is not square. -/
  | notSquare (nrows ncols : Nat)
  /-- A symmetric matrix stores an entry below its diagonal. -/
  | notUpper (column row : Nat)
  /-- A relabelling does not have one label for each column. -/
  | permutationLength (expected actual : Nat)
deriving Repr, BEq, DecidableEq

/-- What is reported of a refusal. -/
def Error.message : Error → String
  | .outOfBounds index bound => s!"out of bounds index: {index} (max: {bound})"
  | .pointerCount expected actual =>
      s!"invalid column pointers length: {expected} (actual: {actual})"
  | .pointer index expected actual =>
      s!"invalid column pointers: {index} (expected: {expected}, actual: {actual})"
  | .lengthMismatch values rows =>
      s!"row indices values length mismatch: {values} (actual: {rows})"
  | .rowsNotIncreasing column previous row =>
      s!"rows not strictly increasing: {column} (expected: {previous}, actual: {row})"
  | .notSquare nrows ncols => s!"matrix is not square (nrows={nrows}, ncols={ncols})"
  | .notUpper column row => s!"entry below the diagonal at column {column}, row {row}"
  | .permutationLength expected actual =>
      s!"permutation length {actual} does not match dimension {expected}"

variable {α : Type}

/-- Whether the rows of column `j` are below `nrows` and each exceeds the one before it. -/
def checkRows (nrows j : Nat) : Option Nat → List Nat → Except Error Unit
  | _, [] => .ok ()
  | previous, row :: rest =>
      if nrows ≤ row then .error (.outOfBounds row nrows)
      else
        match previous with
        | some before =>
            if row ≤ before then .error (.rowsNotIncreasing j before row)
            else checkRows nrows j (some row) rest
        | none => checkRows nrows j (some row) rest

/-- Whether column `j` ends no earlier than it starts, inside the entries, and its rows are in
order. -/
def checkColumn (a : Csc α) (j : Nat) : Checked Error Unit := do
  let start ← a.start? j
  let stop ← a.stop? j
  if stop < start ∨ a.nnz < stop then
    throw (.pointer j start stop)
  let rows ← Access.slice a.rowIdx start stop
  checkRows a.nrows j none rows

/-- Whether the arrays describe a matrix in which the rows of each column increase. -/
def check (a : Csc α) : Checked Error Unit := do
  if a.colPtr.size ≠ a.ncols + 1 then
    throw (.pointerCount (a.ncols + 1) a.colPtr.size)
  let first ← a.start? 0
  if first ≠ 0 then
    throw (.pointer 0 0 first)
  let last ← a.start? a.ncols
  if last ≠ a.nnz then
    throw (.pointer a.ncols a.nnz last)
  if a.rowIdx.size ≠ a.vals.size then
    throw (.lengthMismatch a.vals.size a.rowIdx.size)
  (List.range a.ncols).forM a.checkColumn

/-- Whether the last row of column `j` is at most `j`. As the rows of a column increase, none of
them is then below the diagonal. -/
def checkUpperColumn (a : Csc α) (j : Nat) : Checked Error Unit := do
  match (← a.column? j).getLast? with
  | some (row, _) => if j < row then throw (.notUpper j row)
  | none => pure ()

/-- Whether the matrix is square and stores no entry below its diagonal. -/
def checkUpper (a : Csc α) : Checked Error Unit := do
  if a.nrows ≠ a.ncols then
    throw (.notSquare a.nrows a.ncols)
  (List.range a.ncols).forM a.checkUpperColumn

/-- The matrix with the given arrays, if they describe one. -/
def ofArrays (nrows ncols : Nat) (colPtr rowIdx : Array Nat) (vals : Array α) :
    Checked Error (Csc α) := do
  let a : Csc α := ⟨nrows, ncols, colPtr, rowIdx, vals⟩
  a.check
  return a

end Saddle.Csc
