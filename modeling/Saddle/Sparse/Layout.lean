import Saddle.Sparse.Matrix

/-!
# Matrices as lists of cells

A stored entry, taken with its column, is a cell. A matrix is the list of its
cells in the order of columns and, within a column, of rows; the arrays of the
storage are three ways to read that list. Entries that are given one by one come
as cells, and are sorted as such. Sorting is stable: cells at one place keep the
order in which they came.
-/

namespace Saddle

/-- A stored entry with its place. -/
structure Cell (α : Type) where
  /-- The column of the entry. -/
  column : Nat
  /-- The row of the entry. -/
  row : Nat
  /-- The value of the entry. -/
  value : α
deriving Repr, BEq, DecidableEq

namespace Cell

variable {α : Type}

/-- Whether two cells are at the same place. -/
def samePlace (c d : Cell α) : Bool := c.column == d.column && c.row == d.row

/-- Whether the place of `c` is that of `d` or comes before it: columns first, then rows. -/
def notAfter (c d : Cell α) : Bool :=
  c.column < d.column || (c.column == d.column && c.row ≤ d.row)

/-- Numbered cells in the order of their places. -/
def sortNumbered (cells : List (Cell α × Nat)) : List (Cell α × Nat) :=
  cells.mergeSort fun x y => x.1.notAfter y.1

end Cell

namespace Csc

variable {α : Type}

/-- The cells of column `j`. -/
def columnCells? (a : Csc α) (j : Nat) : Option (List (Cell α)) :=
  (a.column? j).map fun entries => entries.map fun (row, value) => ⟨j, row, value⟩

/-- The cells of the matrix, column after column. -/
def cells? (a : Csc α) : Option (List (Cell α)) :=
  ((List.range a.ncols).mapM a.columnCells?).map List.flatten

/-- Appends what column `j` of `a` stores on and above the diagonal, and where that ends. -/
def appendUpper (a upper : Csc α) (j : Nat) : Option (Csc α) := do
  let upper := (← a.column? j).foldl (fun upper (row, value) =>
    if row ≤ j then
      { upper with rowIdx := upper.rowIdx.push row, vals := upper.vals.push value }
    else upper) upper
  return { upper with colPtr := upper.colPtr.push upper.rowIdx.size }

/-- The entries on and above the diagonal. -/
def upperTriangle (a : Csc α) : Option (Csc α) :=
  (List.range a.ncols).foldlM a.appendUpper ⟨a.nrows, a.ncols, #[0], #[], #[]⟩

end Csc

end Saddle
