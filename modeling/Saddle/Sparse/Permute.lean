import Saddle.Sparse.Check

/-!
# Relabelling a symmetric matrix

Giving row and column `i` of a symmetric matrix the new number `label[i]` permutes
both sides at once. Of the two places an entry then has, one is on or above the
diagonal, and that one is stored.

The entries are counted for the columns they move to, and then put there in the
order in which they come, so that the rows within a column are not sorted yet. A
second pass sorts each column, and takes along which entry was put at which
position, so that the map from old positions to new ones stays that of the matrix.
-/

namespace Saddle.Csc

variable {α : Type}

/-- Counts each entry of column `j` one place behind the column it moves to. -/
def countMoved (a : Csc α) (label counts : Array Nat) (j : Nat) : Option (Array Nat) := do
  let newColumn ← label[j]?
  (← a.column? j).foldlM (fun counts (row, _) => do
    let newRow ← label[row]?
    Access.adjust counts (max newRow newColumn + 1) (· + 1)) counts

/-- A matrix into which entries are being moved. -/
structure Moving (α : Type) where
  /-- The matrix. -/
  matrix : Csc α
  /-- The position that each entry has moved to. -/
  moved : Array Nat

/-- Puts the entry that was at position `p` at position `q`. -/
def Moving.put (s : Moving α) (p q row : Nat) (value : α) : Option (Moving α) := do
  return {
    matrix := { s.matrix with
      rowIdx := ← Access.write s.matrix.rowIdx q row
      vals := ← Access.write s.matrix.vals q value }
    moved := ← Access.write s.moved p q }

/-- Moves the entry at position `p`, whose column is now `newColumn`, to the next free position of
the column where it belongs. -/
def scatterEntry (a : Csc α) (label : Array Nat) (newColumn : Nat) (s : Array Nat × Moving α)
    (p : Nat) : Option (Array Nat × Moving α) := do
  let (next, moving) := s
  let newRow ← label[← a.rowIdx[p]?]?
  let column := max newRow newColumn
  let q ← next[column]?
  let next ← Access.adjust next column (· + 1)
  return (next, ← moving.put p q (min newRow newColumn) (← a.vals[p]?))

/-- Moves the entries of column `j`. -/
def scatterColumn (a : Csc α) (label : Array Nat) (s : Array Nat × Moving α) (j : Nat) :
    Option (Array Nat × Moving α) := do
  let newColumn ← label[j]?
  (← a.positions? j).foldlM (a.scatterEntry label newColumn) s

/-- For each position the entry that has moved there. -/
def sources (moved : Array Nat) : Option (Array Nat) :=
  moved.toList.zipIdx.foldlM (fun source (q, p) => Access.write source q p)
    (Array.replicate moved.size 0)

/-- Entries of a column, each with where it came from, in the order of their rows. Different labels
have given them different rows, and then there is one such order. -/
def sortRows (entries : List (Nat × α × Nat)) : List (Nat × α × Nat) :=
  entries.mergeSort fun x y => x.1 ≤ y.1

/-- Sorts column `j`, and lets each entry know its new position. -/
def sortColumn (source : Array Nat) (s : Moving α) (j : Nat) : Option (Moving α) := do
  let start ← s.matrix.start? j
  let stop ← s.matrix.stop? j
  let entries ← (List.range' start (stop - start)).mapM fun q => do
    return (← s.matrix.rowIdx[q]?, ← s.matrix.vals[q]?, ← source[q]?)
  ((sortRows entries).zipIdx start).foldlM
    (fun s ((row, value, p), q) => s.put p q row value) s

/-- The entries of `a` under their new labels, and where each of them has moved. -/
def moveEntries [Zero α] (a : Csc α) (label : Array Nat) : Option (Csc α × Array Nat) := do
  let counts ← (List.range a.ncols).foldlM (a.countMoved label) (Array.replicate (a.ncols + 1) 0)
  let colPtr ← Access.accumulate counts a.ncols
  let blank : Csc α :=
    ⟨a.nrows, a.ncols, colPtr, Array.replicate a.nnz 0, Array.replicate a.nnz 0⟩
  let (_, scattered) ← (List.range a.ncols).foldlM (a.scatterColumn label)
    (colPtr, ⟨blank, Array.replicate a.nnz 0⟩)
  let source ← sources scattered.moved
  let sorted ← (List.range a.ncols).foldlM (sortColumn source) scattered
  return (sorted.matrix, sorted.moved)

/-- The symmetric matrix with its rows and columns relabelled, and for each entry of `a` the
position it has moved to. -/
def permuteSymmetric [Zero α] (a : Csc α) (label : Array Nat) :
    Checked Error (Csc α × Array Nat) := do
  a.checkUpper
  if label.size ≠ a.ncols then
    throw (.permutationLength a.ncols label.size)
  a.moveEntries label

end Saddle.Csc
