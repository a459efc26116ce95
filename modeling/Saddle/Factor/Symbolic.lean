import Saddle.Sparse.Matrix

/-!
# The pattern of a factor

The factor `L` of a symmetric matrix has entries where the matrix has none. Which
ones follows from the pattern, by way of the elimination tree: the parent of a
column is the row of its first entry below the diagonal, and row `k` of `L` has an
entry in exactly those columns that lie on the tree's paths from the entries of
column `k` of the matrix up to `k`.

The analysis walks these paths while the tree is being built. Column `j` marks the
nodes it passes, so that each is counted for it once, and a walk ends where it
meets a mark: on an earlier path of the same column or at `j` itself, which is
marked first. The marks of earlier columns are left where they are; the nodes behind
the column at hand have none, or rather the mark of the first column.

All entries together can be more than a count can say, although each column is of
moderate length: that is a failure of its own.
-/

namespace Saddle.Factor

/-- Why a matrix is not analyzed or factored. -/
inductive Error where
  /-- The matrix is not square. -/
  | notSquare (nrows ncols : Nat)
  /-- The matrix stores an entry below its diagonal. -/
  | notUpper (column row : Nat)
  /-- A column stores nothing. -/
  | emptyColumn (column : Nat)
  /-- The factor has more entries than can be counted. -/
  | countOverflow
  /-- The analysis, or the factor to be overwritten, is one of another matrix. -/
  | symbolicMismatch (expected actual : Nat)
  /-- Elimination met a zero on the diagonal. -/
  | zeroPivot (column : Nat)
deriving Repr, BEq, DecidableEq

/-- What is reported of a refusal or a failure. -/
def Error.message : Error → String
  | .notSquare nrows ncols =>
      s!"LDL factorization needs a square matrix (nrows={nrows}, ncols={ncols})"
  | .notUpper column row =>
      s!"matrix is not upper triangular: entry at column {column}, row {row}"
  | .emptyColumn column => s!"column {column} has no stored entries"
  | .countOverflow => "nonzero count of L overflows the index type"
  | .symbolicMismatch expected actual =>
      s!"symbolic analysis is for dimension {expected}, matrix has dimension {actual}"
  | .zeroPivot column => s!"zero pivot in column {column}"

/-- What the pattern of a matrix says about its factor. -/
structure Symbolic where
  /-- The number of columns. -/
  n : Nat
  /-- The parent of each column in the elimination tree. A root has none. -/
  parent : Array (Option Nat)
  /-- The number of entries below the diagonal in each column of the factor. -/
  counts : Array Nat
  /-- The number of entries below the diagonal altogether. -/
  total : Nat
deriving Repr, BEq, DecidableEq

/-- The tree and the counts while columns are added. -/
structure Walk where
  /-- The parents found so far. -/
  parent : Array (Option Nat)
  /-- The entries counted so far. -/
  counts : Array Nat
  /-- The last column that has marked each node. -/
  seen : Array Nat

/-- The walk before the first column. -/
def Walk.start (n : Nat) : Walk where
  parent := Array.replicate n none
  counts := Array.replicate n 0
  seen := Array.replicate n 0

/-- Column `j` marks itself. -/
def Walk.enter (w : Walk) (j : Nat) : Option Walk := do
  return { w with seen := ← Access.write w.seen j j }

/-- Walks from node `i` up to the first node marked by column `j`, and marks and counts the nodes
it passes; a node without a parent becomes a child of `j`. The walk gains height with each step,
so that `j + 1` steps are enough for any. -/
def Walk.climb (j : Nat) : (fuel : Nat) → Nat → Walk → Option Walk
  | 0, _, _ => none
  | fuel + 1, i, w => do
      if (← w.seen[i]?) = j then return w
      let up := (← w.parent[i]?).getD j
      let parent ← Access.write w.parent i (some up)
      let counts ← Access.adjust w.counts i (· + 1)
      let seen ← Access.write w.seen i j
      climb j fuel up { parent, counts, seen }

/-- Adds the entry in row `row` of column `j`. -/
def Walk.addEntry (j : Nat) (w : Walk) (row : Nat) : Checked Error Walk :=
  if j < row then throw (.notUpper j row)
  else w.climb j (j + 1) row

variable {α : Type}

/-- Adds column `j`, which has to store something. -/
def Walk.addColumn (a : Csc α) (w : Walk) (j : Nat) : Checked Error Walk := do
  let w ← w.enter j
  let start ← a.start? j
  let stop ← a.stop? j
  if start = stop then
    throw (.emptyColumn j)
  let entries ← a.column? j
  entries.foldlM (fun w entry => w.addEntry j entry.1) w

/-- The walk over all columns. -/
def walk (a : Csc α) : Checked Error Walk :=
  (List.range a.ncols).foldlM (Walk.addColumn a) (.start a.ncols)

/-- The sum of the counts, as long as it can be said. -/
def countAll (counts : List Nat) : Except Error Nat :=
  counts.foldlM (fun total count =>
    if maxSize < total + count then .error .countOverflow else .ok (total + count)) 0

/-- The elimination tree and the column counts of the factor of the symmetric matrix stored as
the upper triangle `a`. -/
def analyze (a : Csc α) : Checked Error Symbolic := do
  if a.nrows ≠ a.ncols then
    throw (.notSquare a.nrows a.ncols)
  let w ← walk a
  let total ← countAll w.counts.toList
  return { n := a.ncols, parent := w.parent, counts := w.counts, total }

end Saddle.Factor
