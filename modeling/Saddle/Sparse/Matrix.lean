import Saddle.Scalar
import Saddle.Access

/-!
# Sparse matrices by columns

A matrix keeps the row numbers and values of its stored entries, column after
column, in two arrays of equal length. A third array says where each column
starts in them, and has one place more than there are columns: a column ends
where the next one starts. A symmetric matrix stores the entries on and above
the diagonal only.

The arrays are taken as they come. Which of them describe a matrix at all is
decided in `Saddle.Sparse.Check`, and the functions here read them through
accesses that can fail.
-/

namespace Saddle

/-- A matrix in compressed column storage. -/
structure Csc (α : Type) where
  /-- The number of rows. -/
  nrows : Nat
  /-- The number of columns. -/
  ncols : Nat
  /-- Where each column starts among the stored entries, and at the end their number. -/
  colPtr : Array Nat
  /-- The row of each stored entry. -/
  rowIdx : Array Nat
  /-- The value of each stored entry. -/
  vals : Array α
deriving Repr, BEq, DecidableEq

namespace Csc

variable {α : Type}

/-- The number of stored entries. -/
def nnz (a : Csc α) : Nat := a.rowIdx.size

/-- Whether there are as many rows as columns. -/
def isSquare (a : Csc α) : Bool := a.nrows == a.ncols

/-- The matrix of the given size that stores nothing. -/
def empty (nrows ncols : Nat) : Csc α :=
  ⟨nrows, ncols, Array.replicate (ncols + 1) 0, #[], #[]⟩

/-- The square matrix that stores the given diagonal and nothing else. -/
def diagonal (entries : Array α) : Csc α :=
  ⟨entries.size, entries.size, Array.range (entries.size + 1), Array.range entries.size, entries⟩

/-- The position of the first entry of column `j`. -/
def start? (a : Csc α) (j : Nat) : Option Nat := a.colPtr[j]?

/-- The position after the last entry of column `j`. -/
def stop? (a : Csc α) (j : Nat) : Option Nat := a.colPtr[j + 1]?

/-- The positions of the entries of column `j`, in order. -/
def positions? (a : Csc α) (j : Nat) : Option (List Nat) := do
  let start ← a.start? j
  let stop ← a.stop? j
  return List.range' start (stop - start)

/-- The row and the value at position `p`. -/
def entry? (a : Csc α) (p : Nat) : Option (Nat × α) := do
  return (← a.rowIdx[p]?, ← a.vals[p]?)

/-- The rows and values of column `j`, in order. -/
def column? (a : Csc α) (j : Nat) : Option (List (Nat × α)) := do
  let start ← a.start? j
  let stop ← a.stop? j
  let rows ← Access.slice a.rowIdx start stop
  let vals ← Access.slice a.vals start stop
  return rows.zip vals

/-- The matrix with another value at position `p`. -/
def setValue (a : Csc α) (p : Nat) (x : α) : Option (Csc α) := do
  return { a with vals := ← Access.write a.vals p x }

/-- Halves the stretch of `size` column ends from `base` on until one is left, keeping the part
in which the first end past `p` lies. -/
def firstPast (ends : Array Nat) (p base size : Nat) : Option Nat :=
  if size ≤ 1 then
    (ends[base]?).map fun stop => if stop ≤ p then base + 1 else base
  else
    match ends[base + size / 2]? with
    | none => none
    | some stop => firstPast ends p (if stop ≤ p then base + size / 2 else base) (size - size / 2)
termination_by size

/-- The column that owns position `p`: the first one that ends past it. -/
def columnOf (a : Csc α) (p : Nat) : Option Nat :=
  if a.colPtr.isEmpty then none
  else if a.colPtr.size = 1 then some 0
  else firstPast (a.colPtr.extract 1 a.colPtr.size) p 0 (a.colPtr.size - 1)

end Csc

end Saddle
