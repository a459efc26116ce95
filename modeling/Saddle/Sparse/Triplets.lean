import Saddle.Sparse.Check
import Saddle.Sparse.Layout

/-!
# Assembling a matrix from entries in any order

Entries are collected in the order in which they are pushed, and any number of
them may name the same place. Building the matrix sorts them by place and gives
each place one slot, whose value is the sum of its entries in the order of the
pushes. Nothing is dropped: a place whose entries are zero, or cancel, keeps its
slot, so that a pattern can be reserved now and filled later. Beside the matrix
comes the slot of each entry.
-/

namespace Saddle

/-- Entries collected for a matrix of the given size. -/
structure Triplets (α : Type) where
  /-- The number of rows. -/
  nrows : Nat
  /-- The number of columns. -/
  ncols : Nat
  /-- The entries, in the order in which they were pushed. -/
  entries : Array (Cell α)

namespace Triplets

variable {α : Type}

/-- No entries yet. -/
def empty (nrows ncols : Nat) : Triplets α := ⟨nrows, ncols, #[]⟩

/-- The number of entries, those that share a place counted separately. -/
def size (t : Triplets α) : Nat := t.entries.size

/-- Whether nothing has been pushed. -/
def isEmpty (t : Triplets α) : Bool := t.entries.isEmpty

/-- Adds an entry, if its place is inside the matrix, and numbers it. -/
def push (t : Triplets α) (column row : Nat) (value : α) :
    Except Csc.Error (Triplets α × Nat) :=
  if t.ncols ≤ column then .error (.outOfBounds column t.ncols)
  else if t.nrows ≤ row then .error (.outOfBounds row t.nrows)
  else
    let number := t.entries.size
    .ok ({ t with entries := t.entries.push ⟨column, row, value⟩ }, number)

/-- Adds one entry after the other. -/
def pushAll (t : Triplets α) (cells : List (Cell α)) : Except Csc.Error (Triplets α) :=
  cells.foldlM (fun t c => (t.push c.column c.row c.value).map (·.1)) t

/-- Sorted entries on their way into slots. -/
structure Merge (α : Type) where
  /-- One place behind each column, the number of slots opened in it. -/
  colPtr : Array Nat
  /-- The row of each slot opened so far. -/
  rowIdx : Array Nat
  /-- The value of each slot opened so far. -/
  vals : Array α
  /-- The slot of each entry seen so far, at its number. -/
  slots : Array Nat
  /-- The place of the last entry seen. -/
  last : Option (Nat × Nat)

/-- No slot yet, for the given numbers of columns and entries. -/
def Merge.start (ncols count : Nat) : Merge α where
  colPtr := Array.replicate (ncols + 1) 0
  rowIdx := #[]
  vals := #[]
  slots := Array.replicate count 0
  last := none

/-- Adds the entry with number `e` to the last slot if that is its place, and to a new one
otherwise. -/
def Merge.add [Add α] (entries : Array (Cell α)) (m : Merge α) (e : Nat) : Option (Merge α) := do
  let cell ← entries[e]?
  if m.last = some (cell.column, cell.row) then
    let slot := m.vals.size - 1
    return { m with
      vals := ← Access.adjust m.vals slot (· + cell.value)
      slots := ← Access.write m.slots e slot }
  else
    return {
      colPtr := ← Access.adjust m.colPtr (cell.column + 1) (· + 1)
      rowIdx := m.rowIdx.push cell.row
      vals := m.vals.push cell.value
      slots := ← Access.write m.slots e m.vals.size
      last := some (cell.column, cell.row) }

/-- The matrix of the entries, and the slot of each. -/
def build [Add α] (t : Triplets α) : Option (Csc α × Array Nat) := do
  let order := (Cell.sortNumbered t.entries.toList.zipIdx).map (·.2)
  let merged ← order.foldlM (Merge.add t.entries) (Merge.start t.ncols t.size)
  let colPtr ← Access.accumulate merged.colPtr t.ncols
  return (⟨t.nrows, t.ncols, colPtr, merged.rowIdx, merged.vals⟩, merged.slots)

end Triplets

end Saddle
