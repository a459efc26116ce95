import Saddle.Factor.Symbolic

/-!
# The values of a factor

A symmetric matrix is written as `(I + L) D (I + L)ᵀ`, with `L` strictly lower
triangular and `D` diagonal, without any pivoting. Row `k` of `L` comes out of a
triangular system with the rows before it, whose right-hand side is column `k` of
the matrix. Its pattern is gathered from the elimination tree first: each entry of
the column contributes the path above it, cut off where an earlier path has been, and
each path is listed from its end. In the list that results every column comes after
its ancestors, so that the columns can be used from the last one to the first.

Every column of `L` has room for as many entries as the analysis counted, and is
filled from the top. A factor can be overwritten with that of other values on the
same pattern. If elimination stops at a zero on the diagonal, what has been
written by then stays.

The arrays that an elimination works with are kept beside the factor and used again.
A run clears those that it reads before it writes them, and finds the others as the
last run has left them.
-/

namespace Saddle.Factor

/-- A factorization `(I + L) D (I + L)ᵀ`. -/
structure Factorization (α : Type) where
  /-- The entries of `L`, all below the diagonal. -/
  l : Csc α
  /-- The pivots: the diagonal of `D`. -/
  d : Array α
  /-- The reciprocals of the pivots. -/
  dInv : Array α
  /-- The number of pivots greater than zero. -/
  positive : Nat
deriving Repr, BEq, DecidableEq

/-- The arrays that an elimination works with, each with a place for every column. -/
structure Workspace (α : Type) where
  /-- Which columns belong to the row at hand. -/
  marked : Array Bool
  /-- The columns of the row at hand, each after its ancestors. -/
  order : Array Nat
  /-- The path that is being followed, from its lower end on. -/
  path : Array Nat
  /-- The next free slot of each column of `L`. -/
  next : Array Nat
  /-- The right-hand side of the row at hand, overwritten as it is solved. -/
  values : Array α
deriving Repr, BEq, DecidableEq

/-- A factorization with the arrays in which it was computed. -/
structure Numeric (α : Type) extends Factorization α where
  /-- The arrays, as the last run has left them. -/
  work : Workspace α
deriving Repr, BEq, DecidableEq

variable {α : Type}

namespace Factorization

/-- The number of columns. -/
def n (f : Factorization α) : Nat := f.d.size

/-- The number of values the factor keeps, those of `D` included. -/
def storedCount (f : Factorization α) : Nat := f.l.nnz + f.d.size

end Factorization

namespace Workspace

/-- Arrays for `n` columns, not used yet. -/
def blank [Zero α] (n : Nat) : Workspace α where
  marked := Array.replicate n false
  order := Array.replicate n 0
  path := Array.replicate n 0
  next := Array.replicate n 0
  values := Array.replicate n 0

/-- Prepares the arrays for a run: nothing is marked, all values are zero, and the free slots are
those given, of which there have to be as many as columns. -/
def reset [Zero α] (w : Workspace α) (next : List Nat) : Option (Workspace α) :=
  if next.length = w.next.size then
    some { w with
      marked := Array.replicate w.marked.size false
      next := next.toArray
      values := Array.replicate w.values.size 0 }
  else none

end Workspace

/-! ## The pattern of a row -/

/-- Marks the path from node `i` up the tree to the last node that is below `k` and not yet
marked, and lists it in `path` behind the `length` nodes that are there. Returns the number of
nodes that are there then. A path has no more nodes than there are to mark. -/
def follow (parent : Array (Option Nat)) (k : Nat) :
    (fuel : Nat) → (i length : Nat) → Array Bool → Array Nat →
      Option (Nat × Array Bool × Array Nat)
  | 0, _, _, _, _ => none
  | fuel + 1, i, length, marked, path => do
      let marked ← Access.write marked i true
      let path ← Access.write path length i
      match ← parent[i]? with
      | none => return (length + 1, marked, path)
      | some up =>
          if k ≤ up then return (length + 1, marked, path)
          else if ← marked[up]? then return (length + 1, marked, path)
          else follow parent k fuel up (length + 1) marked path

/-- Lists the first `length` nodes of `path` in `order`, behind the `count` nodes that are there
and the last one first. -/
def unload (path : Array Nat) : (length count : Nat) → Array Nat → Option (Array Nat)
  | 0, _, order => some order
  | length + 1, count, order => do
      let order ← Access.write order count (← path[length]?)
      unload path length (count + 1) order

/-- A row of `L` whose pattern is being gathered. -/
structure RowPattern (α : Type) where
  /-- The marks, the columns and the right-hand side. -/
  work : Workspace α
  /-- The number of columns found so far. -/
  count : Nat
  /-- The diagonal entry. -/
  pivot : α

/-- Takes in one entry of column `k` of the matrix. -/
def RowPattern.addEntry (parent : Array (Option Nat)) (k : Nat) (r : RowPattern α)
    (entry : Nat × α) : Option (RowPattern α) := do
  let (row, value) := entry
  if row = k then return { r with pivot := value }
  let values ← Access.write r.work.values row value
  if ← r.work.marked[row]? then return { r with work := { r.work with values } }
  let (length, marked, path) ← follow parent k parent.size row 0 r.work.marked r.work.path
  let order ← unload path length r.count r.work.order
  return { r with
    work := { r.work with marked, order, path, values }
    count := r.count + length }

/-! ## The values of a row -/

/-- A factor under construction. -/
structure Progress (α : Type) where
  /-- The factor, as far as it goes. -/
  factor : Factorization α
  /-- The workspace. -/
  work : Workspace α
  /-- What is left of the diagonal entry of the row at hand. -/
  pivot : α

/-- An entry of `L`, and where it goes. -/
structure Entry (α : Type) where
  /-- Its column. -/
  column : Nat
  /-- The position at which it is stored. -/
  slot : Nat
  /-- Its row. -/
  row : Nat
  /-- Its value. -/
  value : α

/-- Stores an entry of `L`, and takes its column out of the row at hand. -/
def Progress.store [Zero α] (s : Progress α) (e : Entry α) : Option (Progress α) := do
  let { factor, work, pivot } := s
  let l := { factor.l with
    rowIdx := ← Access.write factor.l.rowIdx e.slot e.row
    vals := ← Access.write factor.l.vals e.slot e.value }
  return {
    factor := { factor with l }
    work := { work with
      next := ← Access.write work.next e.column (e.slot + 1)
      values := ← Access.write work.values e.column 0
      marked := ← Access.write work.marked e.column false }
    pivot }

variable [Scalar α]

/-- Subtracts `y` times the entry of `L` at position `p` from the right-hand side. -/
def subtractEntry (l : Csc α) (y : α) (values : Array α) (p : Nat) : Option (Array α) := do
  let (row, value) ← l.entry? p
  Access.adjust values row (· - value * y)

/-- Solves for the entry of row `k` in column `j`, which gets the next slot there: what is left of
the right-hand side is carried on to the rows of column `j`, and divided by its pivot. -/
def Progress.solveEntry (k : Nat) (s : Progress α) (j : Nat) : Option (Progress α × Entry α) := do
  let { factor, work, pivot } := s
  let slot ← work.next[j]?
  let y ← work.values[j]?
  let start ← factor.l.start? j
  let values ← (List.range' start (slot - start)).foldlM (subtractEntry factor.l y) work.values
  let value := y * (← factor.dInv[j]?)
  let pivot := pivot - y * value
  return ({ factor, work := { work with values }, pivot }, { column := j, slot, row := k, value })

/-- Solves for the entry of row `k` in column `j`, and stores it. -/
def Progress.useColumn (k : Nat) (s : Progress α) (j : Nat) : Option (Progress α) := do
  let (s, entry) ← s.solveEntry k j
  s.store entry

/-- Writes down the pivot of row `k`, and says whether it can be divided by. -/
def Progress.closeRow (k : Nat) (s : Progress α) : Option (Progress α × Bool) := do
  let d ← Access.write s.factor.d k s.pivot
  if Scalar.isZero s.pivot then
    return ({ s with factor := { s.factor with d } }, false)
  let dInv ← Access.write s.factor.dInv k (1 / s.pivot)
  let positive := if Scalar.isPositive s.pivot then s.factor.positive + 1 else s.factor.positive
  return ({ s with factor := { s.factor with d, dInv, positive } }, true)

/-- Computes row `k` of `L` and pivot `k`, and says whether that pivot can be divided by. -/
def Progress.addRow (a : Csc α) (parent : Array (Option Nat)) (k : Nat) (s : Progress α) :
    Option (Progress α × Bool) := do
  let entries ← (← a.positions? k).mapM a.entry?
  let row ← entries.foldlM (RowPattern.addEntry parent k) ⟨s.work, 0, 0⟩
  let found ← Access.slice row.work.order 0 row.count
  let s ← found.reverse.foldlM (useColumn k) { s with work := row.work, pivot := row.pivot }
  s.closeRow k

/-- Computes the given rows, as far as the first zero pivot, which is returned. -/
def Progress.addRows (a : Csc α) (parent : Array (Option Nat)) :
    List Nat → Progress α → Option (Progress α × Option Nat)
  | [], s => some (s, none)
  | k :: rest, s =>
      match s.addRow a parent k with
      | none => none
      | some (s, true) => addRows a parent rest s
      | some (s, false) => some (s, some k)

/-- The factor `f`, about to be overwritten with one of `n` columns. -/
def Numeric.prepare (n : Nat) (f : Numeric α) : Option (Progress α) := do
  let next ← Access.slice f.l.colPtr 0 n
  return {
    factor := { f.toFactorization with positive := 0 }
    work := ← f.work.reset next
    pivot := 0 }

/-- The factor that has been constructed. -/
def Progress.finish (s : Progress α) : Numeric α := { s.factor with work := s.work }

/-- Overwrites `f` with the factor of `a`, and returns the column of the zero pivot at which that
ended, if it did. -/
def overwrite (a : Csc α) (symbolic : Symbolic) (f : Numeric α) :
    Option (Numeric α × Option Nat) := do
  let start ← f.prepare symbolic.n
  let (final, stopped) ← start.addRows a symbolic.parent (List.range symbolic.n)
  return (final.finish, stopped)

/-! ## Factoring and refactoring -/

/-- Whether `a` is a square matrix of the dimension that was analyzed. -/
def checkDimensions (a : Csc α) (symbolic : Symbolic) : Except Error Unit :=
  if a.nrows ≠ a.ncols then .error (.notSquare a.nrows a.ncols)
  else if a.ncols ≠ symbolic.n then .error (.symbolicMismatch symbolic.n a.ncols)
  else .ok ()

/-- Puts the end of column `j` behind its start. -/
def Symbolic.setPointer (symbolic : Symbolic) (colPtr : Array Nat) (j : Nat) :
    Option (Array Nat) := do
  let start ← colPtr[j]?
  let count ← symbolic.counts[j]?
  Access.write colPtr (j + 1) (start + count)

/-- The column pointers of a factor with the room that was counted. -/
def columnPointers (symbolic : Symbolic) : Option (Array Nat) :=
  (List.range symbolic.n).foldlM symbolic.setPointer (Array.replicate (symbolic.n + 1) 0)

/-- A factor with the room that was counted, all of it zero. -/
def blank (symbolic : Symbolic) : Option (Numeric α) := do
  return {
    l := {
      nrows := symbolic.n
      ncols := symbolic.n
      colPtr := ← columnPointers symbolic
      rowIdx := Array.replicate symbolic.total 0
      vals := Array.replicate symbolic.total 0 }
    d := Array.replicate symbolic.n 0
    dInv := Array.replicate symbolic.n 0
    positive := 0
    work := .blank symbolic.n }

/-- The factor of the symmetric matrix stored as the upper triangle `a`. -/
def factor (a : Csc α) (symbolic : Symbolic) : Checked Error (Numeric α) := do
  checkDimensions a symbolic
  let f ← blank symbolic
  match ← overwrite a symbolic f with
  | (f, none) => return f
  | (_, some column) => throw (.zeroPivot column)

/-- Whether `f` can be overwritten with the factor of `a`. -/
def checkRefactor (a : Csc α) (symbolic : Symbolic) (f : Numeric α) : Except Error Unit := do
  checkDimensions a symbolic
  if f.n ≠ symbolic.n ∨ f.l.nnz ≠ symbolic.total then
    throw (.symbolicMismatch symbolic.n f.n)

/-- The factor `f` overwritten with that of `a`, and how that ended. If it is refused nothing is
written; if it stops at a zero pivot the factor is of no use until the next time. -/
def refactor (a : Csc α) (symbolic : Symbolic) (f : Numeric α) :
    Option (Numeric α × Except Error Unit) :=
  match checkRefactor a symbolic f with
  | .error e => some (f, .error e)
  | .ok () =>
      (overwrite a symbolic f).map fun (f, stopped) =>
        match stopped with
        | none => (f, .ok ())
        | some column => (f, .error (.zeroPivot column))

end Saddle.Factor
