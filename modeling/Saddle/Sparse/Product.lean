import Saddle.Sparse.Matrix

/-!
# Products with a vector, and dense copies

Columns are taken in order and entries within a column in order, and each entry
adds one rounded product to one rounded sum. A symmetric matrix is stored as its
upper triangle: an entry off the diagonal stands for two, and contributes to both
of its rows before the next entry is looked at.
-/

namespace Saddle.Csc

variable {α : Type} [Scalar α]

/-- Adds `x` times each of the given entries to the vector `y`. -/
def axpyEntries (x : α) : List (Nat × α) → Array α → Option (Array α)
  | [], y => some y
  | (row, value) :: rest, y => do axpyEntries x rest (← Access.adjust y row (· + x * value))

/-- Adds `x` times column `j` to the vector `y`. -/
def axpyColumn (a : Csc α) (j : Nat) (x : α) (y : Array α) : Option (Array α) := do
  axpyEntries x (← a.column? j) y

/-- The product with the vector `x`, in the place of `y`, which is cleared first. -/
def mulVecInto (a : Csc α) (x y : Array α) : Option (Array α) :=
  (List.range a.ncols).foldlM (fun y j => do a.axpyColumn j (← x[j]?) y) (y.map fun _ => 0)

/-- The product with the vector `x`. -/
def mulVec (a : Csc α) (x : Array α) : Option (Array α) :=
  a.mulVecInto x (Array.replicate a.nrows 0)

/-- Adds the contributions of one entry of column `j` of a symmetric matrix, and of the equal entry
on the other side of the diagonal if there is one. -/
def symmetricEntry (x : Array α) (j : Nat) (y : Array α) (entry : Nat × α) :
    Option (Array α) := do
  let (row, value) := entry
  let below ← x[j]?
  let y ← Access.adjust y row (· + value * below)
  if row = j then return y
  let above ← x[row]?
  Access.adjust y j (· + value * above)

/-- The product of the symmetric matrix stored as the upper triangle `a` with the vector `x`, in
the place of `y`, which is cleared first. -/
def symmetricMulVecInto (a : Csc α) (x y : Array α) : Option (Array α) :=
  (List.range a.ncols).foldlM
    (fun y j => do (← a.column? j).foldlM (symmetricEntry x j) y) (y.map fun _ => 0)

/-- The product of the symmetric matrix stored as the upper triangle `a` with the vector `x`. -/
def symmetricMulVec (a : Csc α) (x : Array α) : Option (Array α) :=
  a.symmetricMulVecInto x (Array.replicate a.nrows 0)

/-- Adds `x` to the entry in row `i` and column `j` of a dense matrix. -/
def addDense (dense : Array (Array α)) (i j : Nat) (x : α) : Option (Array (Array α)) := do
  Access.write dense i (← Access.adjust (← dense[i]?) j (· + x))

/-- The rows of the matrix, with a zero wherever it stores nothing. -/
def toDense (a : Csc α) : Option (Array (Array α)) :=
  (List.range a.ncols).foldlM
    (fun dense j => do
      (← a.column? j).foldlM (fun dense (row, value) => addDense dense row j value) dense)
    (Array.replicate a.nrows (Array.replicate a.ncols 0))

/-- Copies the entry in row `i` and column `j` of a dense matrix to row `j` and column `i`. -/
def reflectDense (dense : Array (Array α)) (i j : Nat) : Option (Array (Array α)) := do
  let x ← (← dense[i]?)[j]?
  Access.write dense j (← Access.write (← dense[j]?) i x)

/-- The rows of the symmetric matrix stored as the upper triangle `a`. -/
def toDenseSymmetric (a : Csc α) : Option (Array (Array α)) := do
  (List.range a.ncols).foldlM
    (fun dense j => do
      (← a.column? j).foldlM
        (fun dense (row, _) => if row = j then some dense else reflectDense dense row j) dense)
    (← a.toDense)

end Saddle.Csc
