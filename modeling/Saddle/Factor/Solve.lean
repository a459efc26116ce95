import Saddle.Factor.Numeric

/-!
# Solving with a factor

The system `(I + L) D (I + L)ᵀ x = b` is solved in three steps, each of which
overwrites the vector: forward through the columns of `L`, a division by the
pivots, which is a product with their reciprocals, and backward through the
columns again, now read as the rows of the transpose.
-/

namespace Saddle.Factor

variable {α : Type} [Scalar α]

/-- Subtracts `x` times column `j` of `L`, where `x` is the entry of the vector in row `j`. -/
def forwardColumn (l : Csc α) (xs : Array α) (j : Nat) : Option (Array α) := do
  let x ← xs[j]?
  (← l.positions? j).foldlM (subtractEntry l x) xs

/-- The solution of `(I + L) y = x`. -/
def forward (l : Csc α) (xs : Array α) : Option (Array α) :=
  (List.range xs.size).foldlM (forwardColumn l) xs

/-- Subtracts from `x` the product of the entry of `L` at position `p` with the vector. -/
def subtractProduct (l : Csc α) (xs : Array α) (x : α) (p : Nat) : Option α := do
  let (row, value) ← l.entry? p
  return x - value * (← xs[row]?)

/-- Subtracts from the entry of the vector in row `j` the product of column `j` of `L` with it. -/
def backwardColumn (l : Csc α) (xs : Array α) (j : Nat) : Option (Array α) := do
  let x ← (← l.positions? j).foldlM (subtractProduct l xs) (← xs[j]?)
  Access.write xs j x

/-- The solution of `(I + L)ᵀ y = x`. -/
def backward (l : Csc α) (xs : Array α) : Option (Array α) :=
  (List.range xs.size).reverse.foldlM (backwardColumn l) xs

/-- The products of the entries of a vector with the reciprocals of the pivots. -/
def scale (dInv xs : Array α) : Array α :=
  xs.mapIdx fun i x =>
    match dInv[i]? with
    | some r => x * r
    | none => x

/-- The solution of the factored system for the right-hand side `b`. -/
def solve (f : Factorization α) (b : Array α) : Option (Array α) := do
  backward f.l (scale f.dInv (← forward f.l b))

end Saddle.Factor
