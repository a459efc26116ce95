import Saddle.Solver.Basic
import Saddle.Sparse.Product

/-!
# Trying a solver out

A solver is tried on a right-hand side that is made up, and the answer is checked
against the matrix, which is assembled again for that purpose. The answer gives the
constraints their values, so that the solution of the system has to be recovered
first: the step from the right-hand side to the answer is the regularization times
the solution.
-/

namespace Saddle.Solver

variable {α : Type} [Scalar α]

/-- A right-hand side without zeros: its entries grow evenly up to two. -/
def demoRightHandSide (size : Nat) : Array α :=
  (Array.range size).map fun i => 1 + Scalar.ofNat (i + 1) / Scalar.ofNat size

/-- The largest absolute value of the entries of a vector, those that are undefined left out. -/
def infNorm (xs : Array α) : α := xs.foldl (fun norm x => Scalar.larger norm (Scalar.abs x)) 0

/-- The regularization of the constraints in the matrix that was factored. -/
def lower (s : Solver α) : PerConstraint α :=
  match s.mode with
  | .updatable _ _ => s.stepInverse
  | .polishing => .uniform s.sigma

/-- The entry of the solution of the system in row `i`, from the answer `x` for the right-hand
side `b`. -/
def recoverEntry (s : Solver α) (b x : Array α) (i : Nat) : Option α := do
  if i < s.n then x[i]?
  else return ((← x[i]?) - (← b[i]?)) / (← s.lower.get? (i - s.n))

/-- The solution of the system, from the answer `x` for the right-hand side `b`. -/
def recover (s : Solver α) (b x : Array α) : Option (Array α) :=
  if s.isPolishing then some x
  else do return (← (List.range (s.n + s.m)).mapM (s.recoverEntry b x)).toArray

/-- What the matrix times `x` lacks of `b`, by the largest absolute value. -/
def residualNorm (matrix : Csc α) (b x : Array α) : Option α := do
  let product ← matrix.symmetricMulVec x
  return infNorm (product.zipWith (fun y z => z - y) b)

/-- How a trial went. -/
structure Trial (α : Type) where
  /-- What was to be solved for. -/
  rightHandSide : Array α
  /-- The solution of the system. -/
  solution : Array α
  /-- What it leaves unsolved. -/
  residual : α

/-- Solves for a right-hand side that is made up, with a solver for `P` and `A`. -/
def trial (s : Solver α) (p a : Csc α) : Checked (Error α) (Trial α) := do
  let b := demoRightHandSide (s.n + s.m)
  let x ← s.solve b
  let x ← s.recover b x
  let system ← ExceptT.adapt Error.kkt (Kkt.assemble p a s.sigma s.lower false)
  let residual ← (residualNorm system.matrix b x : Option α)
  return ⟨b, x, residual⟩

end Saddle.Solver
