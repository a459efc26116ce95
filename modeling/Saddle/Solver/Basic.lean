import Saddle.Settings.Basic
import Saddle.Kkt.Update
import Saddle.Factor.Solve

/-!
# The solver

A solver is set up for one quadratic form and one set of constraints: the saddle
point matrix is assembled, reordered, analyzed and factored. The number of positive
pivots then tells whether the problem is convex, and only a convex one gets a
solver.

A solver that can be updated keeps the matrix and its maps. A solver for polishing
is set up, used and dropped; it regularizes the lower block by `sigma` as well.
-/

namespace Saddle.Solver

/-- What a length is checked of. -/
inductive Operand where
  | steps
  | rightHandSide
  | pColumns
  | aColumns
  | aRows
deriving Repr, BEq, DecidableEq

/-- The updates that a polishing solver does not offer. -/
inductive Update where
  | matrices
  | rho
deriving Repr, BEq, DecidableEq

/-- Why a call did not succeed. -/
inductive Error (α : Type) where
  /-- The matrix was not assembled, not reordered, or not given new values. -/
  | kkt (cause : Kkt.Error)
  /-- The matrix was not analyzed or not factored. -/
  | factor (cause : Factor.Error)
  /-- The quadratic form is not convex: fewer pivots are positive than there are variables. -/
  | nonConvex (positive required : Nat)
  /-- A setting or a step size is refused. -/
  | settings (cause : Settings.Invalid α)
  /-- A length does not fit the problem. -/
  | dimension (operand : Operand) (expected actual : Nat)
  /-- The solver cannot be updated. -/
  | unavailable (update : Update)
deriving Repr, BEq, DecidableEq

/-- The outcome of a call, as far as the optimizer tells outcomes apart. -/
inductive Status where
  | success
  | initError
  | nonConvex
  | factorizationFailed
deriving Repr, BEq, DecidableEq

/-- The number of a status. -/
def Status.code : Status → Nat
  | .success => 0
  | .initError => 1
  | .nonConvex => 2
  | .factorizationFailed => 3

variable {α : Type}

/-- The status of a call that failed. Only a zero pivot counts as a failed factorization. -/
def Error.status : Error α → Status
  | .factor (.zeroPivot _) => .factorizationFailed
  | .nonConvex _ _ => .nonConvex
  | _ => .initError

/-- The status of a finished call. -/
def statusOf {β : Type} : Except (Error α) β → Status
  | .ok _ => .success
  | .error e => e.status

/-- What is kept for later updates. -/
inductive Mode (α : Type) where
  /-- The reordered matrix and the slots of its values. -/
  | updatable (matrix : Csc α) (maps : Kkt.SlotMaps)
  /-- Nothing. -/
  | polishing
deriving Repr, BEq, DecidableEq

end Solver

open Solver in
/-- A factored saddle point system. -/
structure Solver (α : Type) where
  /-- The number of variables. -/
  n : Nat
  /-- The number of constraints. -/
  m : Nat
  /-- What is added to the diagonal of the quadratic form. -/
  sigma : α
  /-- The inverse step sizes. -/
  stepInverse : PerConstraint α
  /-- The old number of each row and column of the reordered matrix. -/
  oldOf : Array Nat
  /-- The analysis of the reordered matrix. -/
  symbolic : Factor.Symbolic
  /-- Its factor. -/
  numeric : Factor.Numeric α
  /-- What is kept for updates. -/
  mode : Mode α
deriving Repr, BEq, DecidableEq

namespace Solver

variable {α : Type}

/-- The name under which the solver is reported. -/
def name : String := "QDLDL"

/-- The number of threads it uses. -/
def threads : Nat := 1

/-- Whether the solver is one for polishing. -/
def isPolishing (s : Solver α) : Bool :=
  match s.mode with
  | .updatable _ _ => false
  | .polishing => true

/-- The reordered matrix, if it is kept. -/
def matrix? (s : Solver α) : Option (Csc α) :=
  match s.mode with
  | .updatable matrix _ => some matrix
  | .polishing => none

/-- The slots of its values, if they are kept. -/
def maps? (s : Solver α) : Option Kkt.SlotMaps :=
  match s.mode with
  | .updatable _ maps => some maps
  | .polishing => none

/-- Whether a length is as expected. -/
def checkLength (operand : Operand) (actual expected : Nat) : Except (Error α) Unit :=
  if actual ≠ expected then .error (.dimension operand expected actual) else .ok ()

/-- Whether at least as many pivots are positive as there are variables. -/
def checkConvexity (positive n : Nat) : Except (Error α) Unit :=
  if positive < n then .error (.nonConvex positive n) else .ok ()

variable [Scalar α]

/-- Whether step sizes may be used for `m` constraints. -/
def checkSteps (steps : PerConstraint α) (m : Nat) : Except (Error α) Unit := do
  if let .each values := steps then
    checkLength .steps values.size m
  steps.toList.forM fun r => (Settings.checkRho r).mapError Error.settings

/-- Whether the settings, and the step sizes if any are given, may be used; the step sizes. -/
def chooseSteps (settings : Settings α) (steps : Option (Array α)) (m : Nat) :
    Except (Error α) (PerConstraint α) := do
  settings.validate.mapError Error.settings
  match steps with
  | none => return .uniform settings.rho
  | some values =>
      checkSteps (.each values) m
      return .each values

/-- The solver for a system that has been assembled and reordered. -/
def ofSystem (n m : Nat) (sigma : α) (stepInverse : PerConstraint α) (system : Kkt.System α)
    (oldOf : Array Nat) : Checked (Error α) (Solver α) := do
  let symbolic ← ExceptT.adapt Error.factor (Factor.analyze system.matrix)
  let numeric ← ExceptT.adapt Error.factor (Factor.factor system.matrix symbolic)
  (checkConvexity numeric.positive n : Except (Error α) Unit)
  let mode :=
    match system.maps with
    | some maps => Mode.updatable system.matrix maps
    | none => Mode.polishing
  return { n, m, sigma, stepInverse, oldOf, symbolic, numeric, mode }

/-- Sets up a solver for `P`, given as its upper triangle, and `A`, in the order that the method
chooses. -/
def initWith (method : Elimination.Method) (p a : Csc α) (steps : Option (Array α))
    (settings : Settings α) (polish : Bool) : Checked (Error α) (Solver α) := do
  let steps ← chooseSteps settings steps a.nrows
  let stepInverse := steps.inverse
  let lower := if polish then .uniform settings.sigma else stepInverse
  let system ← ExceptT.adapt Error.kkt (Kkt.assemble p a settings.sigma lower (!polish))
  let (system, renumbering) ← ExceptT.adapt Error.kkt (system.reorder method)
  ofSystem p.ncols a.nrows settings.sigma stepInverse system renumbering.oldOf

/-- Sets up a solver in the order that the settings ask for, with the routine for approximate
minimum degrees. -/
def init (amd : Elimination.Routine) (p a : Csc α) (steps : Option (Array α))
    (settings : Settings α) (polish : Bool) : Checked (Error α) (Solver α) :=
  initWith (settings.method amd) p a steps settings polish

/-! ## Solving -/

/-- The solution of the saddle point system for the right-hand side `b`. -/
def solveSystem (s : Solver α) (b : Array α) : Option (Array α) := do
  let permuted ← s.oldOf.toList.mapM (b[·]?)
  let solution ← Factor.solve s.numeric.toFactorization permuted.toArray
  (s.oldOf.toList.zip solution.toList).foldlM (fun x (old, value) => Access.write x old value)
    (Array.replicate b.size 0)

/-- The entry of the answer in row `i`: of the solution itself for a variable, and for a
constraint the right-hand side plus the inverse step size times the solution. -/
def answerEntry (s : Solver α) (b x : Array α) (i : Nat) : Option α := do
  if i < s.n then x[i]?
  else return (← b[i]?) + (← s.stepInverse.get? (i - s.n)) * (← x[i]?)

/-- The answer for the right-hand side `b`, of as many entries as the system has rows. A polishing
solver returns the solution of the system as it is; otherwise the constraints get the values that
the iteration goes on with. -/
def answer (s : Solver α) (b : Array α) : Option (Array α) := do
  let x ← s.solveSystem b
  if s.isPolishing then return x
  return (← (List.range (s.n + s.m)).mapM (s.answerEntry b x)).toArray

/-- The answer for the right-hand side `b`, if it has as many entries as the system has rows. -/
def solve (s : Solver α) (b : Array α) : Checked (Error α) (Array α) := do
  (checkLength .rightHandSide b.size (s.n + s.m) : Except (Error α) Unit)
  s.answer b

end Saddle.Solver
