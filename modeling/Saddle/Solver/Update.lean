import Saddle.Solver.Basic

/-!
# Updating a solver

New values keep the pattern, so that the order and the analysis stay and only the
factor is computed again. A call that is refused leaves the solver as it was. A
call that is accepted stores all its values first; if the factorization then fails,
or shows that the problem is no longer convex, they stay stored, and the solver is
of use again after the next update that succeeds.
-/

namespace Saddle.Solver

variable {α : Type} [Scalar α]

/-- A solver after a call, and how the call ended. -/
abbrev Outcome (α : Type) := Option (Solver α × Except (Error α) Unit)

/-- The solver with the given matrix, factored again. -/
def withMatrix (s : Solver α) (matrix : Csc α) (maps : Kkt.SlotMaps) : Outcome α :=
  (Factor.refactor matrix s.symbolic s.numeric).map fun (numeric, result) =>
    ({ s with numeric, mode := .updatable matrix maps },
      match result with
      | .error e => .error (.factor e)
      | .ok () => checkConvexity numeric.positive s.n)

/-- The solver after an attempt to compute a new matrix and to go on with it. -/
def attempt {β : Type} (s : Solver α) (result : Checked (Error α) β) (next : β → Outcome α) :
    Outcome α :=
  match result.run with
  | none => none
  | some (.error e) => some (s, .error e)
  | some (.ok x) => next x

/-- Whether new values of `P` and `A` fit the problem. -/
def checkMatrices (s : Solver α) (maps : Kkt.SlotMaps) (p a : Csc α)
    (pChanged aChanged : Option (List Nat)) : Except (Error α) Unit := do
  checkLength .pColumns p.ncols s.n
  checkLength .aColumns a.ncols s.n
  checkLength .aRows a.nrows s.m
  (Kkt.checkUpdate .p pChanged maps.p p.nnz).mapError Error.kkt
  (Kkt.checkUpdate .a aChanged maps.a a.nnz).mapError Error.kkt

/-- The matrix with new values of `P` and `A`. -/
def replaceMatrices (s : Solver α) (matrix : Csc α) (maps : Kkt.SlotMaps) (p a : Csc α)
    (pChanged aChanged : Option (List Nat)) : Checked (Error α) (Csc α) := do
  s.checkMatrices maps p a pChanged aChanged
  let matrix ← ExceptT.adapt Error.kkt (Kkt.updateP matrix p pChanged maps.p s.sigma)
  ExceptT.adapt Error.kkt (Kkt.updateA matrix a aChanged maps.a)

/-- Takes over new values of `P` and `A`, those that have changed or all of them. -/
def updateMatrices (s : Solver α) (p : Csc α) (pChanged : Option (List Nat)) (a : Csc α)
    (aChanged : Option (List Nat)) : Outcome α :=
  match s.mode with
  | .polishing => some (s, .error (.unavailable .matrices))
  | .updatable matrix maps =>
      s.attempt (s.replaceMatrices matrix maps p a pChanged aChanged) fun matrix =>
        s.withMatrix matrix maps

/-- The matrix with the lower diagonal of new step sizes. -/
def replaceRho (s : Solver α) (matrix : Csc α) (maps : Kkt.SlotMaps) (steps : PerConstraint α) :
    Checked (Error α) (Csc α) := do
  checkSteps steps s.m
  ExceptT.adapt Error.kkt (Kkt.updateRho matrix steps.inverse maps.rho)

/-- Takes over new step sizes. -/
def updateRho (s : Solver α) (steps : PerConstraint α) : Outcome α :=
  match s.mode with
  | .polishing => some (s, .error (.unavailable .rho))
  | .updatable matrix maps =>
      s.attempt (s.replaceRho matrix maps steps) fun matrix =>
        { s with stepInverse := steps.inverse }.withMatrix matrix maps

/-- Takes over new settings, on none of which a factored solver depends. -/
def updateSettings (s : Solver α) (_ : Settings α) : Outcome α := some (s, .ok ())

/-- Takes a starting point, of which a direct solver has no use. -/
def warmStart (s : Solver α) (_ : Array α) : Outcome α := some (s, .ok ())

end Saddle.Solver
