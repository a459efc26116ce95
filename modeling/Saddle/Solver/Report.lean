import Saddle.Settings.Report
import Saddle.Solver.Basic

/-!
# What is reported of a call that did not succeed
-/

namespace Saddle.Solver

/-- What the length that is checked belongs to. -/
def Operand.name : Operand → String
  | .steps => "rho_vec"
  | .rightHandSide => "right-hand side"
  | .pColumns => "P columns"
  | .aColumns => "A columns"
  | .aRows => "A rows"

/-- What an update is called. -/
def Update.name : Update → String
  | .matrices => "update_matrices"
  | .rho => "update_rho"

/-- What is reported of a call that did not succeed. -/
def Error.message : Error Float → String
  | .kkt cause => s!"error forming and permuting KKT matrix: {cause.message}"
  | .factor cause => s!"LDL factorization failed: {cause.message}"
  | .nonConvex positive required =>
      s!"problem is not convex: {positive} positive pivots, expected at least {required}"
  | .settings cause => s!"invalid settings: {cause.message}"
  | .dimension operand expected actual =>
      s!"{operand.name} has length {actual}, expected {expected}"
  | .unavailable update => s!"{update.name} is not available on a polishing solver"

end Saddle.Solver
