import Saddle.Scalar
import Saddle.Elimination.Choice

/-!
# Settings

Both regularizations have to be positive and finite: `sigma` is added to the
diagonal of the quadratic form, and `rho` is inverted. The factor for dense rows may
be anything but undefined.
-/

namespace Saddle

/-- What the solver can be told. -/
structure Settings (α : Type) where
  /-- Added to the diagonal of the quadratic form. -/
  sigma : α
  /-- The step size of every constraint for which none is given. -/
  rho : α
  /-- How the order of elimination is chosen. -/
  ordering : Elimination.Choice
  /-- Rows are dense above this factor times the square root of the dimension. -/
  denseRowFactor : Float
deriving Repr, BEq

namespace Settings

/-- What holds of everything that is not set. -/
def default : Settings Float where
  sigma := 1e-6
  rho := 0.1
  ordering := .approximateMinimumDegree
  denseRowFactor := 10.0

/-- Which setting is refused, with its value. -/
inductive Invalid (α : Type) where
  | sigma (value : α)
  | rho (value : α)
  | denseRowFactor
deriving Repr, BEq, DecidableEq

variable {α : Type}

/-- Whether a regularization is positive and finite. -/
def isRegular [Scalar α] (x : α) : Bool := Scalar.isFinite x && Scalar.isPositive x

/-- Whether a step size may be used. -/
def checkRho [Scalar α] (rho : α) : Except (Invalid α) Unit :=
  if isRegular rho then .ok () else .error (.rho rho)

/-- Whether the settings may be used. -/
def validate [Scalar α] (s : Settings α) : Except (Invalid α) Unit :=
  if !isRegular s.sigma then .error (.sigma s.sigma)
  else if !isRegular s.rho then .error (.rho s.rho)
  else if s.denseRowFactor.isNaN then .error .denseRowFactor
  else .ok ()

/-- The ordering method that is set, with the routine for approximate minimum degrees. -/
def method (amd : Elimination.Routine) (s : Settings α) : Elimination.Method :=
  s.ordering.method amd s.denseRowFactor

end Settings

end Saddle
