/-!
# A number for each constraint

Step sizes, and their inverses on the lower diagonal, are either the same for all
constraints or given one by one. The two forms are kept apart, also when they hold
the same numbers: a list fits only one number of constraints, a single number
fits any.
-/

namespace Saddle

/-- A number for each constraint. -/
inductive PerConstraint (α : Type) where
  /-- The same number for all. -/
  | uniform (value : α)
  /-- One number for each. -/
  | each (values : Array α)
deriving Repr, BEq, DecidableEq

namespace PerConstraint

variable {α : Type}

/-- The number for constraint `j`. -/
def get? (x : PerConstraint α) (j : Nat) : Option α :=
  match x with
  | .uniform value => some value
  | .each values => values[j]?

/-- The reciprocal of each number. -/
def inverse [One α] [Div α] (x : PerConstraint α) : PerConstraint α :=
  match x with
  | .uniform value => .uniform (1 / value)
  | .each values => .each (values.map (1 / ·))

/-- The numbers as a list, the single one if they are all the same. -/
def toList (x : PerConstraint α) : List α :=
  match x with
  | .uniform value => [value]
  | .each values => values.toList

end PerConstraint

end Saddle
