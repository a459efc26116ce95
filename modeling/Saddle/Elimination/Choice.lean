import Saddle.Elimination.MinimumDegree

/-!
# The methods one can choose from

A method is chosen by name and gets the factor that decides which rows are dense.
The natural order has no use for it. The approximate minimum degree method is a routine
that comes from elsewhere: it is handed over wherever a method is to be chosen, and is
asked for an order only once the pattern has been found to be in order.
-/

namespace Saddle.Elimination

/-- The methods that can be chosen by name. -/
inductive Choice where
  | approximateMinimumDegree
  | minimumDegree
  | natural
deriving Repr, BEq, DecidableEq

/-- What finds an order, with the factor that decides which rows are dense, for a pattern of which
the rows of each column increase. -/
abbrev Routine := Float → Pattern → Except Error (Array Nat)

/-- The method that checks a pattern, and then leaves the order to a function that ends with
an order or with a refusal. -/
def delegated (name : String) (compute : Pattern → Except Error (Array Nat)) : Method where
  name := name
  order p := do
    p.check
    p.checkSorted
    if p.n = 0 then return #[]
    compute p

/-- The method chosen, with the routine for approximate minimum degrees. -/
def Choice.method (amd : Routine) (factor : Float) : Choice → Method
  | .approximateMinimumDegree => delegated "amd" (amd factor)
  | .minimumDegree => Elimination.minimumDegree factor
  | .natural => Elimination.natural

end Saddle.Elimination
