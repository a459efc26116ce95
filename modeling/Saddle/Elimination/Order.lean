import Saddle.Elimination.Pattern

/-!
# Orders and the renumberings they induce

An ordering method maps a pattern to the list of its nodes in the order of their
elimination. Any function will do: what it returns is checked to name every node
exactly once before anything is renumbered by it. The check runs through the list
and gives each named node its new number; a node that has one already, or that
does not exist, ends it. A list of the right length that passes leaves no node
without a number.
-/

namespace Saddle.Elimination

/-- A way to choose an order, with the name under which it is reported. -/
structure Method where
  /-- What the method is called. -/
  name : String
  /-- The order chosen for a pattern: at each place the node that is eliminated there. -/
  order : Pattern → Checked Error (Array Nat)

/-- A bijection between old and new numbers of nodes, read in both directions. -/
structure Renumbering where
  /-- The old number of each node, by its new number. -/
  oldOf : Array Nat
  /-- The new number of each node, by its old number. -/
  newOf : Array Nat
deriving Repr, BEq, DecidableEq

/-- Gives the node of the pair, which must exist and not have one yet, its new number. -/
def number (numbers : Array (Option Nat)) (pair : Nat × Nat) : Option (Array (Option Nat)) :=
  let (old, new) := pair
  match numbers[old]? with
  | some none => Access.write numbers old (some new)
  | _ => none

/-- The new number of each node, if `oldOf` names the nodes `0, 1, ..., oldOf.size - 1` once each.
Nothing has to be said of nodes without a number. -/
def inverse? (oldOf : Array Nat) : Option (Array Nat) := do
  let numbers ← oldOf.toList.zipIdx.foldlM number (Array.replicate oldOf.size none)
  return (numbers.toList.map (·.getD maxSize)).toArray

/-- The renumbering by which the nodes of `a` follow the order that the method chooses. -/
def renumbering {α : Type} (method : Method) (a : Csc α) : Checked Error Renumbering := do
  let oldOf ← method.order (.ofMatrix a)
  if oldOf.size ≠ a.ncols then
    throw (.wrongLength a.ncols oldOf.size)
  match inverse? oldOf with
  | some newOf => return ⟨oldOf, newOf⟩
  | none => throw .notPermutation

/-- The order in which the nodes are stored. -/
def natural : Method where
  name := "natural"
  order p := do
    p.check
    return Array.range p.n

end Saddle.Elimination
