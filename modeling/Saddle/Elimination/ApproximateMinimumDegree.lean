import Saddle.Elimination.Choice
import Saddle.Elimination.QuotientGraph.Eliminate

/-!
# Approximate minimum degree

Once the quotient graph is used up, each element has gone into the one that
absorbed it, which makes a forest. The order lists the elements children first,
and among the children of one element the one with the largest front last, so that
it is followed by its parent at once. In front of each element come the nodes that
were merged into it or eliminated along with it; the dense nodes are at the end.
-/

namespace Saddle.Elimination

namespace QuotientGraph

/-- The element that `i` ended up in: the first of its ancestors that stands for something.
`fuel` bounds the length of the chain, which has no more links than there are nodes. -/
def representative (g : QuotientGraph) : (fuel : Nat) → Nat → Nat
  | 0, i => i
  | fuel + 1, i =>
      if g.weightOf i ≠ 0 then i
      else
        match g.parent.getD i none with
        | some j => representative g fuel j
        | none => i

/-- The elements that are left, each with those it has absorbed. -/
def children (g : QuotientGraph) : Array (List Nat) :=
  (List.range g.n).reverse.foldl
    (fun children i =>
      match g.parent.getD i none with
      | some j => if g.weightOf i ≠ 0 then children.modify j (i :: ·) else children
      | none => children)
    (Array.replicate g.n [])

/-- The nodes that ended up in each element, the element itself left out. -/
def followers (g : QuotientGraph) : Array (List Nat) :=
  (List.range g.n).reverse.foldl
    (fun followers i =>
      match g.parent.getD i none with
      | some j =>
          if g.weightOf i = 0 then followers.modify (g.representative g.n j) (i :: ·) else followers
      | none => followers)
    (Array.replicate g.n [])

/-- Moves the element with the largest front to the end, of several the last one. -/
def largestLast (g : QuotientGraph) : List Nat → List Nat
  | [] => []
  | first :: rest =>
      let largest := rest.foldl
        (fun e f => if g.frontSize.getD e 0 ≤ g.frontSize.getD f 0 then f else e) first
      (first :: rest).erase largest ++ [largest]

/-- The elements below `e` and then `e`, children first. `fuel` bounds the height of the tree. -/
def postorder (children : Array (List Nat)) : (fuel : Nat) → Nat → List Nat
  | 0, e => [e]
  | fuel + 1, e => (children.getD e []).flatMap (postorder children fuel) ++ [e]

/-- The nodes in the order of their elimination. -/
def eliminationOrder (g : QuotientGraph) : List Nat :=
  let children := g.children.map g.largestLast
  let followers := g.followers
  let isRoot i := g.weightOf i ≠ 0 && (g.parent.getD i none).isNone
  let isDense i := g.weightOf i = 0 && (g.parent.getD i none).isNone
  let elements := ((List.range g.n).filter isRoot).flatMap (postorder children g.n)
  elements.flatMap (fun e => followers.getD e [] ++ [e]) ++ (List.range g.n).filter isDense

end QuotientGraph

namespace ApproximateMinimumDegree

/-- The limit for dense rows. A negative factor leaves out only rows joined to all others. -/
def threshold (factor : Float) (n : Nat) : Nat :=
  if factor < 0.0 then min (max (n - 2) 16) n else scaledThreshold factor n

/-- The nodes in the order of their elimination. -/
def order : Routine := fun factor p =>
  let graph := QuotientGraph.ofNeighbours (threshold factor p.n) (neighbourLists p)
  .ok (graph.eliminateAll p.n).eliminationOrder.toArray

end ApproximateMinimumDegree

end Saddle.Elimination
