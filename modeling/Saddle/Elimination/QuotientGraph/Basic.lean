import Saddle.Elimination.Adjacency

/-!
# The quotient graph

Eliminating a node joins its neighbours pairwise. Instead of adding these edges,
the quotient graph keeps the eliminated node as an *element*, which stands for the
clique of its members. A node that is not yet eliminated, a *variable*, has a list
of the elements it belongs to and a list of variables it is still joined to
directly; together they are its neighbours.

Graphs shrink in three ways. An element all of whose members belong to a newer one
is absorbed by it. Variables with equal neighbours are merged, and the one that is
kept carries the *weight* of both. A variable whose only neighbours are members of
the new element is eliminated along with the pivot. What has been absorbed, merged
or eliminated along points to the node it went into, its `parent`.

Degrees are not exact: a neighbour that is reached through two elements is counted
twice. The count is an upper bound that is cheap to keep, since the overlap with
the newest element is known from `mark`.
-/

namespace Saddle.Elimination

/-- A quotient graph under elimination. -/
structure QuotientGraph where
  /-- The number of nodes. -/
  n : Nat
  /-- The elements each variable belongs to, the newest first. -/
  elements : Array (List Nat)
  /-- The direct neighbours of each variable. -/
  direct : Array (List Nat)
  /-- The members of each element. -/
  members : Array (List Nat)
  /-- How many nodes each variable or element stands for; none once it has gone into another. -/
  weight : Array Nat
  /-- Which variables the element under construction has taken up. -/
  inFront : Array Bool
  /-- The node each absorbed or merged node has gone into. -/
  parent : Array (Option Nat)
  /-- For each element, the number of nodes of its pivot and members when it was made. -/
  frontSize : Array Nat
  /-- The bound on the degree of each variable. -/
  degree : Array Nat
  /-- The weight of the members of each element. -/
  size : Array Nat
  /-- A mark below `tag` is stale, one from `tag` on is current; zero is an absorbed element. -/
  mark : Array Nat
  /-- Where current marks start. -/
  tag : Nat
  /-- The variables by degree, the last one listed in front. -/
  buckets : Array (List Nat)
  /-- No variable has a smaller degree than this. -/
  minDegree : Nat
  /-- The number of nodes eliminated or left out. -/
  eliminated : Nat
  /-- The largest weight of the members of an element. -/
  largest : Nat
  /-- Variables that may have equal neighbours, by the sum of the numbers of these. -/
  hashed : Array (List Nat)
  /-- That sum, for each variable of the element under construction. -/
  hash : Array Nat

namespace QuotientGraph

/-- The elements of variable `i`. -/
def elementsOf (g : QuotientGraph) (i : Nat) : List Nat := g.elements.getD i []

/-- The direct neighbours of variable `i`. -/
def directOf (g : QuotientGraph) (i : Nat) : List Nat := g.direct.getD i []

/-- The members of element `e`. -/
def membersOf (g : QuotientGraph) (e : Nat) : List Nat := g.members.getD e []

/-- The number of nodes `i` stands for. -/
def weightOf (g : QuotientGraph) (i : Nat) : Nat := g.weight.getD i 0

/-- The degree kept for variable `i`. -/
def degreeOf (g : QuotientGraph) (i : Nat) : Nat := g.degree.getD i 0

/-- The weight of the members of element `e`. -/
def sizeOf (g : QuotientGraph) (e : Nat) : Nat := g.size.getD e 0

/-- The mark of `i`. -/
def markOf (g : QuotientGraph) (i : Nat) : Nat := g.mark.getD i 0

/-- Whether `i` is a variable that has not been merged, nor taken up by the new element. -/
def isFree (g : QuotientGraph) (i : Nat) : Bool := 0 < g.weightOf i && !g.inFront.getD i false

/-- The weight of the given nodes together. -/
def totalWeight (g : QuotientGraph) (nodes : List Nat) : Nat :=
  nodes.foldl (fun total node => total + g.weightOf node) 0

/-- Lists variable `i` under `degree`. -/
def enlist (g : QuotientGraph) (i degree : Nat) : QuotientGraph :=
  { g with
    buckets := g.buckets.modify degree (i :: ·)
    degree := g.degree.setIfInBounds i degree
    minDegree := min g.minDegree degree }

/-- Takes variable `i` out of the list of its degree. -/
def delist (g : QuotientGraph) (i : Nat) : QuotientGraph :=
  { g with buckets := g.buckets.modify (g.degreeOf i) (·.erase i) }

/-- Lets node `i` go into `j`. -/
def setParent (g : QuotientGraph) (i j : Nat) : QuotientGraph :=
  { g with parent := g.parent.setIfInBounds i (some j) }

/-- Changes the weight of `i`. -/
def setWeight (g : QuotientGraph) (i weight : Nat) : QuotientGraph :=
  { g with weight := g.weight.setIfInBounds i weight }

/-- Changes the mark of `i`. -/
def setMark (g : QuotientGraph) (i mark : Nat) : QuotientGraph :=
  { g with mark := g.mark.setIfInBounds i mark }

/-- Lets element `e` be absorbed by `pivot`. -/
def absorb (pivot : Nat) (g : QuotientGraph) (e : Nat) : QuotientGraph :=
  (g.setParent e pivot).setMark e 0

/-- Puts node `i` of the given degree where it belongs at the start: a node without neighbours is
an element already, a node with more than `threshold` is left out, the others are listed. -/
def settle (threshold : Nat) (g : QuotientGraph) (i : Nat) : QuotientGraph :=
  let degree := g.degreeOf i
  if degree = 0 then
    { g.setMark i 0 with
      frontSize := g.frontSize.setIfInBounds i 1
      eliminated := g.eliminated + 1 }
  else if threshold < degree then
    { g.setWeight i 0 with eliminated := g.eliminated + 1 }
  else
    g.enlist i degree

/-- The graph with the given neighbours, before any elimination. -/
def ofNeighbours (threshold : Nat) (neighbours : Array (List Nat)) : QuotientGraph :=
  let n := neighbours.size
  (List.range n).foldl (settle threshold)
    { n
      elements := Array.replicate n []
      direct := neighbours
      members := Array.replicate n []
      weight := Array.replicate n 1
      inFront := Array.replicate n false
      parent := Array.replicate n none
      frontSize := Array.replicate n 0
      degree := neighbours.map List.length
      size := Array.replicate n 0
      mark := Array.replicate n 1
      tag := 2
      buckets := Array.replicate n []
      minDegree := 0
      eliminated := 0
      largest := 0
      hashed := Array.replicate n []
      hash := Array.replicate n 0 }

/-- The first variable of the smallest degree, and that degree. -/
def nextPivot (g : QuotientGraph) : Option (Nat × Nat) :=
  (List.range' g.minDegree (g.n - g.minDegree)).findSome? fun d =>
    (g.buckets.getD d []).head?.map fun i => (d, i)

end QuotientGraph

end Saddle.Elimination
