import Saddle.Elimination.QuotientGraph.Basic

/-!
# Eliminating from the quotient graph

The pivot becomes an element, whose members are all its neighbours; they are the
*front*. Then every member is brought up to date. The overlap of older elements
with the new one is found first, for all members, so that afterwards the part of an
element outside the front can be looked up; an element without such a part is
absorbed. Members that have come to have equal neighbours are found by a hash and
merged. Last, the members that are left are listed under their new degrees, and the
next pivot can be chosen.
-/

namespace Saddle.Elimination.QuotientGraph

/-! ## The new element -/

/-- The new element takes up `i`, if that is a free variable. -/
def takeUp (s : QuotientGraph × Array Nat) (i : Nat) : QuotientGraph × Array Nat :=
  let (g, front) := s
  if g.isFree i then
    ({ g.delist i with inFront := g.inFront.setIfInBounds i true }, front.push i)
  else s

/-- Makes the variable `pivot`, the first one of its degree, an element. Its members come from the
elements it belongs to, which it absorbs, and then from its direct neighbours. -/
def makeElement (g : QuotientGraph) (degree pivot : Nat) : QuotientGraph × List Nat :=
  let weight := g.weightOf pivot
  let elements := g.elementsOf pivot
  let candidates := elements.flatMap g.membersOf ++ g.directOf pivot
  let g := { g with
    buckets := g.buckets.modify degree List.tail
    minDegree := degree
    inFront := g.inFront.setIfInBounds pivot true
    eliminated := g.eliminated + weight }
  let (g, front) := candidates.foldl takeUp (g, #[])
  let g := elements.foldl (absorb pivot) g
  let size := g.totalWeight front.toList
  ({ g with frontSize := g.frontSize.setIfInBounds pivot (weight + size) }, front.toList)

/-! ## Degrees of the members -/

/-- Notes that a member of the given weight belongs to element `e` too: the mark of `e`, less
`tag`, is the weight of what `e` has outside the new element, as far as known. -/
def noteOverlap (weight : Nat) (g : QuotientGraph) (e : Nat) : QuotientGraph :=
  let mark := g.markOf e
  if g.tag ≤ mark then g.setMark e (mark - weight)
  else if mark ≠ 0 then g.setMark e (g.sizeOf e + g.tag - weight)
  else g

/-- Notes the overlaps of all elements of member `i`. -/
def noteOverlaps (g : QuotientGraph) (i : Nat) : QuotientGraph :=
  (g.elementsOf i).foldl (noteOverlap (g.weightOf i)) g

/-- What is left of the elements of a member. -/
structure Outside where
  /-- The graph, in which elements with nothing outside the new one are absorbed. -/
  graph : QuotientGraph
  /-- The elements with something outside. -/
  kept : List Nat := []
  /-- The weight of what they have outside. -/
  weight : Nat := 0

/-- Looks at one more element. -/
def Outside.look (pivot : Nat) (s : Outside) (e : Nat) : Outside :=
  let mark := s.graph.markOf e
  if mark = 0 then s
  else if s.graph.tag < mark then
    { s with kept := s.kept ++ [e], weight := s.weight + (mark - s.graph.tag) }
  else { s with graph := absorb pivot s.graph e }

/-- The new element while the degrees of its members are computed. -/
structure Front where
  /-- The graph. -/
  graph : QuotientGraph
  /-- The weight of the pivot and of what is eliminated along with it. -/
  pivotWeight : Nat
  /-- The weight of the members that stay. -/
  size : Nat

/-- Brings member `i` up to date: its lists, the bound on its degree and the hash of its
neighbours. The new element comes first among its elements; of those that stay, and of its direct
neighbours, the first one goes to the end. A member with no neighbour outside the new element is
eliminated along. -/
def Front.update (pivot : Nat) (f : Front) (i : Nat) : Front :=
  let outside := (f.graph.elementsOf i).foldl (Outside.look pivot) { graph := f.graph }
  let g := outside.graph
  let direct := (g.directOf i).filter g.isFree
  let weight := g.weightOf i
  if outside.kept.isEmpty && direct.isEmpty then
    { graph := { (g.setParent i pivot).setWeight i 0 with eliminated := g.eliminated + weight }
      pivotWeight := f.pivotWeight + weight
      size := f.size - weight }
  else
    let degree := min (g.degreeOf i) (outside.weight + g.totalWeight direct)
    let hash := (outside.kept ++ direct).foldl (· + ·) 0 % g.n
    { f with
      graph := { g with
        elements := g.elements.setIfInBounds i (pivot :: outside.kept.rotateLeft 1)
        direct := g.direct.setIfInBounds i (direct.rotateLeft 1)
        degree := g.degree.setIfInBounds i degree
        hash := g.hash.setIfInBounds i hash
        hashed := g.hashed.modify hash (i :: ·) } }

/-! ## Variables with equal neighbours -/

/-- The neighbours of a member apart from the new element. -/
def otherNeighbours (g : QuotientGraph) (i : Nat) : List Nat :=
  (g.elementsOf i).tail ++ g.directOf i

/-- Whether `j` has as many elements and variables as `i`, and only marked neighbours. -/
def looksLike (g : QuotientGraph) (i j : Nat) : Bool :=
  (g.elementsOf j).length == (g.elementsOf i).length
    && (g.directOf j).length == (g.directOf i).length
    && (g.otherNeighbours j).all fun x => g.markOf x == g.tag

/-- Merges `j` into `i` if they have equal neighbours, and keeps it for later otherwise. -/
def mergeIfAlike (i : Nat) (s : QuotientGraph × List Nat) (j : Nat) : QuotientGraph × List Nat :=
  let (g, later) := s
  if g.looksLike i j then
    (((g.setParent j i).setWeight i (g.weightOf i + g.weightOf j)).setWeight j 0, later)
  else (g, later ++ [j])

/-- Merges the variables of the list that have equal neighbours, each into the first of its kind.
At most `fuel` kinds are looked at, which the length of the list always allows. -/
def mergeAlike : (fuel : Nat) → List Nat → QuotientGraph → QuotientGraph
  | fuel + 1, i :: j :: rest, g =>
      let g := (g.otherNeighbours i).foldl (fun g x => g.setMark x g.tag) g
      let (g, later) := (j :: rest).foldl (mergeIfAlike i) (g, [])
      mergeAlike fuel later { g with tag := g.tag + 1 }
  | _, _, g => g

/-- Looks for variables with the neighbours of member `i` among those with its hash. -/
def mergeHashed (g : QuotientGraph) (i : Nat) : QuotientGraph :=
  if g.weightOf i = 0 then g
  else
    let hash := g.hash.getD i 0
    let candidates := g.hashed.getD hash []
    mergeAlike candidates.length candidates
      { g with hashed := g.hashed.setIfInBounds hash [] }

/-! ## One elimination -/

/-- Lists member `i` under its degree, now that the members of the new element are final. -/
def release (size left : Nat) (s : QuotientGraph × Array Nat) (i : Nat) :
    QuotientGraph × Array Nat :=
  let (g, members) := s
  let weight := g.weightOf i
  if weight = 0 then s
  else
    let degree := min (g.degreeOf i + size - weight) (left - weight)
    ({ g.enlist i degree with inFront := g.inFront.setIfInBounds i false }, members.push i)

/-- Eliminates the variable `pivot`, the first one of its degree. -/
def eliminate (g : QuotientGraph) (degree pivot : Nat) : QuotientGraph :=
  let (g, front) := g.makeElement degree pivot
  let g := front.foldl noteOverlaps g
  let f := front.foldl (Front.update pivot)
    { graph := g, pivotWeight := g.weightOf pivot, size := g.totalWeight front }
  let largest := max f.graph.largest f.size
  let g := { f.graph with
    size := f.graph.size.setIfInBounds pivot f.size
    largest
    tag := f.graph.tag + largest }
  let g := front.foldl mergeHashed g
  let (g, members) := front.foldl (release f.size (g.n - g.eliminated)) (g, #[])
  let g := { g.setWeight pivot f.pivotWeight with
    elements := g.elements.setIfInBounds pivot []
    direct := g.direct.setIfInBounds pivot []
    members := g.members.setIfInBounds pivot members.toList
    inFront := g.inFront.setIfInBounds pivot false }
  if members.isEmpty then g.setMark pivot 0 else g

/-- Eliminates variables until none is left, but at most `fuel` of them; the number of nodes is
always enough. -/
def eliminateAll : (fuel : Nat) → QuotientGraph → QuotientGraph
  | 0, g => g
  | fuel + 1, g =>
      if g.eliminated < g.n then
        match g.nextPivot with
        | some (degree, pivot) => eliminateAll fuel (g.eliminate degree pivot)
        | none => g
      else g

end Saddle.Elimination.QuotientGraph
