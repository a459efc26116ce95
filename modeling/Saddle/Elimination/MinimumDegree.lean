import Saddle.Elimination.Order
import Saddle.Elimination.DegreeBuckets
import Saddle.Elimination.Density

/-!
# Minimum degree

Eliminating a node of a symmetric matrix joins all its neighbours with one
another. The method keeps the graph that results explicitly, as a list of
neighbours for each node, and always eliminates a node with the fewest. Which one
that is follows from the buckets: the node put into its bucket last comes
first, and all nodes are put in at the start, the lowest number last.

Which nodes a list has already is not looked up in the list. Each time a list is
extended there is a new tag, with which the nodes of the list are stamped; the stamps
of earlier tags may stay.
-/

namespace Saddle.Elimination.MinimumDegree

/-- Records that the nodes `i` and `j` are neighbours, unless they are the same. -/
def connect (j : Nat) (adjacent : Array (List Nat)) (i : Nat) : Option (Array (List Nat)) :=
  if i = j then some adjacent
  else do
    let adjacent ← Access.adjust adjacent i (j :: ·)
    Access.adjust adjacent j (i :: ·)

/-- The numbers of a list in increasing order, each once. -/
def sortDistinct (xs : List Nat) : List Nat := (xs.mergeSort (· ≤ ·)).eraseReps

/-- The neighbours of each node: increasing, without the node itself, on whichever side of the
diagonal the entries are stored. -/
def adjacency (p : Pattern) : Option (Array (List Nat)) := do
  let adjacent ← (List.range p.n).foldlM
    (fun adjacent j => do (← p.column? j).foldlM (connect j) adjacent)
    (Array.replicate p.n [])
  return adjacent.map sortDistinct

/-- An elimination under way. -/
structure State where
  /-- The neighbours of each node that is not yet eliminated. -/
  adjacent : Array (List Nat)
  /-- The degree in whose bucket each such node is. -/
  degree : Array Nat
  /-- The nodes by degree. -/
  buckets : DegreeBuckets
  /-- The tag with which each node has been stamped last. -/
  stamp : Array Nat
  /-- The last tag that was in use. -/
  tag : Nat
  /-- No node has a smaller degree than this. -/
  minDegree : Nat
  /-- The nodes eliminated so far, each with the neighbours it then had. -/
  pivots : Array (Nat × List Nat)

/-- An elimination among `n` nodes, none of which is in a bucket yet. -/
def State.start (n : Nat) (adjacent : Array (List Nat)) : State where
  adjacent
  degree := Array.replicate n 0
  buckets := .empty n
  stamp := Array.replicate n 0
  tag := 0
  minDegree := 0
  pivots := #[]

/-- Puts node `i` into the bucket of its degree. -/
def State.enter (s : State) (i : Nat) : Option State := do
  let degree := (← s.adjacent[i]?).length
  return { s with
    degree := ← Access.write s.degree i degree
    buckets := ← s.buckets.insert i degree }

/-- Stamps the given nodes. -/
def stampAll (tag : Nat) (stamp : Array Nat) (xs : List Nat) : Option (Array Nat) :=
  xs.foldlM (fun stamp x => Access.write stamp x tag) stamp

/-- Appends node `x` to the list of node `u`, whose nodes bear the tag, unless it is there already
or is `u` itself. -/
def appendNew (u tag : Nat) (s : Array Nat × Array Nat) (x : Nat) :
    Option (Array Nat × Array Nat) := do
  let (list, stamp) := s
  if x = u then return (list, stamp)
  if (← stamp[x]?) = tag then return (list, stamp)
  return (list.push x, ← Access.write stamp x tag)

/-- Takes `pivot` away from its neighbour `u`, and joins `u` with the other neighbours. -/
def State.join (pivot : Nat) (clique : List Nat) (s : State) (u : Nat) : Option State := do
  let tag := s.tag + 1
  let kept := (← s.adjacent[u]?).filter (· ≠ pivot)
  let stamp ← stampAll tag s.stamp kept
  let (joined, stamp) ← clique.foldlM (appendNew u tag) (kept.toArray, stamp)
  let buckets ← s.buckets.remove u (← s.degree[u]?)
  return { s with
    adjacent := ← Access.write s.adjacent u joined.toList
    degree := ← Access.write s.degree u joined.size
    buckets := ← buckets.insert u joined.size
    stamp
    tag
    minDegree := min s.minDegree joined.size }

/-- Eliminates the first node of the smallest degree. -/
def State.eliminate (s : State) : Option State := do
  let (degree, pivot) ← s.buckets.firstFrom s.minDegree
  let clique ← s.adjacent[pivot]?
  clique.foldlM (join pivot clique)
    { s with
      adjacent := ← Access.write s.adjacent pivot []
      buckets := ← s.buckets.remove pivot degree
      minDegree := degree
      pivots := s.pivots.push (pivot, clique) }

/-- Eliminates `count` nodes, one after the other. -/
def State.run : Nat → State → Option State
  | 0, s => some s
  | count + 1, s => do run count (← s.eliminate)

/-- Whether each node has more neighbours than `threshold`. -/
def denseFlags (adjacent : Array (List Nat)) (threshold : Nat) : Array Bool :=
  adjacent.map fun neighbours => threshold < neighbours.length

/-- Those of the given nodes whose flag is `wanted`. -/
def select (flags : Array Bool) (wanted : Bool) : List Nat → Option (List Nat)
  | [] => some []
  | x :: xs => do
      let flag ← flags[x]?
      let rest ← select flags wanted xs
      return if flag = wanted then x :: rest else rest

/-- Takes node `i` out of the graph if it is dense, and the dense nodes out of its list if not. -/
def dropDense (dense : Array Bool) (adjacent : Array (List Nat)) (i : Nat) :
    Option (Array (List Nat)) := do
  let neighbours ← adjacent[i]?
  if ← dense[i]? then Access.write adjacent i []
  else Access.write adjacent i (← select dense false neighbours)

/-- The neighbours of each node in the graph without the dense nodes. -/
def without (adjacent : Array (List Nat)) (dense : Array Bool) : Option (Array (List Nat)) :=
  if dense.any id then (List.range adjacent.size).foldlM (dropDense dense) adjacent
  else some adjacent

/-- The elimination of the nodes that are not dense, and the dense ones. -/
def pivots (p : Pattern) (threshold : Nat) : Option (Array (Nat × List Nat) × List Nat) := do
  let adjacent ← adjacency p
  let dense := denseFlags adjacent threshold
  let sparse ← select dense false (List.range p.n).reverse
  let start ← sparse.foldlM State.enter (.start p.n (← without adjacent dense))
  let final ← start.run sparse.length
  return (final.pivots, ← select dense true (List.range p.n))

/-- The nodes in the order of their elimination, the dense ones at the end. -/
def order (factor : Float) (p : Pattern) : Checked Error (Array Nat) := do
  p.check
  let (pivots, dense) ← pivots p (denseThreshold factor p.n)
  return pivots.map (·.1) ++ dense.toArray

end MinimumDegree

/-- The minimum degree method, with the factor that decides which rows are dense. -/
def minimumDegree (factor : Float) : Method := ⟨"minimum_degree", MinimumDegree.order factor⟩

end Saddle.Elimination
