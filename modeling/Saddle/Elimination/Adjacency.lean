import Saddle.Elimination.Pattern

/-!
# Neighbour lists in reading order

The approximate minimum degree method breaks ties by the order in which a node's
neighbours are listed, and that order comes from the one in which the pattern is
read. Columns are read one after the other, each from its top down to the
diagonal. Meeting row `j` in column `k` yields the edge between the two, and is
the moment to go on reading column `j` below its diagonal, as far as row `k`: the
entries found there are edges of their own, except that an entry in row `k` is
the edge just met, stored a second time. What is still unread below the diagonals
once all columns are through comes last.
-/

namespace Saddle.Elimination

/-- A pattern being read. -/
structure Reading where
  /-- The unread rows below the diagonal of each column that has been reached. -/
  below : Array (List Nat)
  /-- The edges met so far. -/
  edges : Array (Nat × Nat) := #[]

namespace Reading

/-- Skips row `k` if it comes next. -/
def skipRow (k : Nat) (rows : List Nat) : List Nat :=
  if rows.head? = some k then rows.tail else rows

/-- Reads on in column `j`, below its diagonal, as far as row `k`. -/
def readBelow (r : Reading) (j k : Nat) : Reading :=
  let rows := r.below.getD j []
  { below := r.below.setIfInBounds j (skipRow k (rows.dropWhile (· < k)))
    edges := r.edges ++ ((rows.takeWhile (· < k)).map fun i => (i, j)).toArray }

/-- Meets row `j` above the diagonal of column `k`. -/
def meet (k : Nat) (r : Reading) (j : Nat) : Reading :=
  { r with edges := r.edges.push (j, k) }.readBelow j k

/-- Reads column `k`, whose rows increase, down to its diagonal. -/
def readColumn (p : Pattern) (r : Reading) (k : Nat) : Reading :=
  let rows := (p.column? k).getD []
  let r := (rows.takeWhile (· < k)).foldl (meet k) r
  { r with below := r.below.setIfInBounds k (skipRow k (rows.dropWhile (· < k))) }

/-- Reads what column `j` still holds. -/
def readRest (r : Reading) (j : Nat) : Reading :=
  { r with edges := r.edges ++ ((r.below.getD j []).map fun i => (i, j)).toArray }

end Reading

/-- The edges of a pattern, each once, in the order in which they are met. -/
def edges (p : Pattern) : List (Nat × Nat) :=
  let columns := List.range p.n
  let r := columns.foldl (Reading.readColumn p) { below := Array.replicate p.n [] }
  (columns.foldl Reading.readRest r).edges.toList

/-- The neighbours of each node, in the order in which its edges are met. -/
def neighbourLists (p : Pattern) : Array (List Nat) :=
  let lists := (edges p).foldl
    (fun lists (i, j) => (lists.modify i (·.push j)).modify j (·.push i))
    (Array.replicate p.n (#[] : Array Nat))
  lists.map Array.toList

end Saddle.Elimination
