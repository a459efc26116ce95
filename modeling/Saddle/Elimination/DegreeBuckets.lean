import Saddle.Access

/-!
# Nodes by degree

For every degree there is a bucket, the list of the nodes that have it, with the one
inserted last in front. The lists are linked through arrays indexed by node, so that
a node is taken out of the middle of its bucket without a search: `after` leads
towards the end of a list and `before` towards its front. Of a node that is in no
bucket these arrays keep stale entries, which insertion overwrites.
-/

namespace Saddle.Elimination

/-- Linked lists of nodes, one for each degree. -/
structure DegreeBuckets where
  /-- The first node of each degree. -/
  first : Array (Option Nat)
  /-- The node after each node in its bucket. -/
  after : Array (Option Nat)
  /-- The node before each node in its bucket. -/
  before : Array (Option Nat)
deriving Repr, BEq, DecidableEq

namespace DegreeBuckets

/-- No node among `n` is in a bucket. -/
def empty (n : Nat) : DegreeBuckets :=
  ⟨Array.replicate n none, Array.replicate n none, Array.replicate n none⟩

/-- Makes `neighbour` the entry for `node` in an array of links, if there is such a node. -/
def link (links : Array (Option Nat)) (node neighbour : Option Nat) :
    Option (Array (Option Nat)) :=
  match node with
  | some i => Access.write links i neighbour
  | none => some links

/-- Puts node `i`, which is in no bucket, in front of the bucket of `degree`. -/
def insert (b : DegreeBuckets) (i degree : Nat) : Option DegreeBuckets := do
  let following ← b.first[degree]?
  let before ← link b.before following (some i)
  return {
    first := ← Access.write b.first degree (some i)
    after := ← Access.write b.after i following
    before := ← Access.write before i none }

/-- Takes node `i` out of the bucket of `degree`, in which it is. -/
def remove (b : DegreeBuckets) (i degree : Nat) : Option DegreeBuckets := do
  let following ← b.after[i]?
  let preceding ← b.before[i]?
  let before ← link b.before following preceding
  match preceding with
  | some j => return { b with after := ← Access.write b.after j following, before }
  | none => return { b with first := ← Access.write b.first degree following, before }

/-- The smallest degree from `degree` on whose bucket is not empty, and the first node of that
bucket. There is none once the search has passed the last bucket. -/
def firstFrom (b : DegreeBuckets) (degree : Nat) : Option (Nat × Nat) :=
  (List.range' degree (b.first.size - degree)).findSome? fun d =>
    (b.first[d]?).join.map fun i => (d, i)

end DegreeBuckets

end Saddle.Elimination
