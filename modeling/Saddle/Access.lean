/-!
# Reading and writing arrays that may be too short

The kernels follow indices they find in other arrays: row numbers, column
pointers, parents in a tree, slots of a map. Nothing in the type of such an
array says that its indices stay inside the array they point into, and a caller
may hand in data for which they do not. So every access is an `Option`, and
`none` is what a kernel answers once it has left its arrays, or followed a chain
of indices for longer than any chain can be. Such an answer is told apart from a
refusal, which names a cause: `Checked` keeps the two on separate levels, so that
"no access is out of bounds" and "the call is accepted" are different statements.
-/

namespace Saddle

/-- A computation over arrays: `none` if it left them, else a refusal or a result. -/
abbrev Checked (ε β : Type) := ExceptT ε Option β

/-- The largest size, index or count: the largest number of 64 bits. -/
def maxSize : Nat := Nat.pow 2 64 - 1

namespace Access

variable {β : Type}

/-- Replaces the entry at `i`. -/
def write (xs : Array β) (i : Nat) (x : β) : Option (Array β) :=
  if h : i < xs.size then some (xs.set i x h) else none

/-- Applies `f` to the entry at `i`. -/
def adjust (xs : Array β) (i : Nat) (f : β → β) : Option (Array β) :=
  if h : i < xs.size then some (xs.set i (f xs[i]) h) else none

/-- The entries at the positions from `start` up to but not including `stop`,
which have to be in order and inside the array. -/
def slice (xs : Array β) (start stop : Nat) : Option (List β) :=
  if start ≤ stop ∧ stop ≤ xs.size then some (xs.extract start stop).toList else none

/-- Adds to each of the `count` entries after the first the one before it, from the front. -/
def accumulate (sums : Array Nat) (count : Nat) : Option (Array Nat) :=
  (List.range count).foldlM (fun sums j => do
    let before ← sums[j]?
    adjust sums (j + 1) (· + before)) sums

end Access

end Saddle
