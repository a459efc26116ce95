import Mathlib.Data.Finset.Card
import Mathlib.Data.Finset.Dedup
import Mathlib.Logic.Function.Basic
import Saddle.Elimination.MinimumDegree

/-!
# Eliminating a node of a graph

The method keeps a graph as a list of neighbours for each node that is left, and the
lists have to agree with one another: they name no node twice, no node that is gone and
not the node itself, and each of two neighbours is in the list of the other. Eliminating
a node takes it out of the lists of its neighbours and puts these into the lists of each
other, one list at a time. In between the lists disagree; afterwards they are those of
the graph in which the neighbours form a clique.

As a list names only other nodes of the graph, it is shorter than their number. That is
why a degree is always the number of a bucket.
-/

namespace Saddle.Elimination.MinimumDegree

/-- The lists are those of a graph on the given nodes. -/
structure Graph (nodes : Finset Nat) (adj : Nat → List Nat) : Prop where
  nodup : ∀ u ∈ nodes, (adj u).Nodup
  mem : ∀ u ∈ nodes, ∀ x ∈ adj u, x ∈ nodes
  irrefl : ∀ u ∈ nodes, u ∉ adj u
  symm : ∀ u ∈ nodes, ∀ x ∈ adj u, u ∈ adj x

/-- The neighbours of `u` once its neighbour `pivot` is eliminated, which had the neighbours in
`clique`. -/
def joined (pivot : Nat) (clique : List Nat) (u : Nat) (neighbours : List Nat) : List Nat :=
  let kept := neighbours.filter (· ≠ pivot)
  kept ++ clique.filter fun x => x ≠ u && !kept.contains x

/-- The lists while `pivot` is eliminated, the nodes in `done` having been joined. -/
def joining (adj : Nat → List Nat) (pivot : Nat) (done : List Nat) (u : Nat) : List Nat :=
  if u = pivot then []
  else if u ∈ done then joined pivot (adj pivot) u (adj u)
  else adj u

section Joined

variable {pivot u x : Nat} {clique neighbours : List Nat}

theorem mem_joined :
    x ∈ joined pivot clique u neighbours ↔
      (x ∈ neighbours ∧ x ≠ pivot) ∨ (x ∈ clique ∧ x ≠ u) := by
  simp only [joined, List.mem_append, List.mem_filter, List.contains_eq_mem, Bool.and_eq_true,
    Bool.not_eq_true', decide_eq_true_eq, decide_eq_false_iff_not]
  by_cases hx : x ∈ neighbours ∧ x ≠ pivot
  · exact iff_of_true (Or.inl hx) (Or.inl hx)
  · simp only [hx, false_or, not_false_eq_true, and_true]

theorem nodup_joined (hn : neighbours.Nodup) (hc : clique.Nodup) :
    (joined pivot clique u neighbours).Nodup := by
  refine List.nodup_append.mpr ⟨hn.filter _, hc.filter _, fun x hx y hy heq => ?_⟩
  subst heq
  obtain ⟨-, hfresh⟩ := List.mem_filter.mp hy
  rw [Bool.and_eq_true, Bool.not_eq_true', List.contains_eq_mem] at hfresh
  exact of_decide_eq_false hfresh.2 hx

end Joined

section Graph

variable {nodes : Finset Nat} {adj : Nat → List Nat} {pivot u x : Nat}

theorem Graph.length_lt (h : Graph nodes adj) (hu : u ∈ nodes) :
    (adj u).length < nodes.card := by
  rw [← List.toFinset_card_of_nodup (h.nodup u hu)]
  refine Finset.card_lt_card (Finset.ssubset_iff_subset_ne.mpr ⟨fun x hx => ?_, fun heq => ?_⟩)
  · exact h.mem u hu x (List.mem_toFinset.mp hx)
  · rw [← heq, List.mem_toFinset] at hu
    exact h.irrefl u (heq ▸ List.mem_toFinset.mpr hu) hu

theorem joining_nil (adj : Nat → List Nat) (pivot : Nat) :
    joining adj pivot [] = Function.update adj pivot [] := by
  funext u
  rw [joining, Function.update_apply, if_neg List.not_mem_nil]

theorem joining_snoc (adj : Nat → List Nat) {done : List Nat} (hx : x ≠ pivot) :
    joining adj pivot (done ++ [x]) =
      Function.update (joining adj pivot done) x (joined pivot (adj pivot) x (adj x)) := by
  funext u
  rw [Function.update_apply]
  by_cases hux : u = x
  · rw [if_pos hux, hux, joining, if_neg hx, if_pos (by simp)]
  · rw [if_neg hux, joining, joining]
    simp only [List.mem_append, List.mem_singleton, hux, or_false]

theorem mem_joining (h : Graph nodes adj) (hp : pivot ∈ nodes) (hu : u ∈ nodes) (hup : u ≠ pivot) :
    x ∈ joining adj pivot (adj pivot) u ↔
      (x ∈ adj u ∧ x ≠ pivot) ∨ (u ∈ adj pivot ∧ x ∈ adj pivot ∧ x ≠ u) := by
  rw [joining, if_neg hup]
  by_cases hclique : u ∈ adj pivot
  · rw [if_pos hclique, mem_joined]
    simp only [hclique, true_and]
  · have hpivot : pivot ∉ adj u := fun hmem => hclique (h.symm u hu pivot hmem)
    rw [if_neg hclique]
    simp only [hclique, false_and, or_false, iff_self_and]
    rintro hx rfl
    exact hpivot hx

/-- What is left is a graph again. -/
theorem Graph.eliminate (h : Graph nodes adj) (hp : pivot ∈ nodes) :
    Graph (nodes.erase pivot) (joining adj pivot (adj pivot)) := by
  have hmem : ∀ u ∈ nodes.erase pivot, u ≠ pivot ∧ u ∈ nodes := fun u hu => Finset.mem_erase.mp hu
  refine ⟨fun u hu => ?_, fun u hu x hx => ?_, fun u hu hx => ?_, fun u hu x hx => ?_⟩ <;>
    obtain ⟨hup, hun⟩ := hmem u hu
  · rw [joining, if_neg hup]
    split
    · exact nodup_joined (h.nodup u hun) (h.nodup pivot hp)
    · exact h.nodup u hun
  · rw [Finset.mem_erase]
    rcases (mem_joining h hp hun hup).mp hx with ⟨hx, hxp⟩ | ⟨-, hx, -⟩
    · exact ⟨hxp, h.mem u hun x hx⟩
    · exact ⟨fun heq => h.irrefl pivot hp (heq ▸ hx), h.mem pivot hp x hx⟩
  · rcases (mem_joining h hp hun hup).mp hx with ⟨hx, -⟩ | ⟨-, -, hne⟩
    · exact h.irrefl u hun hx
    · exact hne rfl
  · rcases (mem_joining h hp hun hup).mp hx with ⟨hx, hxp⟩ | ⟨hu', hx, hne⟩
    · exact (mem_joining h hp (h.mem u hun x hx) hxp).mpr (Or.inl ⟨h.symm u hun x hx, hup⟩)
    · have hxp : x ≠ pivot := fun heq => h.irrefl pivot hp (heq ▸ hx)
      exact (mem_joining h hp (h.mem pivot hp x hx) hxp).mpr (Or.inr ⟨hx, hu', hne.symm⟩)

end Graph

end Saddle.Elimination.MinimumDegree
