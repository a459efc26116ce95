import Mathlib.Combinatorics.SimpleGraph.Basic
import Mathlib.Data.List.Sort
import Mathlib.Data.Set.Card
import Saddle.Proofs.Elimination.DenseLast

/-!
# Greedy on the elimination graph

What the method keeps are lists, and what it compares are their lengths. Here both are
measured against the graph itself: the graph of the pattern on the nodes that are not
dense, from which one node after the other is taken while its neighbours are joined. A
step on the lists is a step on the graph, and the length of a list is the degree of its
node, so that a shortest list is that of a node of least degree.

The graph after some steps depends on the nodes that have been eliminated, and on
nothing else the method has kept of them.
-/

namespace Saddle.Elimination

/-- The nodes that are not dense. -/
def Pattern.sparseNodes (p : Pattern) (threshold : Nat) : Finset Nat :=
  (Finset.range p.n).filter fun u => p.degree u ≤ threshold

/-- The graph of the pattern on the nodes that are not dense. -/
def Pattern.sparseGraph (p : Pattern) (threshold : Nat) : SimpleGraph Nat where
  Adj u x := p.Adjacent u x ∧ p.degree u ≤ threshold ∧ p.degree x ≤ threshold
  symm := ⟨fun _ _ h => ⟨h.1.symm, h.2.2, h.2.1⟩⟩
  loopless := ⟨fun _ h => h.1.1 rfl⟩

/-- The graph without node `v`, the neighbours of which are joined pairwise. -/
def eliminateNode (G : SimpleGraph Nat) (v : Nat) : SimpleGraph Nat where
  Adj u x := u ≠ x ∧ u ≠ v ∧ x ≠ v ∧ (G.Adj u x ∨ G.Adj u v ∧ G.Adj v x)
  symm := ⟨fun _ _ h => ⟨h.1.symm, h.2.2.1, h.2.1,
    h.2.2.2.imp (·.symm) fun h => ⟨h.2.symm, h.1.symm⟩⟩⟩
  loopless := ⟨fun _ h => h.1 rfl⟩

/-- The graph after the nodes have been eliminated, one after the other. -/
def eliminateNodes (G : SimpleGraph Nat) (vs : List Nat) : SimpleGraph Nat :=
  vs.foldl eliminateNode G

/-- Node `v` is one of the given nodes, and none of them has fewer neighbours. -/
def LeastDegree (G : SimpleGraph Nat) (nodes : Finset Nat) (v : Nat) : Prop :=
  v ∈ nodes ∧ ∀ u ∈ nodes, (G.neighborSet v).encard ≤ (G.neighborSet u).encard

namespace MinimumDegree

/-- The lists name the neighbours in the graph. -/
def Lists (nodes : Finset Nat) (adj : Nat → List Nat) (G : SimpleGraph Nat) : Prop :=
  ∀ u ∈ nodes, ∀ x, x ∈ adj u ↔ G.Adj u x

section Lists

variable {nodes : Finset Nat} {adj : Nat → List Nat} {G : SimpleGraph Nat} {pivot : Nat}
  {picks : List (Nat × List Nat)}

theorem Lists.encard_eq (h : Lists nodes adj G) (hg : Graph nodes adj) {u : Nat} (hu : u ∈ nodes) :
    (G.neighborSet u).encard = (adj u).length := by
  have hset : G.neighborSet u = ((adj u).toFinset : Set Nat) := by
    ext x
    rw [SimpleGraph.mem_neighborSet, Finset.mem_coe, List.mem_toFinset, h u hu]
  rw [hset, Set.encard_coe_eq_coe_finsetCard, List.toFinset_card_of_nodup (hg.nodup u hu)]

theorem Lists.eliminate (h : Lists nodes adj G) (hg : Graph nodes adj) (hp : pivot ∈ nodes) :
    Lists (nodes.erase pivot) (joining adj pivot (adj pivot)) (eliminateNode G pivot) := by
  intro u hu x
  obtain ⟨hup, hun⟩ := Finset.mem_erase.mp hu
  rw [mem_joining hg hp hun hup, h u hun, h pivot hp, h pivot hp]
  constructor
  · rintro (⟨hux, hxp⟩ | ⟨hpu, hpx, hxu⟩)
    · exact ⟨hux.ne, hup, hxp, Or.inl hux⟩
    · exact ⟨hxu.symm, hup, hpx.ne.symm, Or.inr ⟨hpu.symm, hpx⟩⟩
  · rintro ⟨hux, -, hxp, hadj | ⟨hup, hpx⟩⟩
    · exact Or.inl ⟨hadj, hxp⟩
    · exact Or.inr ⟨hup.symm, hpx, hux.symm⟩

/-- Each pick has the least degree that there is in the graph when its turn comes. -/
theorem Greedy.leastDegree (hgreedy : Greedy nodes adj picks) (hg : Graph nodes adj)
    (h : Lists nodes adj G) {k : Nat} (hk : k < picks.length) :
    ∃ v, (picks.map (·.1))[k]? = some v ∧
      LeastDegree (eliminateNodes G ((picks.map (·.1)).take k))
        (nodes \ ((picks.map (·.1)).take k).toFinset) v := by
  -- The induction is on the picks: after the first one the lists are those of the graph that its
  -- elimination leaves, and step `k + 1` is step `k` from there.
  induction hgreedy generalizing G k with
  | done adj => exact absurd hk (Nat.not_lt_zero k)
  | @pick nodes adj pivot picks hp least rest ih =>
      cases k with
      | zero =>
          rw [List.take_zero, List.toFinset_nil, Finset.sdiff_empty]
          refine ⟨pivot, rfl, hp, fun u hu => ?_⟩
          rw [eliminateNodes, List.foldl_nil, h.encard_eq hg hp, h.encard_eq hg hu]
          exact Nat.cast_le.mpr (least u hu)
      | succ k =>
          have hnodes : nodes \ ((((pivot, adj pivot) :: picks).map (·.1)).take (k + 1)).toFinset =
              nodes.erase pivot \ ((picks.map (·.1)).take k).toFinset := by
            rw [List.map_cons, List.take_succ_cons, List.toFinset_cons, Finset.sdiff_insert,
              Finset.erase_sdiff_comm]
          rw [hnodes]
          exact ih (hg.eliminate hp) (h.eliminate hg hp) (Nat.lt_of_succ_lt_succ hk)

end Lists

section Order

variable {p : Pattern} {adj : Nat → List Nat} {threshold : Nat}

theorem toFinset_remaining (p : Pattern) (threshold : Nat) :
    (remaining p.n (p.denseRows threshold)).toFinset = p.sparseNodes threshold := by
  ext u
  rw [List.mem_toFinset, mem_remaining, Pattern.denseRows, Pattern.sparseNodes, List.mem_filter,
    List.mem_range, decide_eq_true_eq, Finset.mem_filter, Finset.mem_range]
  exact and_congr_right fun hu => by rw [and_iff_right hu, Nat.not_lt]

theorem lists_restrict (hp : p.Valid)
    (hadj : ∀ u, (adj u).Pairwise (· < ·) ∧ ∀ x, x ∈ adj u ↔ p.Adjacent u x) :
    Lists (p.sparseNodes threshold) (restrict adj (p.denseRows threshold))
      (p.sparseGraph threshold) := by
  have hdense : ∀ u < p.n, u ∉ p.denseRows threshold ↔ p.degree u ≤ threshold := by
    intro u hu
    rw [Pattern.denseRows, List.mem_filter, List.mem_range, decide_eq_true_eq, and_iff_right hu,
      Nat.not_lt]
  intro u hu x
  obtain ⟨hu, -⟩ := Finset.mem_filter.mp hu
  rw [mem_restrict, (hadj u).2, hdense u (Finset.mem_range.mp hu), Pattern.sparseGraph]
  constructor
  · rintro ⟨hdu, hux, hdx⟩
    exact ⟨hux, hdu, (hdense x (hux.lt hp)).mp hdx⟩
  · rintro ⟨hux, hdu, hdx⟩
    exact ⟨hdu, hux, (hdense x (hux.lt hp)).mpr hdx⟩

/-- Whatever pattern is ordered, each node that is not dense is, when its turn comes, one of least
degree in the graph that the eliminations before it have left. -/
theorem leastDegree_of_order {factor : Float} {perm : Array Nat}
    (h : (order factor p).run = some (.ok perm)) {k : Nat}
    (hk : k < (p.sparseNodes (denseThreshold factor p.n)).card) :
    ∃ v, perm[k]? = some v ∧
      LeastDegree
        (eliminateNodes (p.sparseGraph (denseThreshold factor p.n)) (perm.toList.take k))
        (p.sparseNodes (denseThreshold factor p.n) \ (perm.toList.take k).toFinset) v := by
  obtain ⟨_, hcheck, -⟩ := Checked.run_bind_eq_ok.mp h
  have hp := Pattern.check_eq_ok.mp hcheck
  obtain ⟨perm', adj, picks, hrun, hlist, hadj, hgreedy⟩ := order_of_valid factor hp
  obtain rfl := Except.ok.inj (Option.some.inj (h.symm.trans hrun))
  have hg := graph_restrict hp hadj (p.denseRows (denseThreshold factor p.n))
  rw [toFinset_remaining] at hgreedy hg
  have hlength : (picks.map (·.1)).length = (p.sparseNodes (denseThreshold factor p.n)).card := by
    obtain ⟨hnodup, hset⟩ := hgreedy.picked
    rw [← hset, List.toFinset_card_of_nodup hnodup]
  rw [← hlength] at hk
  -- The dense nodes come after, so the first `k` are picks.
  have htake : perm.toList.take k = (picks.map (·.1)).take k := by
    rw [hlist, List.take_append_of_le_length (Nat.le_of_lt hk)]
  rw [← Array.getElem?_toList, htake, hlist, List.getElem?_append_left hk]
  exact hgreedy.leastDegree hg (lists_restrict hp hadj) (by rwa [List.length_map] at hk)

/-- There is one list in order. This one can be evaluated in a proof. -/
theorem sortDistinct_eq_insertionSort :
    sortDistinct = fun xs => (xs.insertionSort (· ≤ ·)).eraseReps := by
  funext xs
  rw [sortDistinct, List.mergeSort_eq_insertionSort]

/-- A ring of six nodes, and a seventh that is joined to every other one of them; entries are stored
on either side of the diagonal. -/
def prism : Pattern :=
  ⟨7, #[0, 3, 4, 6, 7, 9, 10, 13], #[5, 1, 1, 2, 2, 3, 4, 3, 5, 0, 4, 0, 2]⟩

theorem pivots_prism :
    pivots prism (denseThreshold 10.0 7) = some (#[(1, [0, 2]), (3, [2, 4]), (5, [0, 4]),
      (4, [6, 2, 0]), (0, [6, 2]), (2, [6]), (6, [])], []) := by
  simp only [pivots, adjacency, sortDistinct_eq_insertionSort]
  decide +kernel

theorem order_prism : (order 10.0 prism).run = some (.ok #[1, 3, 5, 4, 0, 2, 6]) := by
  have hcheck : prism.check.run = some (.ok ()) := by decide +kernel
  rw [order, Checked.run_bind_ok hcheck, show prism.n = 7 from rfl, pivots_prism]
  decide +kernel

theorem leastDegree_of_order_prism :
    (order 10.0 prism).run = some (.ok #[1, 3, 5, 4, 0, 2, 6]) ∧
      LeastDegree (eliminateNodes (prism.sparseGraph (denseThreshold 10.0 7)) [1, 3, 5])
        (prism.sparseNodes (denseThreshold 10.0 7) \ [1, 3, 5].toFinset) 4 := by
  have hrun : (order 10.0 prism).run = some (.ok #[1, 3, 5, 4, 0, 2, 6]) := by
    simp only [order, pivots, adjacency, sortDistinct_eq_insertionSort]
    decide +kernel
  have hk : 3 < (prism.sparseNodes (denseThreshold 10.0 7)).card := by decide +kernel
  obtain ⟨v, hv, hleast⟩ := leastDegree_of_order hrun hk
  obtain rfl := Option.some.inj hv
  exact ⟨hrun, hleast⟩

end Order

end MinimumDegree

end Saddle.Elimination
