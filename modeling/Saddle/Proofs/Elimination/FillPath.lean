import Mathlib.Combinatorics.SimpleGraph.Paths
import Saddle.Proofs.Elimination.EliminationGraph

/-!
# Elimination and paths

Eliminating nodes one after the other joins two of the others exactly if a walk leads
from one to the other through nodes that are gone. The last node eliminated decides the
step: a path that avoids it was there before, and one that does not is cut by it into two
pieces that were. So the graph that is left does not depend on the order in which the
nodes went, although every single step looks only at the neighbours of one of them.

Of a greedy run this says which nodes each pivot has on its list when its turn comes.
-/

namespace Saddle.Elimination

/-- A walk leads from `u` to `x`, and through no other nodes than those in `vs`. -/
def LinkedThrough (G : SimpleGraph Nat) (vs : List Nat) (u x : Nat) : Prop :=
  ∃ w : G.Walk u x, ∀ z ∈ w.support, z = u ∨ z = x ∨ z ∈ vs

section Paths

variable {G : SimpleGraph Nat} {vs : List Nat} {u v x : Nat}

theorem LinkedThrough.symm (h : LinkedThrough G vs u x) : LinkedThrough G vs x u := by
  obtain ⟨w, hw⟩ := h
  refine ⟨w.reverse, ?_⟩
  intro z hz
  rw [SimpleGraph.Walk.support_reverse, List.mem_reverse] at hz
  exact or_left_comm.mp (hw z hz)

theorem LinkedThrough.mono {vs' : List Nat} (h : LinkedThrough G vs u x) (hvs : vs ⊆ vs') :
    LinkedThrough G vs' u x := by
  obtain ⟨w, hw⟩ := h
  exact ⟨w, fun z hz => (hw z hz).imp_right (Or.imp_right fun hz => hvs hz)⟩

theorem LinkedThrough.append (h : LinkedThrough G vs u v) (h' : LinkedThrough G vs v x) :
    LinkedThrough G (vs ++ [v]) u x := by
  obtain ⟨w, hw⟩ := h
  obtain ⟨w', hw'⟩ := h'
  refine ⟨w.append w', ?_⟩
  intro z hz
  rw [List.mem_append, List.mem_singleton]
  rcases (w.mem_support_append_iff w').mp hz with hz | hz
  · have := hw z hz
    tauto
  · have := hw' z hz
    tauto

/-- The part of a path up to a node `v` on it avoids both the other end and `v`. -/
theorem linkedThrough_of_mem_path {p : G.Walk u x} (hp : p.IsPath) (hv : v ∈ p.support)
    (hvx : v ≠ x) (hinner : ∀ z ∈ p.support, z = u ∨ z = x ∨ z ∈ vs ++ [v]) :
    LinkedThrough G vs u v := by
  refine ⟨p.takeUntil v hv, ?_⟩
  intro z hz
  have hzx : z ≠ x := by
    rintro rfl
    exact SimpleGraph.Walk.endpoint_notMem_support_takeUntil hp hv hvx.symm hz
  have := hinner z (p.support_takeUntil_subset_support hv hz)
  rw [List.mem_append, List.mem_singleton] at this
  tauto

theorem linkedThrough_nil : LinkedThrough G [] u x ∧ u ≠ x ↔ G.Adj u x := by
  constructor
  · intro h
    obtain ⟨⟨w, hw⟩, hux⟩ := h
    cases w with
    | nil => exact absurd rfl hux
    | @cons _ y _ hadj w =>
        have hy := hw y (by simp)
        rcases hy with rfl | rfl | hy
        · exact absurd hadj G.irrefl
        · exact hadj
        · exact absurd hy List.not_mem_nil
  · intro h
    refine ⟨⟨h.toWalk, ?_⟩, h.ne⟩
    intro z hz
    simp at hz
    tauto

theorem adj_eliminateNode :
    (eliminateNode G v).Adj u x ↔
      u ≠ x ∧ u ≠ v ∧ x ≠ v ∧ (G.Adj u x ∨ G.Adj u v ∧ G.Adj v x) := Iff.rfl

theorem eliminateNodes_snoc (G : SimpleGraph Nat) (vs : List Nat) (v : Nat) :
    eliminateNodes G (vs ++ [v]) = eliminateNode (eliminateNodes G vs) v := by
  rw [eliminateNodes, eliminateNodes, List.foldl_append]
  rfl

/-- Two nodes that are left are neighbours exactly if they are linked through those that are
not. -/
theorem adj_eliminateNodes (hvs : vs.Nodup) :
    (eliminateNodes G vs).Adj u x ↔ u ≠ x ∧ u ∉ vs ∧ x ∉ vs ∧ LinkedThrough G vs u x := by
  induction vs using List.reverseRecOn generalizing u x with
  | nil =>
      rw [eliminateNodes, List.foldl_nil, ← linkedThrough_nil]
      simp only [List.not_mem_nil, not_false_eq_true, true_and]
      exact and_comm
  | append_singleton vs v ih =>
      obtain ⟨hvs, -, hdisjoint⟩ := List.nodup_append.mp hvs
      have hv : v ∉ vs := fun hmem => hdisjoint v hmem v (by simp) rfl
      rw [eliminateNodes_snoc, adj_eliminateNode, ih hvs, ih hvs, ih hvs]
      simp only [List.mem_append, List.mem_singleton, not_or]
      constructor
      · intro h
        obtain ⟨hux, huv, hxv, ⟨-, hu, hx, hlink⟩ | ⟨⟨-, hu, -, hlink⟩, -, -, hx, hlink'⟩⟩ := h
        · exact ⟨hux, ⟨hu, huv⟩, ⟨hx, hxv⟩, hlink.mono (by simp)⟩
        · exact ⟨hux, ⟨hu, huv⟩, ⟨hx, hxv⟩, hlink.append hlink'⟩
      · intro h
        obtain ⟨hux, ⟨hu, huv⟩, ⟨hx, hxv⟩, w, hw⟩ := h
        refine ⟨hux, huv, hxv, ?_⟩
        -- A path has at most one piece on either side of the last node.
        have hpath := w.bypass_isPath
        have hinner : ∀ z ∈ w.bypass.support, z = u ∨ z = x ∨ z ∈ vs ++ [v] := fun z hz =>
          hw z (w.support_bypass_subset_support hz)
        by_cases hmem : v ∈ w.bypass.support
        · right
          have hinner' : ∀ z ∈ w.bypass.reverse.support, z = x ∨ z = u ∨ z ∈ vs ++ [v] := by
            intro z hz
            rw [SimpleGraph.Walk.support_reverse, List.mem_reverse] at hz
            exact or_left_comm.mp (hinner z hz)
          have hleft := linkedThrough_of_mem_path hpath hmem (Ne.symm hxv) hinner
          have hright := linkedThrough_of_mem_path hpath.reverse (by simpa using hmem)
            (Ne.symm huv) hinner'
          exact ⟨⟨huv, hu, hv, hleft⟩, Ne.symm hxv, hv, hx, hright.symm⟩
        · left
          refine ⟨hux, hu, hx, w.bypass, ?_⟩
          intro z hz
          have := hinner z hz
          rw [List.mem_append, List.mem_singleton] at this
          have hzv : z ≠ v := fun heq => hmem (heq ▸ hz)
          tauto

end Paths

namespace MinimumDegree

section Greedy

variable {nodes : Finset Nat} {adj : Nat → List Nat} {picks : List (Nat × List Nat)}
  {G : SimpleGraph Nat}

/-- The list that is recorded with a pick names its neighbours at the time, each once. -/
theorem Greedy.neighbours (hgreedy : Greedy nodes adj picks) (hg : Graph nodes adj)
    (h : Lists nodes adj G) {k : Nat} {pick : Nat × List Nat} (hk : picks[k]? = some pick) :
    pick.2.Nodup ∧
      ∀ x, x ∈ pick.2 ↔ (eliminateNodes G ((picks.map (·.1)).take k)).Adj pick.1 x := by
  induction hgreedy generalizing G k with
  | done adj => cases hk
  | @pick nodes adj pivot picks hp least rest ih =>
      cases k with
      | zero =>
          obtain rfl : (pivot, adj pivot) = pick := Option.some.inj hk
          exact ⟨hg.nodup pivot hp, h pivot hp⟩
      | succ k => exact ih (hg.eliminate hp) (h.eliminate hg hp) hk

end Greedy

end MinimumDegree

end Saddle.Elimination
