import Mathlib.Combinatorics.SimpleGraph.Acyclic
import Saddle.Proofs.Elimination.FillCount

/-!
# Forests are eliminated without fill

As long as a forest has nodes, one of them has at most one neighbour: a path that could
always be continued would be longer than there are nodes, for in a forest it never comes
back to itself. So a node of least degree has at most one neighbour. To eliminate it joins
nobody, and what is left is a part of the forest. Each edge is counted once, when the first
of its two ends goes.

The method has to look for such a node. A star that is eliminated from its hub is full at
once.
-/

namespace Saddle.Elimination

section Acyclic

variable {G : SimpleGraph Nat} {nodes : Finset Nat} {u v : Nat}

/-- Where every node has two neighbours, a path can always be continued. -/
theorem exists_path_of_two_neighbours (hG : G.IsAcyclic) (hin : ∀ u x, G.Adj u x → u ∈ nodes)
    (htwo : ∀ u ∈ nodes, ∃ x y, G.Adj u x ∧ G.Adj u y ∧ x ≠ y) (hu : u ∈ nodes) (k : Nat) :
    ∃ x, ∃ p : G.Walk u x, p.IsPath ∧ p.length = k ∧ ∀ z ∈ p.support, z ∈ nodes := by
  induction k with
  | zero => exact ⟨u, .nil, .nil, rfl, by simpa using hu⟩
  | succ k ih =>
      obtain ⟨x, p, hp, hlength, hnodes⟩ := ih
      -- One of the two neighbours is not where the path has come from.
      obtain ⟨y, hxy, hy⟩ : ∃ y, G.Adj x y ∧ y ≠ p.penultimate := by
        obtain ⟨y, z, hxy, hxz, hyz⟩ := htwo x (hnodes x p.end_mem_support)
        by_cases hy : y = p.penultimate
        · exact ⟨z, hxz, fun hz => hyz (hy.trans hz.symm)⟩
        · exact ⟨y, hxy, hy⟩
      have hnew : y ∉ p.support := fun hmem => hy (hG.eq_penultimate_of_adj_end hp hxy hmem)
      refine ⟨y, p.concat hxy, hp.concat hnew hxy, ?_, ?_⟩
      · rw [SimpleGraph.Walk.length_concat, hlength]
      · intro z hz
        rw [SimpleGraph.Walk.support_concat, List.mem_append, List.mem_singleton] at hz
        rcases hz with hz | rfl
        · exact hnodes z hz
        · exact hin z x hxy.symm

theorem exists_leaf (hG : G.IsAcyclic) (hin : ∀ u x, G.Adj u x → u ∈ nodes)
    (hne : nodes.Nonempty) : ∃ u ∈ nodes, ∀ x y, G.Adj u x → G.Adj u y → x = y := by
  by_contra hnone
  push Not at hnone
  obtain ⟨u, hu⟩ := hne
  obtain ⟨x, p, hp, hlength, hnodes⟩ := exists_path_of_two_neighbours hG hin hnone hu nodes.card
  have hsubset : p.support.toFinset ⊆ nodes := fun z hz => hnodes z (List.mem_toFinset.mp hz)
  have hcard := Finset.card_le_card hsubset
  rw [List.toFinset_card_of_nodup hp.support_nodup, SimpleGraph.Walk.length_support, hlength]
    at hcard
  omega

theorem eliminateNode_le (hleaf : ∀ x y, G.Adj v x → G.Adj v y → x = y) :
    eliminateNode G v ≤ G := by
  intro u x h
  obtain ⟨hux, -, -, hadj | ⟨huv, hvx⟩⟩ := h
  · exact hadj
  · exact absurd (hleaf u x huv.symm hvx) hux

theorem edgeSet_eliminateNode (hleaf : ∀ x y, G.Adj v x → G.Adj v y → x = y) :
    (eliminateNode G v).edgeSet = G.edgeSet \ G.incidenceSet v := by
  ext e
  induction e using Sym2.ind with
  | _ u x =>
      rw [Set.mem_sdiff, SimpleGraph.mem_edgeSet, SimpleGraph.mem_edgeSet,
        SimpleGraph.mk'_mem_incidenceSet_iff]
      constructor
      · intro h
        refine ⟨eliminateNode_le hleaf h, fun hv => ?_⟩
        rcases hv.2 with rfl | rfl
        · exact h.2.1 rfl
        · exact h.2.2.1 rfl
      · intro h
        have hv : v ≠ u ∧ v ≠ x := by tauto
        exact ⟨h.1.ne, hv.1.symm, hv.2.symm, Or.inl h.1⟩

theorem encard_edgeSet_eliminateNode (hleaf : ∀ x y, G.Adj v x → G.Adj v y → x = y) :
    (eliminateNode G v).edgeSet.encard + (G.neighborSet v).encard = G.edgeSet.encard := by
  have hsubset : G.incidenceSet v ⊆ G.edgeSet := G.incidenceSet_subset v
  rw [edgeSet_eliminateNode hleaf, ← Set.encard_congr (G.incidenceSetEquivNeighborSet v),
    Set.encard_sdiff_add_encard_of_subset hsubset]

end Acyclic

namespace MinimumDegree

open Csc Factor

section Greedy

variable {nodes : Finset Nat} {adj : Nat → List Nat} {picks : List (Nat × List Nat)}
  {G : SimpleGraph Nat} {pivot : Nat}

theorem leaf_of_least (hg : Graph nodes adj) (h : Lists nodes adj G)
    (hin : ∀ u x, G.Adj u x → u ∈ nodes) (hG : G.IsAcyclic) (hp : pivot ∈ nodes)
    (least : ∀ u ∈ nodes, (adj pivot).length ≤ (adj u).length) {x y : Nat}
    (hx : G.Adj pivot x) (hy : G.Adj pivot y) : x = y := by
  obtain ⟨u, hu, hleaf⟩ := exists_leaf hG hin ⟨pivot, hp⟩
  have hone : (adj u).toFinset.card ≤ 1 := by
    refine Finset.card_le_one.mpr fun x hx y hy => hleaf x y ?_ ?_
    · exact (h u hu x).mp (List.mem_toFinset.mp hx)
    · exact (h u hu y).mp (List.mem_toFinset.mp hy)
  have hpivot := least u hu
  rw [← List.toFinset_card_of_nodup (hg.nodup u hu),
    ← List.toFinset_card_of_nodup (hg.nodup pivot hp)] at hpivot
  exact Finset.card_le_one.mp (hpivot.trans hone) x (List.mem_toFinset.mpr ((h pivot hp x).mpr hx))
    y (List.mem_toFinset.mpr ((h pivot hp y).mpr hy))

/-- A greedy run on a forest counts its edges. -/
theorem Greedy.encard_edgeSet (hgreedy : Greedy nodes adj picks) (hg : Graph nodes adj)
    (h : Lists nodes adj G) (hin : ∀ u x, G.Adj u x → u ∈ nodes) (hG : G.IsAcyclic) :
    G.edgeSet.encard = (picks.map (·.2.length)).sum := by
  induction hgreedy generalizing G with
  | done adj =>
      have hempty : G.edgeSet = ∅ := by
        refine Set.eq_empty_of_forall_notMem fun e => ?_
        induction e using Sym2.ind with
        | _ u x => exact fun hadj => absurd (hin u x hadj) (Finset.notMem_empty u)
      rw [hempty, Set.encard_empty]
      rfl
  | @pick nodes adj pivot picks hp least rest ih =>
      have hleaf : ∀ x y, G.Adj pivot x → G.Adj pivot y → x = y := fun x y hx hy =>
        leaf_of_least hg h hin hG hp least hx hy
      have hin' : ∀ u x, (eliminateNode G pivot).Adj u x → u ∈ nodes.erase pivot := fun u x hux =>
        Finset.mem_erase.mpr ⟨hux.2.1, hin u x (eliminateNode_le hleaf hux)⟩
      have hrest := ih (hg.eliminate hp) (h.eliminate hg hp) hin' (hG.anti (eliminateNode_le hleaf))
      rw [← encard_edgeSet_eliminateNode hleaf, hrest, h.encard_eq hg hp, List.map_cons,
        List.sum_cons, Nat.cast_add, add_comm]

end Greedy

section Matrix

variable {α : Type} {a c : Csc α}

theorem encard_edgeSet_graph (ha : a.Valid) (hu : a.Upper) :
    (graph a).edgeSet.encard = (a.cellList.filter fun c => c.row ≠ c.column).length := by
  have hedges : (graph a).edgeSet =
      (((a.cellList.filter fun c => c.row ≠ c.column).map fun c =>
        s(c.row, c.column)).toFinset : Set (Sym2 Nat)) := by
    ext e
    rw [Finset.mem_coe, List.mem_toFinset, List.mem_map]
    simp only [List.mem_filter, decide_eq_true_eq]
    induction e using Sym2.ind with
    | _ u x =>
        rw [SimpleGraph.mem_edgeSet]
        constructor
        · intro h
          obtain ⟨hux, v, hv⟩ := (adj_iff_mem_cellList hu).mp h
          refine ⟨_, ⟨hv, ?_⟩, ?_⟩
          · exact (min_lt_max.mpr hux).ne
          · rcases Nat.le_total u x with hle | hle
            · rw [min_eq_left hle, max_eq_right hle]
            · rw [min_eq_right hle, max_eq_left hle, Sym2.eq_swap]
        · intro h
          obtain ⟨cell, ⟨hcell, hne⟩, heq⟩ := h
          obtain ⟨hcolumn, he⟩ := mem_cellsBefore.mp hcell
          rw [← SimpleGraph.mem_edgeSet, ← heq, SimpleGraph.mem_edgeSet]
          exact adj_of_entry hcolumn he hne
  have hnodup : ((a.cellList.filter fun c => c.row ≠ c.column).map fun c =>
      s(c.row, c.column)).Nodup := by
    refine List.pairwise_map.mpr (List.Pairwise.imp_of_mem ?_
      ((List.pairwise_map.mp ha.pairwise_cellList).filter _))
    intro c d hc hd hlt heq
    have hc := row_le_of_mem_cellList hu (List.mem_filter.mp hc).1
    have hd := row_le_of_mem_cellList hu (List.mem_filter.mp hd).1
    simp only [Cell.PlaceLt, Cell.place] at hlt
    rcases Sym2.eq_iff.mp heq with heq | heq <;> omega
  rw [hedges, Set.encard_coe_eq_coe_finsetCard, List.toFinset_card_of_nodup hnodup,
    List.length_map]

theorem analyze_of_diagonal {old new : Nat → Nat} {r : Renumbering} (hc : Relabels new a c)
    (hr : Renumbers a.ncols r old new) (hdiag : ∀ j < a.ncols, ∃ e ∈ a.col j, e.1 = j) :
    ∃ s, Analyzed c s ∧ (analyze c).run =
      some (if s.total ≤ maxSize then .ok s else .error .countOverflow) := by
  refine analyze_spec hc.valid.toFramed.readable hc.upper fun j hj => ?_
  rw [hc.ncols_eq] at hj
  have hold := hr.old_lt j hj
  obtain ⟨⟨_, x⟩, he, rfl⟩ := hdiag (old j) hold
  have hcell := (hc.mem_iff (old j) hold (old j) hold x).mpr
    (by rw [max_self, min_self]; exact mem_cellsBefore.mpr ⟨hold, he⟩)
  rw [hr.new_old j hj, max_self, min_self] at hcell
  exact List.ne_nil_of_mem (mem_cellsBefore.mp hcell).2

/-- A matrix with all of its diagonal, no dense row and a forest off the diagonal is ordered such
that its factor has no more entries than it has itself; so these can be counted as well. -/
theorem total_of_forest [Zero α] (factor : Float) (ha : a.check.run = some (.ok ()))
    (hu : a.checkUpper.run = some (.ok ())) (hnnz : a.nnz ≤ maxSize)
    (hdiag : ∀ j < a.ncols, ∃ e ∈ a.col j, e.1 = j) (hforest : (graph a).IsAcyclic)
    (hdense : (Pattern.ofMatrix a).denseRows (denseThreshold factor a.ncols) = []) :
    ∃ r c moved s,
      (renumbering (minimumDegree factor) a).run = some (.ok r) ∧
      (a.permuteSymmetric r.newOf).run = some (.ok (c, moved)) ∧
      (analyze c).run = some (.ok s) ∧
      s.total = (a.cellList.filter fun c => c.row ≠ c.column).length := by
  have hvalid := check_eq_ok.mp ha
  have hupper := (checkUpper_eq_ok hvalid).mp hu
  obtain ⟨adj, picks, r, old, new, -, hr, hold, hnew, hg, hlists, hgreedy⟩ :=
    renumbering_of_valid factor hvalid hupper hdense
  obtain ⟨c, moved, hrun, hc⟩ := relabels_of_permuteSymmetric hvalid hupper hnew.newOf
    (Kkt.labels_of_renumbers hnew)
  obtain ⟨s, hanalyzed, hs⟩ := analyze_of_diagonal hc hnew hdiag
  have hin : ∀ u x, (graph a).Adj u x → u ∈ Finset.range a.ncols := fun u x hux =>
    Finset.mem_range.mpr (lt_ncols_of_adj hupper hux.symm)
  have hedges := hgreedy.encard_edgeSet hg hlists hin hforest
  rw [encard_edgeSet_graph hvalid hupper, Nat.cast_inj] at hedges
  have hcounts := counts_eq_of_greedy hnew hc hupper hold hg hlists hgreedy
    (hanalyzed.describes hc.upper)
  have htotal : s.total = (a.cellList.filter fun c => c.row ≠ c.column).length := by
    rw [hanalyzed.total_eq, hcounts, ← Array.sum_toList, Array.toList_map, hedges]
  have hle : s.total ≤ maxSize :=
    calc s.total
        ≤ a.cellList.length := htotal.trans_le (List.length_filter_le _ _)
      _ = a.nnz := hvalid.toFramed.length_cellList
      _ ≤ maxSize := hnnz
  exact ⟨r, c, moved, s, hr, hrun, hs.trans (by rw [if_pos hle]), htotal⟩

theorem isAcyclic_of_columns (hu : a.Upper)
    (hone : ∀ k < a.ncols, ∀ e ∈ a.col k, ∀ e' ∈ a.col k, e.1 < k → e'.1 < k → e.1 = e'.1) :
    (graph a).IsAcyclic := by
  intro u w hw
  -- The last node of a cycle has two neighbours on it, and both are earlier ones.
  obtain ⟨m, hm, hmax⟩ := Finset.exists_max_image w.support.toFinset id
    ⟨u, List.mem_toFinset.mpr w.start_mem_support⟩
  rw [List.mem_toFinset] at hm
  have hcycle := hw.rotate hm
  have hbelow : ∀ x ∈ (w.rotate m hm).support, x ≠ m → x < m := by
    intro x hx hxm
    have hle := hmax x (List.mem_toFinset.mpr ((w.mem_support_rotate_iff m hm).mp hx))
    exact Nat.lt_of_le_of_ne hle hxm
  have hfirst := SimpleGraph.Walk.adj_snd hcycle.not_nil
  have hlast := SimpleGraph.Walk.adj_penultimate hcycle.not_nil
  have hlt := hbelow _ (SimpleGraph.Walk.getVert_mem_support _ 1) hfirst.ne'
  have hlt' := hbelow _ (SimpleGraph.Walk.getVert_mem_support _ _) hlast.ne
  obtain ⟨hk, e, he, heq⟩ := entry_of_adj hu hfirst.symm hlt
  obtain ⟨-, e', he', heq'⟩ := entry_of_adj hu hlast hlt'
  refine hcycle.snd_ne_penultimate ?_
  rw [← heq, ← heq']
  exact hone m hk e he e' he' (heq ▸ hlt) (heq' ▸ hlt')

/-- A star with its hub in front, a path and a node on its own. -/
def grove : Csc Nat :=
  ⟨8, 8, #[0, 1, 3, 5, 7, 8, 10, 12, 13], #[0, 0, 1, 0, 2, 0, 3, 4, 4, 5, 5, 6, 7],
    #[9, 1, 9, 1, 9, 1, 9, 9, 1, 9, 1, 9, 9]⟩

/-- In the order of the numbers the star alone would have six entries. -/
theorem total_of_forest_grove :
    ∃ r c moved s, (renumbering (minimumDegree 10.0) grove).run = some (.ok r) ∧
      (grove.permuteSymmetric r.newOf).run = some (.ok (c, moved)) ∧
      (analyze c).run = some (.ok s) ∧ s.total = 5 := by
  have ha : grove.check.run = some (.ok ()) := by decide +kernel
  have hu : grove.checkUpper.run = some (.ok ()) := by decide +kernel
  have hupper := (checkUpper_eq_ok (check_eq_ok.mp ha)).mp hu
  exact total_of_forest 10.0 ha hu (by decide) (by decide +kernel)
    (isAcyclic_of_columns hupper (by decide +kernel)) (by decide +kernel)

end Matrix

end MinimumDegree

end Saddle.Elimination
