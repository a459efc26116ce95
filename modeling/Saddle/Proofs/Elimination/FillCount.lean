import Saddle.Proofs.Elimination.FillPath
import Saddle.Proofs.Factor.Relabel
import Saddle.Proofs.Kkt.Assembly

/-!
# The order knows the fill

When a pivot is eliminated, its neighbours are what its column of the factor is going to
hold. The ordering counts them on lists that it joins, the analysis by walks up the
elimination tree of the matrix that has been renumbered, and the two agree because both
are about paths: a neighbour is reached through nodes that are gone, and an entry of the
factor through columns that come earlier. That these are the same nodes is what the
renumbering by the order makes sure of.

Nothing of this depends on how the pivots are chosen, except that the record of a run is
what is counted here.
-/

namespace Saddle.Elimination.MinimumDegree

open Csc Factor

variable {α : Type} {a c : Csc α}

/-! ## The graph of a matrix -/

section Matrix

variable {u x : Nat} {threshold : Nat}

theorem n_ofMatrix (a : Csc α) : (Pattern.ofMatrix a).n = a.ncols := rfl

theorem mem_rows_ofMatrix (ha : a.Valid) (hu : u < a.ncols) :
    x ∈ (Pattern.ofMatrix a).rows u ↔ ∃ e ∈ a.col u, e.1 = x := by
  have hrows : (Pattern.ofMatrix a).rows u = (a.col u).map (·.1) :=
    (map_fst_entriesAt (ha.ptr_le hu) (ha.ptr_le' hu)).symm
  rw [hrows, List.mem_map]

theorem adjacent_ofMatrix (ha : a.Valid) :
    (Pattern.ofMatrix a).Adjacent u x ↔ (graph a).Adj u x := by
  rw [Pattern.Adjacent, graph, SimpleGraph.fromRel_adj]
  refine and_congr ne_comm ?_
  rw [or_comm]
  exact or_congr (and_congr_right fun hx => mem_rows_ofMatrix ha hx)
    (and_congr_right fun hu => mem_rows_ofMatrix ha hu)

theorem sparseGraph_ofMatrix (ha : a.Valid) (hu : a.Upper)
    (hdense : (Pattern.ofMatrix a).denseRows threshold = []) :
    (Pattern.ofMatrix a).sparseGraph threshold = graph a := by
  have hsparse : ∀ u < a.ncols, (Pattern.ofMatrix a).degree u ≤ threshold := by
    intro u hu
    have hall := List.filter_eq_nil_iff.mp hdense u (List.mem_range.mpr hu)
    simpa using hall
  ext u x
  rw [Pattern.sparseGraph, ← adjacent_ofMatrix ha]
  refine and_iff_left_of_imp fun h => ?_
  have hadj := (adjacent_ofMatrix ha).mp h
  exact ⟨hsparse u (lt_ncols_of_adj hu hadj.symm), hsparse x (lt_ncols_of_adj hu hadj)⟩

end Matrix

/-! ## Entries of the factor -/

section Filled

variable {r : Renumbering} {old new : Nat → Nat} {k m z : Nat}

theorem mem_take_oldOf (hr : Renumbers a.ncols r old new) (hk : k ≤ a.ncols) :
    z ∈ r.oldOf.toList.take k ↔ z < a.ncols ∧ new z < k := by
  rw [List.mem_iff_getElem?]
  simp only [List.getElem?_take, Array.getElem?_toList]
  constructor
  · intro h
    obtain ⟨j, hget⟩ := h
    obtain ⟨hj, hget⟩ := Option.ite_none_right_eq_some.mp hget
    rw [hr.oldOf.get j (by omega)] at hget
    obtain rfl := Option.some.inj hget
    rw [hr.new_old j (by omega)]
    exact ⟨hr.old_lt j (by omega), hj⟩
  · intro h
    refine ⟨new z, ?_⟩
    rw [if_pos h.2, hr.oldOf.get _ (hr.new_lt z h.1), hr.old_new z h.1]

theorem nodup_oldOf (hr : Renumbers a.ncols r old new) : r.oldOf.toList.Nodup := by
  rw [hr.oldOf.toList_eq]
  refine List.Nodup.map_on ?_ List.nodup_range
  intro i hi j hj hij
  rw [← hr.new_old i (List.mem_range.mp hi), hij, hr.new_old j (List.mem_range.mp hj)]

theorem old_mem_take (hr : Renumbers a.ncols r old new) (hk : k ≤ a.ncols) {j : Nat}
    (hj : j < a.ncols) : old j ∈ r.oldOf.toList.take k ↔ j < k := by
  rw [mem_take_oldOf hr hk, hr.new_old j hj, and_iff_right (hr.old_lt j hj)]

theorem adj_old (hr : Renumbers a.ncols r old new) (hc : Relabels new a c) (hu : a.Upper)
    {i j : Nat} (h : (graph c).Adj i j) : (graph a).Adj (old i) (old j) := by
  have hi : i < a.ncols := hc.ncols_eq ▸ lt_ncols_of_adj hc.upper h.symm
  have hj : j < a.ncols := hc.ncols_eq ▸ lt_ncols_of_adj hc.upper h
  rw [← hr.new_old i hi, ← hr.new_old j hj] at h
  exact (hc.adj_iff hu (Kkt.labels_of_renumbers hr) (hr.old_lt i hi) (hr.old_lt j hj)).mp h

theorem adj_new (hr : Renumbers a.ncols r old new) (hc : Relabels new a c) (hu : a.Upper)
    {i j : Nat} (h : (graph a).Adj i j) : (graph c).Adj (new i) (new j) :=
  (hc.adj_iff hu (Kkt.labels_of_renumbers hr) (lt_ncols_of_adj hu h.symm)
    (lt_ncols_of_adj hu h)).mpr h

theorem linkedThrough_of_filled (hr : Renumbers a.ncols r old new) (hc : Relabels new a c)
    (hu : a.Upper) (hk : k < a.ncols) (h : Filled c k m) :
    LinkedThrough (graph a) (r.oldOf.toList.take k) (old k) (old m) := by
  obtain ⟨-, w, -, hinner⟩ := h
  refine ⟨w.map ⟨old, adj_old hr hc hu⟩, ?_⟩
  intro z hz
  rw [SimpleGraph.Walk.support_map, List.mem_map] at hz
  obtain ⟨v, hv, rfl⟩ := hz
  -- Between its ends the path stays below `k`, where the nodes are gone.
  by_cases hvk : v = k
  · exact Or.inl (congrArg old hvk)
  · by_cases hvm : v = m
    · exact Or.inr (Or.inl (congrArg old hvm))
    · have hlow := hinner v hv hvk hvm
      exact Or.inr (Or.inr ((old_mem_take hr hk.le (by omega)).mpr hlow))

theorem filled_of_linkedThrough (hr : Renumbers a.ncols r old new) (hc : Relabels new a c)
    (hu : a.Upper) (hk : k < a.ncols) (hm : m < a.ncols) (hkm : k < m)
    (h : LinkedThrough (graph a) (r.oldOf.toList.take k) (old k) (old m)) : Filled c k m := by
  obtain ⟨w, hw⟩ := h
  refine filled_of_low hkm
    ⟨(w.map ⟨new, adj_new hr hc hu⟩).copy (hr.new_old k hk) (hr.new_old m hm), ?_⟩
  intro v hv
  rw [SimpleGraph.Walk.support_copy, SimpleGraph.Walk.support_map, List.mem_map] at hv
  obtain ⟨z, hz, rfl⟩ := hv
  rcases hw z hz with rfl | rfl | hz
  · exact Or.inl (Nat.le_of_eq (hr.new_old k hk))
  · exact Or.inr (hr.new_old m hm)
  · exact Or.inl ((mem_take_oldOf hr hk.le).mp hz).2.le

/-- The factor of a renumbered matrix has an entry in row `m` of column `k` exactly if the two nodes
that have these numbers are neighbours once the nodes numbered before `k` are gone. -/
theorem filled_iff_adj (hr : Renumbers a.ncols r old new) (hc : Relabels new a c) (hu : a.Upper)
    (hk : k < a.ncols) :
    Filled c k m ↔ m < a.ncols ∧
      (eliminateNodes (graph a) (r.oldOf.toList.take k)).Adj (old k) (old m) := by
  rw [adj_eliminateNodes ((nodup_oldOf hr).sublist (List.take_sublist k _)),
    old_mem_take hr hk.le hk]
  constructor
  · intro h
    have hkm := h.1
    have hm : m < a.ncols := hc.ncols_eq ▸ h.lt_ncols hc.upper
    refine ⟨hm, fun heq => ?_, Nat.lt_irrefl k, ?_, linkedThrough_of_filled hr hc hu hk h⟩
    · rw [← hr.new_old k hk, ← hr.new_old m hm, heq] at hkm
      exact absurd hkm (Nat.lt_irrefl _)
    · rw [old_mem_take hr hk.le hm]
      omega
  · intro h
    obtain ⟨hm, hne, -, hmk, hlink⟩ := h
    have hkm : k ≠ m := fun heq => hne (congrArg old heq)
    rw [old_mem_take hr hk.le hm] at hmk
    exact filled_of_linkedThrough hr hc hu hk hm (by omega) hlink

theorem ncard_filled (hr : Renumbers a.ncols r old new) (hc : Relabels new a c) (hu : a.Upper)
    (hk : k < a.ncols) {clique : List Nat} (hnodup : clique.Nodup)
    (hmem : ∀ x, x ∈ clique ↔
      (eliminateNodes (graph a) (r.oldOf.toList.take k)).Adj (old k) x) :
    {m | Filled c k m}.ncard = clique.length := by
  have hlt : ∀ x ∈ clique, x < a.ncols := by
    intro x hx
    obtain ⟨hne, -, -, w, -⟩ :=
      (adj_eliminateNodes ((nodup_oldOf hr).sublist (List.take_sublist k _))).mp ((hmem x).mp hx)
    exact lt_ncols_of_walk hu w hne
  have hset : {m | Filled c k m} = ((clique.map new).toFinset : Set Nat) := by
    ext m
    rw [Set.mem_ofPred_eq, filled_iff_adj hr hc hu hk, ← hmem, Finset.mem_coe, List.mem_toFinset,
      List.mem_map]
    constructor
    · intro h
      exact ⟨old m, h.2, hr.new_old m h.1⟩
    · intro h
      obtain ⟨x, hx, rfl⟩ := h
      rw [hr.old_new x (hlt x hx)]
      exact ⟨hr.new_lt x (hlt x hx), hx⟩
  rw [hset, Set.ncard_coe_finset, List.toFinset_card_of_nodup, List.length_map]
  refine hnodup.map_on fun x hx y hy hxy => ?_
  rw [← hr.old_new x (hlt x hx), hxy, hr.old_new y (hlt y hy)]

end Filled

/-! ## Counting -/

section Counts

variable {factor : Float} {adj : Nat → List Nat} {picks : Array (Nat × List Nat)} {s : Symbolic}

/-- Column by column, the analysis counts what the record of the run has counted. -/
theorem counts_eq_of_greedy {r : Renumbering} {old new : Nat → Nat}
    (hr : Renumbers a.ncols r old new) (hc : Relabels new a c) (hu : a.Upper)
    (hold : r.oldOf = picks.map (·.1)) {nodes : Finset Nat} (hg : Graph nodes adj)
    (hlists : Lists nodes adj (graph a)) (hgreedy : Greedy nodes adj picks.toList)
    (hd : Describes s c) : s.counts = picks.map (·.2.length) := by
  have hsize : picks.size = a.ncols := by
    rw [← hr.oldOf.size_eq, hold, Array.size_map]
  refine Array.ext_getElem? fun k => ?_
  rw [Array.getElem?_map]
  rcases Nat.lt_or_ge k a.ncols with hk | hk
  · have hpick := Array.getElem?_eq_getElem (hsize.symm ▸ hk : k < picks.size)
    obtain ⟨hnodup, hmem⟩ := hgreedy.neighbours hg hlists (Array.getElem?_toList.trans hpick)
    have hfirst : picks[k].1 = old k := by
      have hget := hr.oldOf.get k hk
      rw [hold, Array.getElem?_map, hpick] at hget
      exact Option.some.inj hget
    rw [← Array.toList_map, ← hold, hfirst] at hmem
    rw [hpick, hd.counts_eq k (hc.ncols_eq ▸ hk), ncard_filled hr hc hu hk hnodup hmem]
    rfl
  · rw [Array.getElem?_eq_none (by rw [hd.size_counts, hc.ncols_eq]; exact hk),
      Array.getElem?_eq_none (by rw [hsize]; exact hk)]
    rfl

/-- A matrix without dense rows is renumbered by a greedy run on its graph. -/
theorem renumbering_of_valid (factor : Float) (ha : a.Valid) (hu : a.Upper)
    (hdense : (Pattern.ofMatrix a).denseRows (denseThreshold factor a.ncols) = []) :
    ∃ adj picks r old new,
      pivots (.ofMatrix a) (denseThreshold factor a.ncols) = some (picks, []) ∧
      (renumbering (minimumDegree factor) a).run = some (.ok r) ∧
      r.oldOf = picks.map (·.1) ∧ Renumbers a.ncols r old new ∧
      Graph (Finset.range a.ncols) adj ∧ Lists (Finset.range a.ncols) adj (graph a) ∧
      Greedy (Finset.range a.ncols) adj picks.toList := by
  have hp := Pattern.valid_ofMatrix ha hu.square
  obtain ⟨adj, picks, hpivots, hrun, hadj, hqueued⟩ := pivots_of_valid factor hp
  have hordered : ((minimumDegree factor).order (.ofMatrix a)).run = some (.ok _) := hrun
  have hg := graph_restrict hp hadj
    ((Pattern.ofMatrix a).denseRows (denseThreshold factor a.ncols))
  have hlists : Lists ((Pattern.ofMatrix a).sparseNodes (denseThreshold factor a.ncols)) _ _ :=
    lists_restrict hp hadj
  have hgreedy := hqueued.greedy hg
  have hperm := perm_of_greedy hgreedy
  rw [← toFinset_remaining, sparseGraph_ofMatrix ha hu hdense] at hlists
  rw [n_ofMatrix, hdense] at hpivots hordered hgreedy hg hlists hperm
  rw [List.append_nil] at hperm
  rw [Array.append_empty] at hordered
  have hnodes : (remaining a.ncols []).toFinset = Finset.range a.ncols := by
    ext u
    rw [List.mem_toFinset, mem_remaining, Finset.mem_range]
    exact and_iff_left List.not_mem_nil
  rw [hnodes] at hg hgreedy hlists
  obtain ⟨r, hr, hold⟩ := renumbering_of_perm hordered (by rwa [Array.toList_map])
  obtain ⟨old, new, hnew⟩ := renumbering_eq_ok hr
  exact ⟨_, picks, r, old, new, hpivots, hr, hold, hnew, hg, hlists, hgreedy⟩

/-- Where no row is dense, the matrix is ordered and renumbered, and the analysis of what results
counts in each column as many entries as the pivot of that turn had neighbours. -/
theorem counts_of_order [Zero α] (factor : Float) (ha : a.check.run = some (.ok ()))
    (hu : a.checkUpper.run = some (.ok ()))
    (hdense : (Pattern.ofMatrix a).denseRows (denseThreshold factor a.ncols) = []) :
    ∃ picks r c moved,
      pivots (.ofMatrix a) (denseThreshold factor a.ncols) = some (picks, []) ∧
      (renumbering (minimumDegree factor) a).run = some (.ok r) ∧
      r.oldOf = picks.map (·.1) ∧
      (a.permuteSymmetric r.newOf).run = some (.ok (c, moved)) ∧
      ∀ s, (analyze c).run = some (.ok s) →
        s.counts = picks.map (·.2.length) ∧ s.total = (picks.map (·.2.length)).sum := by
  have hvalid := check_eq_ok.mp ha
  have hupper := (checkUpper_eq_ok hvalid).mp hu
  obtain ⟨adj, picks, r, old, new, hpivots, hr, hold, hnew, hg, hlists, hgreedy⟩ :=
    renumbering_of_valid factor hvalid hupper hdense
  obtain ⟨c, moved, hrun, hc⟩ := relabels_of_permuteSymmetric hvalid hupper hnew.newOf
    (Kkt.labels_of_renumbers hnew)
  refine ⟨picks, r, c, moved, hpivots, hr, hold, hrun, fun s hs => ?_⟩
  have hcounts := counts_eq_of_greedy hnew hc hupper hold hg hlists hgreedy
    (.of_analyze hc.valid.toFramed hs)
  refine ⟨hcounts, ?_⟩
  rw [(analyzed_of_analyze hc.valid.toFramed hs).total_eq, hcounts]

/-- A ring of six nodes, and a seventh that is joined to every other one of them. -/
def mesh : Csc Nat :=
  ⟨7, 7, #[0, 1, 3, 5, 7, 9, 12, 16], #[0, 0, 1, 1, 2, 2, 3, 3, 4, 0, 4, 5, 0, 2, 4, 6],
    #[9, 1, 9, 1, 9, 1, 9, 1, 9, 1, 1, 9, 1, 1, 1, 9]⟩

/-- `mesh` in the order of elimination. -/
def meshInOrder : Csc Nat :=
  ⟨7, 7, #[0, 1, 2, 3, 6, 9, 12, 16], #[0, 1, 2, 1, 2, 3, 0, 2, 4, 0, 1, 5, 3, 4, 5, 6],
    #[9, 9, 9, 1, 1, 9, 1, 1, 9, 1, 1, 9, 1, 1, 1, 9]⟩

/-- The fourth pivot has gained a neighbour by the eliminations before it, and the fifth one two. -/
theorem counts_of_order_mesh :
    ∃ moved s,
      (mesh.permuteSymmetric #[4, 0, 5, 1, 3, 2, 6]).run = some (.ok (meshInOrder, moved)) ∧
      (analyze meshInOrder).run = some (.ok s) ∧
      s.counts = #[2, 2, 2, 3, 2, 1, 0] ∧ s.total = 12 := by
  have hpivots : pivots (.ofMatrix mesh) (denseThreshold 10.0 mesh.ncols) =
      some (#[(1, [0, 2]), (3, [2, 4]), (5, [0, 4]), (4, [6, 2, 0]), (0, [6, 2]), (2, [6]),
        (6, [])], []) := by
    simp only [pivots, adjacency, sortDistinct_eq_insertionSort]
    decide +kernel
  have hrenumbering : (renumbering (minimumDegree 10.0) mesh).run =
      some (.ok ⟨#[1, 3, 5, 4, 0, 2, 6], #[4, 0, 5, 1, 3, 2, 6]⟩) := by
    simp only [renumbering, minimumDegree, order, pivots, adjacency, sortDistinct_eq_insertionSort]
    decide +kernel
  have hpermuted : (mesh.permuteSymmetric #[4, 0, 5, 1, 3, 2, 6]).run =
      some (.ok (meshInOrder, #[8, 6, 0, 9, 11, 10, 1, 3, 5, 7, 4, 2, 13, 14, 12, 15])) := by
    simp only [permuteSymmetric, moveEntries, sortColumn_eq_insertionSort]
    decide +kernel
  obtain ⟨picks, r, c, moved, hpicks, hr, -, hc, hcounts⟩ := counts_of_order 10.0
    (show mesh.check.run = some (.ok ()) by decide +kernel) (by decide +kernel) (by decide +kernel)
  obtain ⟨rfl, -⟩ := Prod.mk.inj (Option.some.inj (hpivots.symm.trans hpicks))
  obtain rfl := Except.ok.inj (Option.some.inj (hrenumbering.symm.trans hr))
  obtain ⟨rfl, -⟩ := Prod.mk.inj (Except.ok.inj (Option.some.inj (hpermuted.symm.trans hc)))
  have hs : (analyze meshInOrder).run =
      some (.ok ⟨7, #[some 4, some 3, some 3, some 4, some 5, some 6, none],
        #[2, 2, 2, 3, 2, 1, 0], 12⟩) := by
    decide +kernel
  obtain ⟨hcount, htotal⟩ := hcounts _ hs
  exact ⟨moved, _, hc, hs, hcount.trans (by simp), htotal.trans (by simp)⟩

end Counts

end Saddle.Elimination.MinimumDegree
