import Mathlib.Order.Bounds.Defs
import Saddle.Proofs.Elimination.FillPath

/-!
# What decides a tie

The nodes of a bucket stand in the order of their numbers when the method starts. They do
not stay so: whenever a pivot is eliminated its neighbours leave their buckets and come
back in front, also those whose degree is the same as before. So the node that is picked
need not be the lowest of those with the fewest neighbours, and on a graph of two edges it
is not.

What decides between two nodes is the last list of neighbours that names one of them. A
node on that list is ahead of one that is not on it, and of two that are on it the later
one is ahead. The numbers decide if neither has been a neighbour of a pivot yet. As of two
nodes only one can be ahead, this leaves no choice.
-/

namespace Saddle.Elimination

/-- The nodes of least degree once those in `vs` have been eliminated. -/
def tied (G : SimpleGraph Nat) (nodes : Finset Nat) (vs : List Nat) : Set Nat :=
  {u | LeastDegree (eliminateNodes G vs) (nodes \ vs.toFinset) u}

/-- Each node is, when its turn comes, the lowest of those of least degree. -/
def LowestFirst (G : SimpleGraph Nat) (nodes : Finset Nat) (perm : List Nat) : Prop :=
  ∀ k < nodes.card, ∃ v, perm[k]? = some v ∧ IsLeast (tied G nodes (perm.take k)) v

/-- Node `v` is ahead of node `u` after pivots with the given neighbours, the last one first. -/
def Ahead : List (List Nat) → Nat → Nat → Prop
  | [], v, u => v < u
  | clique :: earlier, v, u =>
    if v ∈ clique then u ∈ clique → [u, v].Sublist clique else u ∉ clique ∧ Ahead earlier v u

/-- After the `earlier` picks node `v` has the neighbours in `clique`, and is ahead of all other
nodes that are tied with it. -/
structure Foremost (G : SimpleGraph Nat) (nodes : Finset Nat) (earlier : List (Nat × List Nat))
    (v : Nat) (clique : List Nat) : Prop where
  nodup : clique.Nodup
  neighbours : ∀ x, x ∈ clique ↔ (eliminateNodes G (earlier.map (·.1))).Adj v x
  least : v ∈ tied G nodes (earlier.map (·.1))
  ahead : ∀ u ∈ tied G nodes (earlier.map (·.1)), u ≠ v →
    Ahead (earlier.map (·.2)).reverse v u ∧ ¬ Ahead (earlier.map (·.2)).reverse u v

/-! ## Ties can be computed -/

section Decide

variable {G : SimpleGraph Nat} {nodes : Finset Nat} {u v x n : Nat}

instance decidableAhead : (history : List (List Nat)) → (v u : Nat) → Decidable (Ahead history v u)
  | [], v, u => inferInstanceAs (Decidable (v < u))
  | clique :: earlier, v, u =>
    have := decidableAhead earlier v u
    inferInstanceAs (Decidable
      (if v ∈ clique then u ∈ clique → [u, v].Sublist clique else u ∉ clique ∧ Ahead earlier v u))

instance (p : Pattern) (threshold : Nat) : DecidableRel (p.sparseGraph threshold).Adj := fun u x =>
  inferInstanceAs (Decidable (p.Adjacent u x ∧ p.degree u ≤ threshold ∧ p.degree x ≤ threshold))

instance (G : SimpleGraph Nat) [DecidableRel G.Adj] (v : Nat) :
    DecidableRel (eliminateNode G v).Adj := fun u x =>
  inferInstanceAs (Decidable (u ≠ x ∧ u ≠ v ∧ x ≠ v ∧ (G.Adj u x ∨ G.Adj u v ∧ G.Adj v x)))

instance decidableEliminateNodes : (G : SimpleGraph Nat) → [DecidableRel G.Adj] →
    (vs : List Nat) → DecidableRel (eliminateNodes G vs).Adj
  | _, h, [] => h
  | G, _, v :: vs => decidableEliminateNodes (eliminateNode G v) vs

theorem lt_of_adj_eliminateNodes (hG : ∀ u x, G.Adj u x → x < n) {vs : List Nat}
    (h : (eliminateNodes G vs).Adj u x) : x < n := by
  induction vs generalizing G with
  | nil => exact hG u x h
  | cons v vs ih =>
      refine ih (G := eliminateNode G v) (fun y z hyz => ?_) h
      obtain ⟨-, -, -, hadj | ⟨-, hadj⟩⟩ := hyz
      · exact hG y z hadj
      · exact hG v z hadj

theorem mem_tied {p : Pattern} (hp : p.Valid) {threshold : Nat} {vs : List Nat} :
    v ∈ tied (p.sparseGraph threshold) nodes vs ↔
      v ∈ nodes \ vs.toFinset ∧ ∀ u ∈ nodes \ vs.toFinset,
        ((Finset.range p.n).filter ((eliminateNodes (p.sparseGraph threshold) vs).Adj v)).card ≤
          ((Finset.range p.n).filter
            ((eliminateNodes (p.sparseGraph threshold) vs).Adj u)).card := by
  have hcard : ∀ u, ((eliminateNodes (p.sparseGraph threshold) vs).neighborSet u).encard =
      ((Finset.range p.n).filter ((eliminateNodes (p.sparseGraph threshold) vs).Adj u)).card := by
    intro u
    have hlt : ∀ y z, (p.sparseGraph threshold).Adj y z → z < p.n := fun y z h => h.1.lt hp
    rw [← Set.encard_coe_eq_coe_finsetCard]
    congr 1
    ext x
    simpa using lt_of_adj_eliminateNodes hlt
  rw [tied, Set.mem_ofPred_eq, LeastDegree]
  simp only [hcard, Nat.cast_le]

end Decide

section Ahead

variable {history : List (List Nat)} {line clique : List Nat} {u v : Nat}

theorem not_sublist_swap (h : line.Nodup) (huv : [u, v].Sublist line) :
    ¬ [v, u].Sublist line := by
  induction line with
  | nil => cases huv
  | cons x line ih =>
      obtain ⟨hx, hnodup⟩ := List.nodup_cons.mp h
      intro hvu
      cases huv with
      | cons _ huv =>
          cases hvu with
          | cons _ hvu => exact ih hnodup huv hvu
          | cons_cons _ hvu => exact hx (huv.subset (by simp))
      | cons_cons _ huv =>
          cases hvu with
          | cons _ hvu => exact hx (hvu.subset (by simp))
          | cons_cons _ hvu => exact hx (huv.subset (by simp))

theorem Ahead.asymm (hnodup : ∀ clique ∈ history, clique.Nodup) (h : Ahead history v u) :
    ¬ Ahead history u v := by
  induction history with
  | nil => exact Nat.lt_asymm h
  | cons clique earlier ih =>
      rw [Ahead] at h ⊢
      by_cases hv : v ∈ clique
      · rw [if_pos hv] at h
        by_cases hu : u ∈ clique
        · rw [if_pos hu]
          intro h'
          exact not_sublist_swap (hnodup clique (by simp)) (h hu) (h' hv)
        · rw [if_neg hu]
          exact fun h' => h'.1 hv
      · rw [if_neg hv] at h
        rw [if_neg h.1]
        intro h'
        exact ih (fun c hc => hnodup c (by simp [hc])) h.2 h'.2

-- The last list names both of 0 and 4, and 4 later; of 2 and 0 it names only 0.
example : Ahead [[0, 4], [2, 4], [0, 2]] 4 0 ∧ Ahead [[0, 4], [2, 4], [0, 2]] 0 2 := by decide

end Ahead

namespace MinimumDegree

section Line

variable {history : List (List Nat)} {line clique : List Nat} {pivot u v : Nat}

theorem foldl_toFront (hline : line.Nodup) (hclique : clique.Nodup) :
    clique.foldl toFront line = clique.reverse ++ line.filter (· ∉ clique) := by
  induction clique generalizing line with
  | nil => simp
  | cons x clique ih =>
      obtain ⟨hx, hclique⟩ := List.nodup_cons.mp hclique
      have hnodup : (toFront line x).Nodup :=
        List.nodup_cons.mpr ⟨fun hmem => (hline.mem_erase_iff.mp hmem).1 rfl, hline.erase x⟩
      have hrest : (line.erase x).filter (· ∉ clique) = line.filter (· ∉ x :: clique) := by
        rw [hline.erase_eq_filter, List.filter_filter]
        refine List.filter_congr fun y _ => ?_
        by_cases hy : y = x <;> simp [hy]
      rw [List.foldl_cons, ih hnodup hclique, toFront, List.filter_cons_of_pos (by simpa using hx),
        hrest, List.reverse_cons, List.append_assoc, List.singleton_append]

/-- Who stands in front in the new line is ahead, if this was so in the old one. -/
theorem ahead_requeue (hnodup : line.Nodup) (hclique : clique.Nodup)
    (hline : ∀ v u, [v, u].Sublist line → Ahead history v u)
    (h : [v, u].Sublist (requeue line pivot clique)) : Ahead (clique :: history) v u := by
  have hold : ∀ xs : List Nat, xs.Sublist ((line.erase pivot).filter (· ∉ clique)) →
      xs.Sublist line ∧ ∀ x ∈ xs, x ∉ clique := by
    intro xs hxs
    refine ⟨hxs.trans (List.filter_sublist.trans List.erase_sublist), fun x hx => ?_⟩
    simpa using (List.mem_filter.mp (hxs.subset hx)).2
  rw [requeue, foldl_toFront (hnodup.erase pivot) hclique] at h
  obtain ⟨front, back, hsplit, hfront, hback⟩ := List.sublist_append_iff.mp h
  obtain ⟨hback, hnew⟩ := hold back hback
  rw [Ahead]
  rcases List.cons_eq_append_iff.mp hsplit with ⟨rfl, rfl⟩ | ⟨rest, rfl, hrest⟩
  · rw [if_neg (hnew v (by simp))]
    exact ⟨hnew u (by simp), hline v u hback⟩
  · rw [if_pos (List.mem_reverse.mp (hfront.subset (by simp)))]
    intro hu
    rcases List.cons_eq_append_iff.mp hrest with ⟨rfl, rfl⟩ | ⟨_, rfl, hnil⟩
    · exact absurd hu (hnew u (by simp))
    · obtain ⟨rfl, -⟩ := List.append_eq_nil_iff.mp hnil.symm
      simpa using hfront.reverse

end Line

section Queued

variable {line : List Nat} {adj : Nat → List Nat} {picks : List (Nat × List Nat)}
  {G : SimpleGraph Nat} {nodes : Finset Nat} {v : Nat}

theorem tied_cons (G : SimpleGraph Nat) (nodes : Finset Nat) (v : Nat) (vs : List Nat) :
    tied G nodes (v :: vs) = tied (eliminateNode G v) (nodes.erase v) vs := by
  rw [tied, tied, List.toFinset_cons, Finset.sdiff_insert, Finset.erase_sdiff_comm]
  rfl

/-- Each pick is ahead of all other nodes that have as few neighbours when its turn comes. -/
theorem Queued.ahead (hqueued : Queued line adj picks) (hg : Graph line.toFinset adj)
    (h : Lists line.toFinset adj G) {history : List (List Nat)}
    (hline : ∀ v u, [v, u].Sublist line → Ahead history v u) {k : Nat} {pick : Nat × List Nat}
    (hk : picks[k]? = some pick) {u : Nat}
    (hu : u ∈ tied G line.toFinset ((picks.map (·.1)).take k)) (hne : u ≠ pick.1) :
    Ahead (((picks.take k).map (·.2)).reverse ++ history) pick.1 u := by
  -- The induction is on the picks: a step puts its list in front of the history, and what stands in
  -- line in this order is in line in this order after the step.
  induction hqueued generalizing G history k with
  | done adj => cases hk
  | @pick before after adj pivot picks nodup fewer least rest ih =>
      have hp : pivot ∈ before ++ pivot :: after := by simp
      have hp' := List.mem_toFinset.mpr hp
      cases k with
      | zero =>
          obtain rfl : (pivot, adj pivot) = pick := Option.some.inj hk
          rw [List.take_zero, tied, List.toFinset_nil, Finset.sdiff_empty] at hu
          obtain ⟨hmem, hfewest⟩ := hu
          have hle := hfewest pivot hp'
          rw [eliminateNodes, List.foldl_nil, h.encard_eq hg hmem, h.encard_eq hg hp',
            Nat.cast_le] at hle
          have hafter : u ∈ after := by
            rw [List.mem_toFinset, List.mem_append, List.mem_cons] at hmem
            rcases hmem with hmem | rfl | hmem
            · exact absurd hle (Nat.not_le.mpr (fewer u hmem))
            · exact absurd rfl hne
            · exact hmem
          exact hline pivot u (.trans (.cons_cons _ (List.singleton_sublist.mpr hafter))
            (List.sublist_append_right before _))
      | succ k =>
          have hnext : ∀ v u,
              [v, u].Sublist (requeue (before ++ pivot :: after) pivot (adj pivot)) →
              Ahead (adj pivot :: history) v u := fun v u hvu =>
            ahead_requeue nodup (hg.nodup pivot hp') hline hvu
          have hlists := h.eliminate hg hp'
          rw [List.map_cons, List.take_succ_cons, tied_cons] at hu
          rw [← toFinset_requeue nodup hg hp] at hlists hu
          have hahead := ih (hg.requeue nodup hp) hlists hnext hk hu
          rw [List.take_succ_cons, List.map_cons, List.reverse_cons, List.append_assoc,
            List.singleton_append]
          exact hahead

theorem Queued.foremost (hqueued : Queued line adj picks) (hg : Graph line.toFinset adj)
    (h : Lists line.toFinset adj G) (hline : line.Pairwise (· < ·)) {k : Nat}
    {pick : Nat × List Nat} (hk : picks[k]? = some pick) :
    Foremost G line.toFinset (picks.take k) pick.1 pick.2 := by
  have hgreedy := hqueued.greedy hg
  obtain ⟨hnodup, hmem⟩ := hgreedy.neighbours hg h hk
  obtain ⟨hlt, heq⟩ := List.getElem?_eq_some_iff.mp hk
  obtain ⟨v, hv, hleast⟩ := hgreedy.leastDegree hg h hlt
  obtain rfl : pick.1 = v := by
    rw [List.getElem?_map, hk] at hv
    exact Option.some.inj hv
  have hcliques : ∀ clique ∈ ((picks.take k).map (·.2)).reverse, clique.Nodup := by
    intro clique hclique
    obtain ⟨earlier, hearlier, rfl⟩ := List.mem_map.mp (List.mem_reverse.mp hclique)
    obtain ⟨i, hi⟩ := List.mem_iff_getElem?.mp (List.mem_of_mem_take hearlier)
    exact (hgreedy.neighbours hg h hi).1
  rw [← List.map_take] at hmem hleast
  refine ⟨hnodup, hmem, hleast, fun u hu hne => ?_⟩
  rw [List.map_take] at hu
  have hstart : ∀ v u, [v, u].Sublist line → Ahead [] v u := fun v u hvu =>
    List.pairwise_iff_forall_sublist.mp hline hvu
  have hahead := hqueued.ahead hg h hstart hk hu hne
  rw [List.append_nil] at hahead
  exact ⟨hahead, hahead.asymm hcliques⟩

end Queued

section Order

variable {p : Pattern} {factor : Float} {perm : Array Nat}

/-- On every pattern that is ordered, each node that is not dense is, when its turn comes, the
foremost of those that have the least degree. -/
theorem foremost_of_order (h : (order factor p).run = some (.ok perm)) :
    ∃ picks,
      pivots p (denseThreshold factor p.n) =
        some (picks, p.denseRows (denseThreshold factor p.n)) ∧
      ∀ k < (p.sparseNodes (denseThreshold factor p.n)).card, ∃ v clique,
        perm[k]? = some v ∧ picks[k]? = some (v, clique) ∧
        Foremost (p.sparseGraph (denseThreshold factor p.n))
          (p.sparseNodes (denseThreshold factor p.n)) (picks.toList.take k) v clique := by
  obtain ⟨_, hcheck, -⟩ := Checked.run_bind_eq_ok.mp h
  have hp := Pattern.check_eq_ok.mp hcheck
  obtain ⟨adj, picks, hpivots, hrun, hadj, hqueued⟩ := pivots_of_valid factor hp
  obtain rfl := Except.ok.inj (Option.some.inj (hrun.symm.trans h))
  have hg := graph_restrict hp hadj (p.denseRows (denseThreshold factor p.n))
  have hlists : Lists (p.sparseNodes (denseThreshold factor p.n)) _ _ := lists_restrict hp hadj
  have hlength : picks.size = (p.sparseNodes (denseThreshold factor p.n)).card := by
    obtain ⟨hnodup, hset⟩ := (hqueued.greedy hg).picked
    rw [← toFinset_remaining, ← hset, List.toFinset_card_of_nodup hnodup, List.length_map,
      Array.length_toList]
  rw [← toFinset_remaining] at hlists ⊢
  refine ⟨picks, hpivots, fun k hk => ?_⟩
  rw [toFinset_remaining, ← hlength] at hk
  have hpick := Array.getElem?_eq_getElem hk
  refine ⟨picks[k].1, picks[k].2, ?_, hpick, ?_⟩
  · rw [Array.getElem?_append_left (by simpa using hk), Array.getElem?_map, hpick]
    rfl
  · exact hqueued.foremost hg hlists (List.pairwise_lt_range.filter _)
      (Array.getElem?_toList.trans hpick)

/-- A node with two neighbours. -/
def cherry : Pattern := ⟨3, #[0, 0, 0, 2], #[0, 1]⟩

/-- Once node 0 is gone the others have one neighbour each, and node 2 comes before node 1. -/
theorem not_lowestFirst_cherry :
    ∃ perm, (order 10.0 cherry).run = some (.ok perm) ∧
      ¬ LowestFirst (cherry.sparseGraph (denseThreshold 10.0 3))
        (cherry.sparseNodes (denseThreshold 10.0 3)) perm.toList := by
  have hcheck : cherry.check.run = some (.ok ()) := by decide +kernel
  have hp := Pattern.check_eq_ok.mp hcheck
  have hrun : (order 10.0 cherry).run = some (.ok #[0, 2, 1]) := by
    simp only [order, pivots, adjacency, sortDistinct_eq_insertionSort]
    decide +kernel
  refine ⟨_, hrun, fun h => ?_⟩
  obtain ⟨v, hv, -, hlowest⟩ := h 1 (by decide +kernel)
  obtain rfl : 2 = v := Option.some.inj hv
  have htied : 1 ∈ tied (cherry.sparseGraph (denseThreshold 10.0 3))
      (cherry.sparseNodes (denseThreshold 10.0 3)) [0] :=
    (mem_tied hp).mpr (by decide +kernel)
  exact absurd (hlowest htied) (by decide)

/-- Pivots 1, 3 and 5 leave four nodes that are neighbours of one another. -/
theorem foremost_of_order_prism :
    (order 10.0 prism).run = some (.ok #[1, 3, 5, 4, 0, 2, 6]) ∧
      0 ∈ tied (prism.sparseGraph (denseThreshold 10.0 7))
        (prism.sparseNodes (denseThreshold 10.0 7)) [1, 3, 5] ∧
      Foremost (prism.sparseGraph (denseThreshold 10.0 7))
        (prism.sparseNodes (denseThreshold 10.0 7)) [(1, [0, 2]), (3, [2, 4]), (5, [0, 4])]
        4 [6, 2, 0] := by
  have hcheck : prism.check.run = some (.ok ()) := by decide +kernel
  have hp := Pattern.check_eq_ok.mp hcheck
  refine ⟨order_prism, (mem_tied hp).mpr (by decide +kernel), ?_⟩
  obtain ⟨picks, hpicks, hforemost⟩ := foremost_of_order order_prism
  obtain ⟨rfl, -⟩ := Prod.mk.inj (Option.some.inj (pivots_prism.symm.trans hpicks))
  obtain ⟨v, clique, -, hpick, h⟩ := hforemost 3 (by decide +kernel)
  obtain ⟨rfl, rfl⟩ := Prod.mk.inj (Option.some.inj hpick)
  exact h

end Order

end MinimumDegree

end Saddle.Elimination
