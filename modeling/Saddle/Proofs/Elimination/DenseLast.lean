import Saddle.Proofs.Elimination.MinimumDegree

/-!
# Every pattern is ordered or refused

The minimum degree method ends in one of two ways, on any pattern and with any factor.
A pattern that cannot be followed is refused, with a defect that it has. On every other
pattern the search for a node succeeds as often as there are nodes that are not dense,
and each of these is found once: a node that has been picked is out of the buckets, and
no other is. What is left are the dense nodes, in the order of their numbers.

A node is dense by the number of different nodes that it shares an entry with, wherever
and however often the entries are stored.
-/

namespace Saddle.Elimination

open Checked

instance (p : Pattern) (u x : Nat) : Decidable (p.Adjacent u x) :=
  inferInstanceAs (Decidable (x ≠ u ∧ (u < p.n ∧ x ∈ p.rows u ∨ x < p.n ∧ u ∈ p.rows x)))

/-- The number of neighbours of node `u`. -/
def Pattern.degree (p : Pattern) (u : Nat) : Nat :=
  ((Finset.range p.n).filter fun x => p.Adjacent u x).card

/-- The nodes with more neighbours than `threshold`, in increasing order. -/
def Pattern.denseRows (p : Pattern) (threshold : Nat) : List Nat :=
  (List.range p.n).filter fun u => threshold < p.degree u

namespace MinimumDegree

section Dense

variable {p : Pattern} {adj : Nat → List Nat}

theorem length_eq_degree (hp : p.Valid) {u : Nat} {xs : List Nat} (hinc : xs.Pairwise (· < ·))
    (hmem : ∀ x, x ∈ xs ↔ p.Adjacent u x) : xs.length = p.degree u := by
  have hset : xs.toFinset = (Finset.range p.n).filter fun x => p.Adjacent u x := by
    ext x
    rw [List.mem_toFinset, hmem, Finset.mem_filter, Finset.mem_range]
    exact (and_iff_right_of_imp fun h => h.lt hp).symm
  rw [Pattern.degree, ← hset, List.toFinset_card_of_nodup (hinc.imp Nat.ne_of_lt)]

theorem denseNodes_eq (hp : p.Valid)
    (hadj : ∀ u, (adj u).Pairwise (· < ·) ∧ ∀ x, x ∈ adj u ↔ p.Adjacent u x) (threshold : Nat) :
    denseNodes p.n adj threshold = p.denseRows threshold := by
  rw [denseNodes, Pattern.denseRows]
  refine List.filter_congr fun u _ => ?_
  rw [length_eq_degree hp (hadj u).1 (hadj u).2]

theorem perm_remaining_append (p : Pattern) (threshold : Nat) :
    (remaining p.n (p.denseRows threshold) ++ p.denseRows threshold).Perm (List.range p.n) := by
  have hrest : remaining p.n (p.denseRows threshold) =
      (List.range p.n).filter fun u => !decide (threshold < p.degree u) := by
    refine List.filter_congr fun u hu => ?_
    have hdense : u ∈ p.denseRows threshold ↔ threshold < p.degree u := by
      rw [Pattern.denseRows, List.mem_filter, decide_eq_true_eq, and_iff_right hu]
    rw [List.contains_eq_mem, decide_eq_decide.mpr hdense]
  rw [hrest, Pattern.denseRows]
  exact List.perm_append_comm.trans (List.filter_append_perm _ _)

end Dense

section Greedy

variable {nodes : Finset Nat} {adj : Nat → List Nat} {picks : List (Nat × List Nat)}

theorem Greedy.picked (h : Greedy nodes adj picks) :
    (picks.map (·.1)).Nodup ∧ (picks.map (·.1)).toFinset = nodes := by
  induction h with
  | done adj => exact ⟨List.nodup_nil, rfl⟩
  | @pick nodes adj pivot picks hp least rest ih =>
      obtain ⟨hnodup, hset⟩ := ih
      -- The later picks are among the nodes that are left.
      have hnew : pivot ∉ picks.map (·.1) := by
        rw [← List.mem_toFinset, hset]
        exact Finset.notMem_erase pivot nodes
      refine ⟨List.nodup_cons.mpr ⟨hnew, hnodup⟩, ?_⟩
      rw [List.map_cons, List.toFinset_cons, hset, Finset.insert_erase hp]

end Greedy

section Order

variable {p : Pattern}

/-- On a pattern that can be followed the order is that of the picks, and the dense nodes come
after. -/
theorem pivots_of_valid (factor : Float) (hp : p.Valid) :
    ∃ adj picks,
      pivots p (denseThreshold factor p.n) =
        some (picks, p.denseRows (denseThreshold factor p.n)) ∧
      (order factor p).run =
        some (.ok (picks.map (·.1) ++ (p.denseRows (denseThreshold factor p.n)).toArray)) ∧
      (∀ u, (adj u).Pairwise (· < ·) ∧ ∀ x, x ∈ adj u ↔ p.Adjacent u x) ∧
      Queued (remaining p.n (p.denseRows (denseThreshold factor p.n)))
        (restrict adj (p.denseRows (denseThreshold factor p.n))) picks.toList := by
  obtain ⟨adj, picks, hpivots, hadj, hqueued⟩ := pivots_spec hp (denseThreshold factor p.n)
  rw [denseNodes_eq hp hadj] at hpivots hqueued
  refine ⟨adj, picks, hpivots, ?_, hadj, hqueued⟩
  rw [order, run_bind_ok (Pattern.check_eq_ok.mpr hp), hpivots]
  rfl

/-- A pattern that can be followed is ordered, greedily and with the dense nodes last. -/
theorem order_of_valid (factor : Float) (hp : p.Valid) :
    ∃ perm adj picks, (order factor p).run = some (.ok perm) ∧
      perm.toList = picks.map (·.1) ++ p.denseRows (denseThreshold factor p.n) ∧
      (∀ u, (adj u).Pairwise (· < ·) ∧ ∀ x, x ∈ adj u ↔ p.Adjacent u x) ∧
      Greedy (remaining p.n (p.denseRows (denseThreshold factor p.n))).toFinset
        (restrict adj (p.denseRows (denseThreshold factor p.n))) picks := by
  obtain ⟨adj, picks, -, hrun, hadj, hqueued⟩ := pivots_of_valid factor hp
  refine ⟨_, adj, picks.toList, hrun, ?_, hadj, hqueued.greedy (graph_restrict hp hadj _)⟩
  rw [Array.toList_append, Array.toList_map]

theorem perm_of_greedy {adj : Nat → List Nat} {picks : List (Nat × List Nat)} {threshold : Nat}
    (h : Greedy (remaining p.n (p.denseRows threshold)).toFinset adj picks) :
    (picks.map (·.1) ++ p.denseRows threshold).Perm (List.range p.n) := by
  obtain ⟨hnodup, hset⟩ := h.picked
  have hperm : (picks.map (·.1)).Perm (remaining p.n (p.denseRows threshold)) :=
    List.perm_of_nodup_nodup_toFinset_eq hnodup (nodup_remaining _ _) hset
  exact (hperm.append_right _).trans (perm_remaining_append p threshold)

/-- On any pattern, and with any factor, the method refuses exactly what cannot be followed. Else it
ends with a permutation of the nodes in which the dense ones come last, in increasing order. -/
theorem ordered_or_refused (factor : Float) (p : Pattern) :
    ((∃ defect, (order factor p).run = some (.error (.invalidPattern defect))) ↔
        ∃ defect, p.HasDefect defect) ∧
      ((∃ perm front, (order factor p).run = some (.ok perm) ∧
          perm.toList.Perm (List.range p.n) ∧
          perm.toList = front ++ p.denseRows (denseThreshold factor p.n)) ↔
        ∀ defect, ¬ p.HasDefect defect) := by
  obtain ⟨r, hcheck, hr⟩ := p.inBounds_check
  cases r with
  | error e =>
      obtain ⟨defect, rfl, hdefect⟩ := Pattern.hasDefect_of_check hcheck
      have hrun : (order factor p).run = some (.error (.invalidPattern defect)) :=
        run_bind_error hcheck
      refine ⟨iff_of_true ⟨defect, hrun⟩ ⟨defect, hdefect⟩, iff_of_false ?_ fun h => h _ hdefect⟩
      rintro ⟨perm, front, hok, -⟩
      cases hrun.symm.trans hok
  | ok _ =>
      have hp := hr () rfl
      have hnone := Pattern.valid_iff.mp hp
      obtain ⟨perm, adj, picks, hrun, hlist, -, hgreedy⟩ := order_of_valid factor hp
      refine ⟨iff_of_false ?_ fun ⟨d, hd⟩ => hnone d hd, iff_of_true ?_ hnone⟩
      · rintro ⟨defect, herror⟩
        cases hrun.symm.trans herror
      · refine ⟨perm, _, hrun, ?_, hlist⟩
        rw [hlist]
        exact perm_of_greedy hgreedy

/-- A hub with 17 neighbours, listed backwards, one of them twice and one on the other side of the
diagonal too. -/
def wheel : Pattern :=
  ⟨18, #[0, 19, 19, 19, 19, 19, 21, 21, 21, 21, 21, 21, 21, 21, 21, 21, 21, 21, 21],
    #[17, 16, 15, 14, 13, 12, 11, 10, 9, 8, 7, 6, 5, 4, 3, 2, 1, 3, 0, 4, 0]⟩

theorem ordered_or_refused_wheel :
    ∃ perm front, (order 0.5 wheel).run = some (.ok perm) ∧
      perm.toList.Perm (List.range 18) ∧ perm.toList = front ++ [0] := by
  have hcheck : wheel.check.run = some (.ok ()) := by decide +kernel
  have hnone := Pattern.valid_iff.mp (Pattern.check_eq_ok.mp hcheck)
  have hdense : wheel.denseRows (denseThreshold 0.5 18) = [0] := by decide +kernel
  obtain ⟨perm, front, hrun, hperm, hlist⟩ := (ordered_or_refused 0.5 wheel).2.mpr hnone
  exact ⟨perm, front, hrun, hperm, hlist.trans (congrArg (front ++ ·) hdense)⟩

end Order

end MinimumDegree

end Saddle.Elimination
