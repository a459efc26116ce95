import Mathlib.Data.List.Sort
import Mathlib.Data.Sym.Sym2
import Saddle.Proofs.Elimination.EliminationGraph

/-!
# The order depends on the graph alone

A graph can be stored in many ways: as one triangle, as the other or as both, with the
rows of a column in any order, with entries repeated, with the diagonal or without it.
All that differs is gone once the lists of neighbours have been sorted and freed of
repetitions, for a list in order is determined by what is on it. What comes after reads
these lists and the number of nodes, so that not even a tie can be broken differently.
-/

namespace Saddle.Elimination

/-- The pairs of different nodes for which the pattern has an entry, on whichever side of the
diagonal. -/
def Pattern.pairs (p : Pattern) : Set (Sym2 Nat) :=
  {e | ∃ j < p.n, ∃ i ∈ p.rows j, i ≠ j ∧ e = s(i, j)}

namespace MinimumDegree

section Storage

variable {p q : Pattern}

theorem mem_pairs {u x : Nat} : s(u, x) ∈ p.pairs ↔ p.Adjacent u x := by
  rw [Pattern.pairs, Set.mem_ofPred_eq, Pattern.Adjacent]
  constructor
  · intro h
    obtain ⟨j, hj, i, hi, hij, heq⟩ := h
    rcases Sym2.eq_iff.mp heq with ⟨rfl, rfl⟩ | ⟨rfl, rfl⟩
    · exact ⟨hij.symm, Or.inr ⟨hj, hi⟩⟩
    · exact ⟨hij, Or.inl ⟨hj, hi⟩⟩
  · intro h
    obtain ⟨hxu, ⟨hu, hx⟩ | ⟨hx, hu⟩⟩ := h
    · exact ⟨u, hu, x, hx, hxu, Sym2.eq_swap⟩
    · exact ⟨x, hx, u, hu, hxu.symm, rfl⟩

theorem pairs_eq_iff : p.pairs = q.pairs ↔ ∀ u x, p.Adjacent u x ↔ q.Adjacent u x := by
  constructor
  · intro h u x
    rw [← mem_pairs, ← mem_pairs, h]
  · intro h
    ext e
    induction e using Sym2.ind with
    | _ u x => rw [mem_pairs, mem_pairs, h]

theorem adjacency_congr (hp : p.Valid) (hq : q.Valid) (hn : p.n = q.n)
    (h : ∀ u x, p.Adjacent u x ↔ q.Adjacent u x) : adjacency p = adjacency q := by
  obtain ⟨adjacent, adj, hrun, htab, hadj⟩ := adjacency_spec hp
  obtain ⟨adjacent', adj', hrun', htab', hadj'⟩ := adjacency_spec hq
  have hlists : ∀ u, adj u = adj' u := by
    intro u
    have hmem : ∀ x, x ∈ adj u ↔ x ∈ adj' u := fun x => by rw [(hadj u).2, (hadj' u).2, h]
    exact (hadj u).1.eq_of_mem_iff (hadj' u).1 hmem
  rw [hrun, hrun', htab.ext (hn ▸ htab') fun u _ => hlists u]

theorem order_congr (factor : Float) (hp : p.Valid) (hq : q.Valid) (hn : p.n = q.n)
    (h : ∀ u x, p.Adjacent u x ↔ q.Adjacent u x) :
    (order factor p).run = (order factor q).run := by
  have hpivots : pivots p (denseThreshold factor p.n) = pivots q (denseThreshold factor q.n) := by
    rw [pivots, pivots, adjacency_congr hp hq hn h, hn]
  rw [order, order, Checked.run_bind_ok (Pattern.check_eq_ok.mpr hp),
    Checked.run_bind_ok (Pattern.check_eq_ok.mpr hq), hpivots]

/-- Any two patterns of one graph that can be followed are both ordered, and in the same way. -/
theorem order_eq_of_pairs_eq (factor : Float) (hp : p.check.run = some (.ok ()))
    (hq : q.check.run = some (.ok ())) (hn : p.n = q.n) (h : p.pairs = q.pairs) :
    ∃ perm, (order factor p).run = some (.ok perm) ∧ (order factor q).run = some (.ok perm) := by
  have hvalid := Pattern.check_eq_ok.mp hp
  obtain ⟨perm, _, _, hrun, -⟩ := order_of_valid factor hvalid
  refine ⟨perm, hrun, ?_⟩
  rw [← hrun]
  exact (order_congr factor hvalid (Pattern.check_eq_ok.mp hq) hn (pairs_eq_iff.mp h)).symm

/-- The graph of `prism`, stored as an upper triangle in order with its whole diagonal. -/
def tidyPrism : Pattern :=
  ⟨7, #[0, 1, 3, 5, 7, 9, 12, 16], #[0, 0, 1, 1, 2, 2, 3, 3, 4, 0, 4, 5, 0, 2, 4, 6]⟩

theorem order_eq_of_pairs_eq_prism :
    prism.pairs = tidyPrism.pairs ∧
      (order 10.0 tidyPrism).run = some (.ok #[1, 3, 5, 4, 0, 2, 6]) := by
  have hp : prism.check.run = some (.ok ()) := by decide +kernel
  have hq : tidyPrism.check.run = some (.ok ()) := by decide +kernel
  have hlt : ∀ u < 7, ∀ x < 7, prism.Adjacent u x ↔ tidyPrism.Adjacent u x := by decide +kernel
  have h : prism.pairs = tidyPrism.pairs := by
    refine pairs_eq_iff.mpr fun u x => ⟨fun hux => ?_, fun hux => ?_⟩
    · have hvalid := Pattern.check_eq_ok.mp hp
      exact (hlt u (hux.symm.lt hvalid) x (hux.lt hvalid)).mp hux
    · have hvalid := Pattern.check_eq_ok.mp hq
      exact (hlt u (hux.symm.lt hvalid) x (hux.lt hvalid)).mpr hux
  obtain ⟨perm, hperm, hperm'⟩ := order_eq_of_pairs_eq 10.0 hp hq rfl h
  obtain rfl := Except.ok.inj (Option.some.inj (order_prism.symm.trans hperm))
  exact ⟨h, hperm'⟩

end Storage

end MinimumDegree

end Saddle.Elimination
