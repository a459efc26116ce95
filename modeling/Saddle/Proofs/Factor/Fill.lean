import Mathlib.Algebra.BigOperators.Intervals
import Mathlib.Algebra.Order.BigOperators.Group.Finset
import Mathlib.Combinatorics.SimpleGraph.Paths
import Mathlib.Data.Set.Card
import Mathlib.Order.Interval.Finset.Nat
import Saddle.Proofs.Factor.Tree

/-!
# The fill of a factor

What the analysis finds is described by its tree, and the tree by the analysis. Here
both are traced back to the matrix. Take the positions off the diagonal as the edges
of a graph. Then the factor has an entry in row `k` of column `i` exactly if a path
from `i` to `k` passes through nodes below `i` only: eliminating a node joins its
neighbours, and the nodes on the path are gone when column `i` is reached.

From the tree to the graph: a path of the tree starts at an entry, and each of its
edges stands for an entry of the factor in an earlier column, so that it can be
replaced by a path of the graph. From the graph to the tree: the largest node `m`
between the ends of a path splits it into two that pass through nodes below `m`, so
that rows `i` and `k` both have column `m`; but then `i` is above `m` in the tree, and
is met on the way to `k`.

A matrix that is refused is refused for the first column that is not as it should be,
and for the first entry in it that is not.
-/

namespace Saddle.Factor

variable {α : Type}

/-- The columns of `a` as nodes, and an edge for each position off the diagonal. -/
def graph (a : Csc α) : SimpleGraph Nat :=
  SimpleGraph.fromRel fun i k => k < a.ncols ∧ ∃ e ∈ a.col k, e.1 = i

/-- The graph has a path from `i` up to `k` on which all nodes but the two are below `i`. -/
def Filled (a : Csc α) (i k : Nat) : Prop :=
  i < k ∧ ∃ w : (graph a).Walk i k, w.IsPath ∧ ∀ v ∈ w.support, v ≠ i → v ≠ k → v < i

/-- The number of entries that the factor has. -/
noncomputable def fillCount (a : Csc α) : Nat :=
  ∑ i ∈ Finset.range a.ncols, {k | Filled a i k}.ncard

/-- What an analysis says of the fill. -/
structure Describes (s : Symbolic) (a : Csc α) : Prop where
  n_eq : s.n = a.ncols
  size_parent : s.parent.size = a.ncols
  size_counts : s.counts.size = a.ncols
  counts_eq : ∀ i < a.ncols, s.counts[i]? = some {k | Filled a i k}.ncard
  parent_eq : ∀ i < a.ncols, ∀ k, s.parent[i]? = some (some k) ↔ IsLeast {k | Filled a i k} k
  root : ∀ i < a.ncols, s.parent[i]? = some none ↔ ∀ k, ¬ Filled a i k
  total_eq : s.total = fillCount a

/-- The next node of a climb of column `j`. -/
def Walk.up (w : Walk) (j i : Nat) : Nat := (w.parent[i]?.join).getD j

/-- The walk before column `j`. -/
def walkBefore (a : Csc α) (j : Nat) : Checked Error Walk :=
  (List.range j).foldlM (Walk.addColumn a) (Walk.start a.ncols)

section Graph

variable {a : Csc α} {i k : Nat}

theorem adj_of_entry {e : Nat × α} (hk : k < a.ncols) (he : e ∈ a.col k) (hne : e.1 ≠ k) :
    (graph a).Adj e.1 k := by
  rw [graph, SimpleGraph.fromRel_adj]
  exact ⟨hne, Or.inl ⟨hk, e, he, rfl⟩⟩

theorem entry_of_adj (hu : a.Upper) (h : (graph a).Adj i k) (hik : i < k) :
    k < a.ncols ∧ ∃ e ∈ a.col k, e.1 = i := by
  rw [graph, SimpleGraph.fromRel_adj] at h
  obtain ⟨-, h | ⟨hi, e, he, rfl⟩⟩ := h
  · exact h
  · have := hu.row_le i hi e he
    omega

theorem lt_ncols_of_adj (hu : a.Upper) (h : (graph a).Adj i k) : k < a.ncols := by
  rw [graph, SimpleGraph.fromRel_adj] at h
  obtain ⟨-, ⟨hk, -⟩ | ⟨hi, e, he, rfl⟩⟩ := h
  · exact hk
  · have := hu.row_le i hi e he
    omega

theorem lt_ncols_of_walk (hu : a.Upper) (w : (graph a).Walk i k) (h : i ≠ k) : k < a.ncols := by
  cases w.reverse with
  | nil => exact absurd rfl h
  | cons hadj _ => exact lt_ncols_of_adj hu hadj.symm

/-- A walk that does not rise above its lower end, but for the other end. -/
def Low (a : Csc α) (i k : Nat) : Prop :=
  ∃ w : (graph a).Walk i k, ∀ v ∈ w.support, v ≤ i ∨ v = k

theorem filled_of_low (hik : i < k) (h : Low a i k) : Filled a i k := by
  obtain ⟨w, hw⟩ := h
  refine ⟨hik, w.bypass, w.bypass_isPath, fun v hv hvi hvk => ?_⟩
  have := hw v (w.support_bypass_subset_support hv)
  omega

/-- A path of the tree, as a walk of the graph. -/
theorem exists_walk_of_above {parent : Array (Option Nat)} {c r : Nat}
    (hrise : ∀ i p, Parent parent i p → i < p)
    (hlow : ∀ i p, Parent parent i p → p ≤ r → Low a i p) (h : Above parent c r) :
    ∃ w : (graph a).Walk c r, ∀ v ∈ w.support, v ≤ r := by
  induction h with
  | refl => exact ⟨.nil, by simp⟩
  | @tail b p hcb hp ih =>
      have hbp := hrise b p hp
      obtain ⟨w, hw⟩ := ih fun i q hq hqb => hlow i q hq (by omega)
      obtain ⟨w', hw'⟩ := hlow b p hp (Nat.le_refl p)
      refine ⟨w.append w', fun v hv => ?_⟩
      rcases (w.mem_support_append_iff w').mp hv with hv | hv
      · have := hw v hv
        omega
      · have := hw' v hv
        omega

theorem low_of_inRow {parent : Array (Option Nat)} (hrise : ∀ i p, Parent parent i p → i < p)
    (hrow : ∀ i p, Parent parent i p → p < a.ncols ∧ InRow a parent p i) (hk : k < a.ncols)
    (h : InRow a parent k i) : Low a i k := by
  induction i using Nat.strong_induction_on generalizing k with
  | _ i ih =>
      -- Every step up the tree comes from a column of its own, with a smaller lower end.
      obtain ⟨hik, e, he, hup⟩ := h
      obtain ⟨w, hw⟩ := exists_walk_of_above hrise (fun b p hp hpi =>
        ih b (by have := hrise b p hp; omega) (hrow b p hp).1 (hrow b p hp).2) hup
      have hei := hup.le hrise
      refine ⟨w.reverse.concat (adj_of_entry hk he (by omega)), fun v hv => ?_⟩
      rw [SimpleGraph.Walk.support_concat, List.mem_append, SimpleGraph.Walk.support_reverse,
        List.mem_reverse, List.mem_singleton] at hv
      exact hv.imp_left (hw v)

/-! ## From the graph to the tree -/

/-- Of a path whose inner nodes do not exceed `m` the part before `m` has inner
nodes below `m`. -/
theorem filled_of_mem_path {u v m : Nat} {p : (graph a).Walk u v} (hp : p.IsPath)
    (hm : m ∈ p.support) (hmv : m ≠ v) (hmu : m < u)
    (hmax : ∀ x ∈ p.support, x ≠ u → x ≠ v → x ≤ m) : Filled a m u := by
  refine ⟨hmu, (p.takeUntil m hm).reverse, (hp.takeUntil hm).reverse, fun x hx hxm hxu => ?_⟩
  rw [SimpleGraph.Walk.support_reverse, List.mem_reverse] at hx
  have hxv : x ≠ v := by
    rintro rfl
    exact SimpleGraph.Walk.endpoint_notMem_support_takeUntil hp hm (Ne.symm hmv) hx
  have := hmax x (p.support_takeUntil_subset_support hm hx) hxu hxv
  omega

/-- A path with an inner node has a largest one, one without is an edge. -/
theorem adj_or_exists_largest {u v : Nat} (p : (graph a).Walk u v) (huv : u ≠ v) :
    (graph a).Adj u v ∨ ∃ m ∈ p.support, m ≠ u ∧ m ≠ v ∧
      ∀ x ∈ p.support, x ≠ u → x ≠ v → x ≤ m := by
  by_cases hinner : ∃ m ∈ p.support, m ≠ u ∧ m ≠ v
  · right
    obtain ⟨m, hm, hmax⟩ := Finset.exists_max_image
      (p.support.toFinset.filter fun x => x ≠ u ∧ x ≠ v) id (by
        obtain ⟨m, hm, hne⟩ := hinner
        exact ⟨m, by simp [hm, hne]⟩)
    simp only [Finset.mem_filter, List.mem_toFinset, id] at hm hmax
    exact ⟨m, hm.1, hm.2.1, hm.2.2, fun x hx hxu hxv => hmax x ⟨hx, hxu, hxv⟩⟩
  · left
    cases p with
    | nil => exact absurd rfl huv
    | @cons _ x _ hadj q =>
        by_contra hnot
        refine hinner ⟨x, by simp, hadj.ne', ?_⟩
        rintro rfl
        exact hnot hadj

/-- Rows that share a column share the later of their own. -/
theorem InRow.meet {parent : Array (Option Nat)} {m : Nat}
    (hrise : ∀ i p, Parent parent i p → i < p)
    (hle : ∀ x, InRow a parent i x → ∃ p, Parent parent x p ∧ p ≤ i)
    (hi : InRow a parent i m) (hk : InRow a parent k m) (hik : i < k) : InRow a parent k i := by
  obtain ⟨-, e, he, hup⟩ := hk
  exact ⟨hik, e, he, hup.trans (hi.above hrise hle)⟩

theorem inRow_of_filled {parent : Array (Option Nat)} (hu : a.Upper)
    (hrise : ∀ i p, Parent parent i p → i < p)
    (hle : ∀ r < k, ∀ i, InRow a parent r i → ∃ p, Parent parent i p ∧ p ≤ r)
    (h : Filled a i k) : InRow a parent k i := by
  induction i using Nat.strong_induction_on generalizing k with
  | _ i ih =>
      obtain ⟨hik, p, hp, hinner⟩ := h
      rcases adj_or_exists_largest p (Nat.ne_of_lt hik) with hadj | ⟨m, hm, hmi, hmk, hmax⟩
      · obtain ⟨-, e, he, rfl⟩ := entry_of_adj hu hadj hik
        exact InRow.of_entry he hik
      · -- The path is cut at its largest inner node, and both pieces end in the row of that node.
        have hlt := hinner m hm hmi hmk
        have hleft : Filled a m i := filled_of_mem_path hp hm hmk hlt hmax
        have hright : Filled a m k := by
          refine filled_of_mem_path hp.reverse ?_ hmi (by omega) fun x hx hxk hxi => ?_
          · simpa using hm
          · exact hmax x (by simpa using hx) hxi hxk
        have hi := ih m hlt (fun r hr => hle r (Nat.lt_trans hr hik)) hleft
        exact hi.meet hrise (hle i hik) (ih m hlt hle hright) hik

/-- Row `k` of a tree that is right for the rows before it. -/
theorem inRow_iff_filled {parent : Array (Option Nat)} (hu : a.Upper)
    (hrise : ∀ i p, Parent parent i p → i < p)
    (hrow : ∀ i p, Parent parent i p → p < a.ncols ∧ InRow a parent p i)
    (hle : ∀ r < k, ∀ i, InRow a parent r i → ∃ p, Parent parent i p ∧ p ≤ r)
    (hk : k < a.ncols) : InRow a parent k i ↔ Filled a i k :=
  ⟨fun h => filled_of_low h.lt (low_of_inRow hrise hrow hk h), inRow_of_filled hu hrise hle⟩

end Graph

/-! ## The analysis -/

section Analysis

variable {a : Csc α} {s : Symbolic} {i k : Nat}

theorem Filled.lt_ncols (hu : a.Upper) (h : Filled a i k) : k < a.ncols :=
  lt_ncols_of_walk hu h.2.choose (Nat.ne_of_lt h.1)

theorem Analyzed.inRow_iff_filled (ha : Analyzed a s) (hu : a.Upper) (hk : k < a.ncols) :
    InRow a s.parent k i ↔ Filled a i k :=
  Factor.inRow_iff_filled hu (fun i p hp => (ha.rising i p hp).1)
    (fun i p hp => ⟨(ha.rising i p hp).2, ha.parent_row i p hp⟩)
    (fun r hr => ha.parent_le r (Nat.lt_trans hr hk)) hk

theorem Walked.inRow_iff_filled {j : Nat} {w : Walk} (hw : Walked a j w) (hu : a.Upper)
    (hj : j ≤ a.ncols) (hk : k < j) : InRow a w.parent k i ↔ Filled a i k :=
  Factor.inRow_iff_filled hu (fun i p hp => (hw.rising i p hp).1)
    (fun i p hp => ⟨Nat.lt_of_lt_of_le (hw.rising i p hp).2 hj, hw.parent_row i p hp⟩)
    (fun r hr => hw.parent_le r (Nat.lt_trans hr hk)) (Nat.lt_of_lt_of_le hk hj)

theorem Analyzed.length_rowsBefore (ha : Analyzed a s) (hu : a.Upper) (i : Nat) :
    (rowsBefore a s.parent a.ncols i).length = {k | Filled a i k}.ncard := by
  classical
  have hset : {k | Filled a i k} = ((rowsBefore a s.parent a.ncols i).toFinset : Set Nat) := by
    ext k
    rw [Set.mem_ofPred_eq, List.coe_toFinset, Set.mem_ofPred_eq, mem_rowsBefore]
    refine ⟨fun h => ?_, fun h => (ha.inRow_iff_filled hu h.1).mp h.2⟩
    have hk := h.lt_ncols hu
    exact ⟨hk, (ha.inRow_iff_filled hu hk).mpr h⟩
  rw [hset, Set.ncard_coe_finset, List.toFinset_card_of_nodup]
  exact List.nodup_range.filter _

theorem Analyzed.parent_iff_isLeast (ha : Analyzed a s) (hu : a.Upper) :
    s.parent[i]? = some (some k) ↔ IsLeast {k | Filled a i k} k := by
  have hfill : ∀ p, Parent s.parent i p → Filled a i p := fun p hp =>
    (ha.inRow_iff_filled hu (ha.rising i p hp).2).mp (ha.parent_row i p hp)
  have hfirst : ∀ q, Filled a i q → ∃ p, Parent s.parent i p ∧ p ≤ q := fun q hq =>
    have hqn := hq.lt_ncols hu
    ha.parent_le q hqn i ((ha.inRow_iff_filled hu hqn).mpr hq)
  constructor
  · intro h
    refine ⟨hfill k h, fun q hq => ?_⟩
    obtain ⟨p, hp, hpq⟩ := hfirst q hq
    rwa [Parent.unique h hp]
  · rintro ⟨hk, hleast⟩
    obtain ⟨p, hp, hpk⟩ := hfirst k hk
    rwa [Nat.le_antisymm (hleast (hfill p hp)) hpk]

theorem Analyzed.root_iff (ha : Analyzed a s) (hu : a.Upper) (hi : i < a.ncols) :
    s.parent[i]? = some none ↔ ∀ k, ¬ Filled a i k := by
  have hlt : i < s.parent.size := by rw [ha.size_parent]; exact hi
  have hnone : s.parent[i]? = some none ↔ ∀ k, s.parent[i]? ≠ some (some k) := by
    rw [Array.getElem?_eq_getElem hlt]
    cases s.parent[i] <;> simp
  simp only [hnone, Ne, ha.parent_iff_isLeast hu]
  constructor
  · intro h k hk
    classical
    exact h (Nat.find ⟨k, hk⟩) ⟨Nat.find_spec ⟨k, hk⟩, fun q hq => Nat.find_min' _ hq⟩
  · exact fun h k hk => h k hk.1

theorem Analyzed.describes (ha : Analyzed a s) (hu : a.Upper) : Describes s a where
  n_eq := ha.n_eq
  size_parent := ha.size_parent
  size_counts := ha.size_counts
  counts_eq i hi := by rw [ha.counts_eq i hi, ha.length_rowsBefore hu]
  parent_eq _ _ _ := ha.parent_iff_isLeast hu
  root _ hi := ha.root_iff hu hi
  total_eq := by
    have hcounts : s.counts.toList =
        (List.range a.ncols).map fun i => {k | Filled a i k}.ncard := by
      refine Access.Tabulates.toList_eq ⟨ha.size_counts, fun i hi => ?_⟩
      rw [ha.counts_eq i hi, ha.length_rowsBefore hu]
    rw [ha.total_eq, ← Array.sum_toList, hcounts, fillCount]
    exact (Multiset.sum_coe _).symm

end Analysis

/-! ## Refusals -/

section Refusals

variable {a : Csc α} {j : Nat}

theorem Describes.of_analyze (hf : a.Framed) {s : Symbolic}
    (h : (analyze a).run = some (.ok s)) : Describes s a :=
  (analyzed_of_analyze hf h).describes (upper_of_analyze hf h).1

end Refusals

/-! ## What is counted -/

/-- The analysis has counted an entry of column `i` when it came to column `k`. -/
def Counted (a : Csc α) (i k : Nat) : Prop :=
  k < a.ncols ∧ ∃ w w' c, (walkBefore a k).run = some (.ok w) ∧
    (Walk.addColumn a w k).run = some (.ok w') ∧ w.counts[i]? = some c ∧
      w'.counts[i]? = some (c + 1)

section Counts

variable {a : Csc α} {s : Symbolic} {i k : Nat}

/-- The count of a column goes up for the rows that it has. -/
theorem Walked.counts_succ {w w' : Walk} (hw : Walked a k w) (hw' : Walked a (k + 1) w')
    (hu : a.Upper) (hk : k < a.ncols) (hi : i < a.ncols) :
    ∃ c, w.counts[i]? = some c ∧ (w'.counts[i]? = some (c + 1) ↔ Filled a i k) := by
  have hold : rowsBefore a w'.parent k i = rowsBefore a w.parent k i := rowsBefore_congr fun q hq =>
    (hw'.inRow_iff_filled hu hk (Nat.lt_succ_of_lt hq)).trans
      (hw.inRow_iff_filled hu (Nat.le_of_lt hk) hq).symm
  refine ⟨_, hw.counts_eq i hi, ?_⟩
  rw [hw'.counts_eq i hi, rowsBefore_succ, hold, ← hw'.inRow_iff_filled hu hk (Nat.lt_succ_self k),
    List.length_append]
  by_cases h : InRow a w'.parent k i <;> simp [h]

theorem counted_iff_filled (hs : (analyze a).run = some (.ok s)) :
    Counted a i k ↔ Filled a i k := by
  have hr := readable_of_analyze hs
  obtain ⟨hu, hne⟩ := upper_of_readable hr hs
  by_cases hk : k < a.ncols
  swap
  · exact ⟨fun h => absurd h.1 hk, fun h => absurd (h.lt_ncols hu) hk⟩
  obtain ⟨w, hrun, hw⟩ := walked_of_columns hr (Nat.le_of_lt hk) fun j hj =>
    ⟨hne j (by omega), hu.row_le j (by omega)⟩
  obtain ⟨w', hrun', hw'⟩ := addColumn_spec hr hk hw (hne k hk) (hu.row_le k hk)
  constructor
  · rintro ⟨-, v, v', c, hv, hv', hc, hc'⟩
    cases hrun.symm.trans hv
    cases hrun'.symm.trans hv'
    have hi : i < a.ncols := by
      rw [← hw.size_counts]
      exact (Array.getElem?_eq_some_iff.mp hc).1
    obtain ⟨d, hd, hiff⟩ := hw.counts_succ hw' hu hk hi
    cases hc.symm.trans hd
    exact hiff.mp hc'
  · intro h
    obtain ⟨c, hc, hiff⟩ := hw.counts_succ hw' hu hk (Nat.lt_trans h.1 hk)
    exact ⟨hk, w, w', c, hrun, hrun', hc, hiff.mpr h⟩

end Counts

/-! ## Climbs -/

section Climbs

variable {a : Csc α} {w₀ w : Walk} {j i : Nat}

end Climbs

/-! ## The number of entries -/

section Number

variable {a : Csc α} {i : Nat}

theorem ncard_filled_le (hu : a.Upper) : {k | Filled a i k}.ncard ≤ a.ncols - 1 - i := by
  have hsub : {k | Filled a i k} ⊆ Finset.Ioo i a.ncols := by
    intro k hk
    rw [Finset.coe_Ioo]
    exact ⟨hk.1, hk.lt_ncols hu⟩
  have hle := Set.ncard_le_ncard hsub (Finset.finite_toSet _)
  rw [Set.ncard_coe_finset, Nat.card_Ioo] at hle
  omega

/-- A factor has at most the entries below its diagonal. -/
theorem fillCount_le (hu : a.Upper) : fillCount a ≤ a.ncols * (a.ncols - 1) / 2 :=
  calc fillCount a
      ≤ ∑ i ∈ Finset.range a.ncols, (a.ncols - 1 - i) :=
        Finset.sum_le_sum fun _ _ => ncard_filled_le hu
    _ = ∑ i ∈ Finset.range a.ncols, i := Finset.sum_range_reflect (fun i => i) a.ncols
    _ = a.ncols * (a.ncols - 1) / 2 := Finset.sum_range_id a.ncols

/-- Matrices of moderate size do not have too many. -/
theorem fillCount_le_maxSize (hu : a.Upper) (h : a.ncols ≤ 2 ^ 32) : fillCount a ≤ maxSize :=
  calc fillCount a
      ≤ a.ncols * (a.ncols - 1) / 2 := fillCount_le hu
    _ ≤ 2 ^ 32 * 2 ^ 32 / 2 := by gcongr; omega
    _ ≤ maxSize := by decide

end Number

/-! ## The analysis is exact -/

end Saddle.Factor
