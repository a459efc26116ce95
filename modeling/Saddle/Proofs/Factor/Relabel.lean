import Saddle.Proofs.Factor.Fill
import Saddle.Proofs.Sparse.Relabel

/-!
# The graph under other labels

Relabelling a symmetric matrix relabels its graph: two nodes are neighbours exactly if
the nodes with their labels are. A stored cell stands for an edge or for a place on the
diagonal, and moves with its labels, so that both are read off the cells.
-/

namespace Saddle.Factor

open Csc

variable {α : Type}

/-- The upper triangle `c` is `a` under other labels. -/
structure Relabels (label : Nat → Nat) (a c : Csc α) : Prop where
  valid : c.Valid
  upper : c.Upper
  ncols_eq : c.ncols = a.ncols
  mem_iff : ∀ i < a.ncols, ∀ k < a.ncols, ∀ x : α,
    (⟨max (label i) (label k), min (label i) (label k), x⟩ : Cell α) ∈ c.cellList ↔
      (⟨max i k, min i k, x⟩ : Cell α) ∈ a.cellList

section Relabel

variable {a c : Csc α} {label : Nat → Nat} {i k : Nat}

theorem relabels_of_permuteSymmetric [Zero α] {labels : Array Nat} (ha : a.Valid) (hu : a.Upper)
    (ht : Access.Tabulates labels a.ncols label) (hl : Labels a.ncols label) :
    ∃ c moved, (a.permuteSymmetric labels).run = some (.ok (c, moved)) ∧ Relabels label a c := by
  have htri : InTriangle a.ncols a.cellList := fun d hd =>
    ⟨row_le_of_mem_cellList hu hd, (lt_of_mem_cellList ha hd).1⟩
  have hinc := ha.pairwise_cellList
  have hself : ofCells a.ncols a.ncols a.cellList = a := by
    conv_rhs => rw [← ha.toFramed.ofCells_cellList, hu.square]
  obtain ⟨cells, moved, hrun, hm⟩ := permuteSymmetric_spec ht hl htri hinc
  rw [hself] at hrun
  have htri' := hm.inTriangle hl htri
  refine ⟨_, moved, hrun, valid_ofTriangle htri' hm.increasing, upper_ofCells htri' hm.increasing,
    rfl, ?_⟩
  intro i hi k hk x
  rw [cellList_ofTriangle htri' hm.increasing]
  have hplace := hm.mem_iff hl htri (p := (max i k, min i k)) ⟨min_le_max, max_lt hi hk⟩ (x := x)
  rwa [movePlace_ordered] at hplace

theorem adj_iff_mem_cellList (hu : a.Upper) :
    (graph a).Adj i k ↔ i ≠ k ∧ ∃ x : α, (⟨max i k, min i k, x⟩ : Cell α) ∈ a.cellList := by
  have hlt : ∀ i k, i < k → ((graph a).Adj i k ↔ ∃ x : α, (⟨k, i, x⟩ : Cell α) ∈ a.cellList) := by
    intro i k hik
    constructor
    · intro h
      obtain ⟨hk, ⟨_, x⟩, he, rfl⟩ := entry_of_adj hu h hik
      exact ⟨x, mem_cellsBefore.mpr ⟨hk, he⟩⟩
    · intro h
      obtain ⟨x, hx⟩ := h
      obtain ⟨hk, he⟩ := mem_cellsBefore.mp hx
      exact adj_of_entry hk he (Nat.ne_of_lt hik)
  rcases Nat.lt_trichotomy i k with hik | rfl | hik
  · rw [hlt i k hik, max_eq_right hik.le, min_eq_left hik.le, and_iff_right (Nat.ne_of_lt hik)]
  · simp
  · rw [SimpleGraph.adj_comm, hlt k i hik, max_eq_left hik.le, min_eq_right hik.le,
      and_iff_right (Nat.ne_of_gt hik)]

theorem Relabels.adj_iff (h : Relabels label a c) (hu : a.Upper) (hl : Labels a.ncols label)
    (hi : i < a.ncols) (hk : k < a.ncols) :
    (graph c).Adj (label i) (label k) ↔ (graph a).Adj i k := by
  have hne : label i ≠ label k ↔ i ≠ k :=
    not_congr ⟨hl.inj i hi k hk, congrArg label⟩
  rw [adj_iff_mem_cellList h.upper, adj_iff_mem_cellList hu, hne]
  exact and_congr_right fun _ => exists_congr fun x => h.mem_iff i hi k hk x

end Relabel

end Saddle.Factor
