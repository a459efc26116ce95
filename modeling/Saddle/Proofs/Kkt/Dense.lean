import Mathlib.Algebra.BigOperators.Group.Finset.Basic
import Mathlib.Algebra.BigOperators.Fin
import Mathlib.Data.Matrix.Block
import Mathlib.Tactic.Ring
import Saddle.Proofs.Exact
import Saddle.Proofs.Sparse.Dense
import Saddle.Proofs.Kkt.Assembly

/-!
# The saddle point matrix, densely

In exact arithmetic the order in which the entries of a place are summed is of no
concern, and what has been assembled is the matrix one would write down: the blocks
side by side. The rows are those of the variables and those of the constraints, in
a sum type, so that a block is picked by the two sides of a pair of rows. A
reordering shows nowhere but in the numbers that the rows have.
-/

namespace Saddle.Kkt

open Cell Csc Triplets Finset

variable {α : Type} [FieldScalar α]

/-! ## Sums at a place -/

/-- What the cells have at a place. -/
def placeSum (q : Nat × Nat) (cells : List (Cell α)) : α := (valuesAt q cells).sum

theorem placeSum_append (q : Nat × Nat) (cells cells' : List (Cell α)) :
    placeSum q (cells ++ cells') = placeSum q cells + placeSum q cells' := by
  rw [placeSum, valuesAt_append, List.sum_append]
  rfl

theorem placeSum_of_notMem {q : Nat × Nat} {cells : List (Cell α)}
    (h : ∀ c ∈ cells, c.place ≠ q) : placeSum q cells = 0 := by
  rw [placeSum, valuesAt_of_notMem]
  · rfl
  · rintro hq
    obtain ⟨c, hc, hcq⟩ := List.mem_map.mp hq
    exact h c hc hcq

theorem placeSum_column (j i k : Nat) (es : List (Nat × α)) :
    placeSum (j, i) (es.map fun e => ⟨k, e.1, e.2⟩) = if k = j then sumAt i es else 0 := by
  by_cases hk : k = j
  · subst hk
    rw [if_pos rfl, placeSum, valuesAt, sumAt, List.filter_map, List.map_map]
    refine congrArg (fun l : List (Nat × α) => (l.map (·.2)).sum)
      (List.filter_congr fun e _ => ?_)
    simp [place]
  · rw [if_neg hk]
    refine placeSum_of_notMem fun c hc => ?_
    obtain ⟨e, -, rfl⟩ := List.mem_map.mp hc
    exact fun heq => hk (congrArg Prod.fst heq)

theorem placeSum_cellsBefore (a : Csc α) (j i k : Nat) :
    placeSum (j, i) (a.cellsBefore k) = if j < k then sumAt i (a.col j) else 0 := by
  induction k with
  | zero => rfl
  | succ k ih =>
      rw [cellsBefore_succ, placeSum_append, ih, placeSum_column]
      rcases Nat.lt_trichotomy j k with hjk | hjk | hjk
      · rw [if_pos hjk, if_neg (by omega), if_pos (by omega), add_zero]
      · rw [if_neg (by omega), if_pos hjk.symm, if_pos (by omega), zero_add, hjk]
      · rw [if_neg (by omega), if_neg (by omega), if_neg (by omega), add_zero]

theorem sumAt_ofCells {m n : Nat} {cells : List (Cell α)}
    (h : cells.Pairwise (·.column ≤ ·.column)) (hn : ∀ c ∈ cells, c.column < n) {i j : Nat}
    (hj : j < n) : sumAt i ((ofCells m n cells).col j) = placeSum (j, i) cells := by
  have hcells := placeSum_cellsBefore (ofCells m n cells) j i n
  rw [if_pos hj] at hcells
  rw [← hcells]
  exact congrArg _ (cellList_ofCells h hn)

theorem chain?_eq_some {values : List α} {x : α} (h : chain? values = some x) :
    x = values.sum := by
  induction values using List.reverseRecOn generalizing x with
  | nil => cases h
  | append_singleton values y ih =>
      rw [chain?_concat, Option.some.injEq] at h
      rw [List.sum_append, List.sum_singleton, ← h]
      cases hc : chain? values with
      | none =>
          rw [chain?_eq_none hc]
          simp
      | some z =>
          rw [← ih hc]
          rfl

section Built

variable {n : Nat} {label : Nat → Nat} {entries cells : List (Cell α)} {slots : Array Nat}

/-- What has been built has at a place what the entries have at the place it came
from. -/
theorem placeSum_built (hb : Built (movePlace label) entries cells slots)
    (htri : InTriangle n entries) (hl : Labels n label) {q : Nat × Nat}
    (hq : q.2 ≤ q.1 ∧ q.1 < n) :
    placeSum (movePlace label q) cells = placeSum q entries := by
  by_cases hmem : q ∈ entries.map place
  · obtain ⟨c, hc, rfl⟩ := List.mem_map.mp hmem
    obtain ⟨d, hd, hdq⟩ := hb.place_mem hc
    have hvalue := hb.value c hc d hd hdq.symm
    rw [← hdq, placeSum, valuesAt_of_nodup hb.nodup hd, List.sum_singleton]
    exact chain?_eq_some hvalue
  · rw [placeSum_of_notMem (q := q) fun c hc hcq => hmem (hcq ▸ List.mem_map_of_mem hc)]
    refine placeSum_of_notMem fun d hd hdq => ?_
    obtain ⟨c, hc, hcd⟩ := hb.origin d hd
    refine hmem ?_
    rw [← movePlace_inj hl (htri c hc) hq (hcd.trans hdq)]
    exact List.mem_map_of_mem hc

end Built

/-! ## The four groups of entries -/

/-- Entries on a diagonal that starts at row `b`. -/
theorem placeSum_diagonal (b m : Nat) (f : Nat → α) (j i : Nat) :
    placeSum (b + j, b + i) ((List.range m).map fun k => ⟨b + k, b + k, f k⟩) =
      if i = j ∧ j < m then f j else 0 := by
  induction m with
  | zero => rw [if_neg (by omega)]; rfl
  | succ m ih =>
      rw [List.range_succ, List.map_append, placeSum_append, ih]
      have hlast : placeSum (b + j, b + i) [(⟨b + m, b + m, f m⟩ : Cell α)] =
          if i = m ∧ j = m then f m else 0 := by
        by_cases h : i = m ∧ j = m
        · rw [if_pos h, h.1, h.2]
          simp [placeSum, valuesAt, place]
        · rw [if_neg h]
          refine placeSum_of_notMem fun c hc heq => h ?_
          rw [List.mem_singleton] at hc
          rw [hc, place, Prod.mk.injEq] at heq
          simp only at heq
          omega
      rw [List.map_singleton, hlast]
      by_cases hij : i = j
      · rcases Nat.lt_trichotomy j m with hjm | hjm | hjm
        · rw [if_pos ⟨hij, hjm⟩, if_neg (by omega), if_pos (by omega), add_zero]
        · rw [if_neg (by omega), if_pos (by omega), if_pos (by omega), zero_add, hjm]
        · rw [if_neg (by omega), if_neg (by omega), if_neg (by omega), add_zero]
      · rw [if_neg (by omega), if_neg (by omega), if_neg (by omega), add_zero]

theorem placeSum_of_column_lt {n j i : Nat} {cells : List (Cell α)}
    (h : ∀ c ∈ cells, c.column < n) (hj : n ≤ j) : placeSum (j, i) cells = 0 := by
  refine placeSum_of_notMem fun c hc heq => ?_
  have := congrArg Prod.fst heq
  have := h c hc
  simp only [place] at *
  omega

theorem placeSum_of_le_column {n j i : Nat} {cells : List (Cell α)}
    (h : ∀ c ∈ cells, n ≤ c.column) (hj : j < n) : placeSum (j, i) cells = 0 := by
  refine placeSum_of_notMem fun c hc heq => ?_
  have := congrArg Prod.fst heq
  have := h c hc
  simp only [place] at *
  omega

theorem placeSum_shift (n r i : Nat) (cells : List (Cell α)) :
    placeSum (n + r, i) (cells.map (shift n)) = placeSum (i, r) cells := by
  rw [placeSum, valuesAt, List.filter_map, List.map_map, placeSum, valuesAt]
  refine congrArg (fun l : List (Cell α) => (l.map Cell.value).sum)
    (List.filter_congr fun c _ => ?_)
  refine decide_eq_decide.mpr ?_
  simp only [place, shift, Prod.mk.injEq]
  omega

/-- The number of a row. -/
def rowNumber {n m : Nat} : Fin n ⊕ Fin m → Nat
  | .inl i => i
  | .inr j => n + j

/-- The saddle point matrix. -/
def saddle (p a : Csc α) (sigma : α) (lower : PerConstraint α) :
    Matrix (Fin p.ncols ⊕ Fin a.nrows) (Fin p.ncols ⊕ Fin a.nrows) α :=
  .fromBlocks (p.toSymmetric p.ncols + sigma • 1) (a.toMatrix a.nrows p.ncols).transpose
    (a.toMatrix a.nrows p.ncols) (-Matrix.diagonal fun j : Fin a.nrows => lower.value j)

section Entries

variable {p a : Csc α} {sigma : α} {lower : PerConstraint α}

theorem placeSum_entryList (p a : Csc α) (sigma : α) (lower : PerConstraint α) (q : Nat × Nat) :
    placeSum q (entryList p a sigma lower) =
      placeSum q ((List.range p.ncols).map fun j => ⟨j, j, sigma⟩) + placeSum q p.cellList +
        placeSum q (a.cellList.map (shift p.ncols)) +
          placeSum q ((List.range a.nrows).map fun i =>
            ⟨p.ncols + i, p.ncols + i, -lower.value i⟩) := by
  rw [entryList, placeSum_append, placeSum_append, placeSum_append]

theorem placeSum_variables {i j : Nat} (hj : j < p.ncols) :
    placeSum (j, i) (entryList p a sigma lower) =
      sumAt i (p.col j) + if i = j then sigma else 0 := by
  have hdiagonal := placeSum_diagonal 0 p.ncols (fun _ => sigma) j i
  simp only [Nat.zero_add] at hdiagonal
  have hquadratic := placeSum_cellsBefore p j i p.ncols
  rw [if_pos hj] at hquadratic
  rw [placeSum_entryList, hdiagonal, cellList, hquadratic,
    placeSum_of_le_column (n := p.ncols) _ hj, placeSum_of_le_column (n := p.ncols) _ hj]
  · by_cases hij : i = j
    · rw [if_pos ⟨hij, hj⟩, if_pos hij]
      ring
    · rw [if_neg fun h => hij h.1, if_neg hij]
      ring
  · intro c hc
    obtain ⟨k, -, rfl⟩ := List.mem_map.mp hc
    exact Nat.le_add_right _ _
  · intro c hc
    obtain ⟨d, -, rfl⟩ := List.mem_map.mp hc
    exact Nat.le_add_right _ _

theorem placeSum_constraints (hb : Blocks p a lower) {r i : Nat} :
    placeSum (p.ncols + r, i) (entryList p a sigma lower) =
      (if i < p.ncols then sumAt r (a.col i) else 0) +
        if i = p.ncols + r ∧ r < a.nrows then -lower.value r else 0 := by
  have hconstraints := placeSum_cellsBefore a i r a.ncols
  rw [hb.columns] at hconstraints
  have hlower : placeSum (p.ncols + r, i) ((List.range a.nrows).map fun i =>
      ⟨p.ncols + i, p.ncols + i, -lower.value i⟩) =
        if i = p.ncols + r ∧ r < a.nrows then -lower.value r else 0 := by
    rcases Nat.lt_or_ge i p.ncols with hi | hi
    · rw [if_neg (by omega)]
      refine placeSum_of_notMem fun c hc heq => ?_
      obtain ⟨k, -, rfl⟩ := List.mem_map.mp hc
      have := congrArg Prod.snd heq
      simp only [place] at this
      omega
    · obtain ⟨k, rfl⟩ := Nat.exists_eq_add_of_le hi
      rw [placeSum_diagonal p.ncols a.nrows (fun i => -lower.value i) r k]
      simp only [Nat.add_left_cancel_iff]
  rw [placeSum_entryList, placeSum_of_column_lt (n := p.ncols) _ (Nat.le_add_right _ _),
    placeSum_of_column_lt (n := p.ncols) _ (Nat.le_add_right _ _), placeSum_shift, hlower,
    cellList, hb.columns, hconstraints, zero_add, zero_add]
  · exact fun c hc => (lt_of_mem_cellList hb.pValid hc).1
  · intro c hc
    obtain ⟨k, hk, rfl⟩ := List.mem_map.mp hc
    exact List.mem_range.mp hk

/-- What is stored is the saddle point matrix. -/
theorem placeSum_saddle (hb : Blocks p a lower) (u v : Fin p.ncols ⊕ Fin a.nrows) :
    placeSum (max (rowNumber u) (rowNumber v), min (rowNumber u) (rowNumber v))
      (entryList p a sigma lower) = saddle p a sigma lower u v := by
  rcases u with i | r <;> rcases v with j | t
  · have hlt : max (i : Nat) j < p.ncols := max_lt i.isLt j.isLt
    have hij : min (i : Nat) j = max (i : Nat) j ↔ i = j := by
      rw [Fin.ext_iff]
      omega
    rw [saddle, Matrix.fromBlocks_apply₁₁, Matrix.add_apply, Matrix.smul_apply, Matrix.one_apply,
      rowNumber, rowNumber, placeSum_variables hlt]
    simp only [hij, smul_eq_mul, mul_ite, mul_one, mul_zero]
    rfl
  · have hi := i.isLt
    have hmax : max (i : Nat) (p.ncols + t) = p.ncols + t := by omega
    have hmin : min (i : Nat) (p.ncols + t) = i := by omega
    rw [saddle, Matrix.fromBlocks_apply₁₂, rowNumber, rowNumber, hmax, hmin,
      placeSum_constraints hb, if_pos hi, if_neg (by omega), add_zero]
    rfl
  · have hj := j.isLt
    have hmax : max (p.ncols + r) (j : Nat) = p.ncols + r := by omega
    have hmin : min (p.ncols + r) (j : Nat) = j := by omega
    rw [saddle, Matrix.fromBlocks_apply₂₁, rowNumber, rowNumber, hmax, hmin,
      placeSum_constraints hb, if_pos hj, if_neg (by omega), add_zero]
    rfl
  · have hr := r.isLt
    have ht := t.isLt
    have hmax : max (p.ncols + r) (p.ncols + t) = p.ncols + max (r : Nat) t := by omega
    rw [saddle, Matrix.fromBlocks_apply₂₂, Matrix.neg_apply, Matrix.diagonal_apply, rowNumber,
      rowNumber, hmax, placeSum_constraints hb, if_neg (by omega), zero_add]
    by_cases hrt : r = t
    · subst hrt
      rw [if_pos (by omega), if_pos rfl, max_self]
    · have hne : (r : Nat) ≠ t := fun h => hrt (Fin.ext h)
      rw [if_neg (by omega), if_neg hrt, neg_zero]

end Entries

/-! ## In any order -/

section Reordered

variable {p a : Csc α} {sigma : α} {lower : PerConstraint α} {new : Nat → Nat} {matrix : Csc α}
  {slots : Array Nat}

theorem rowNumber_lt {n m : Nat} (u : Fin n ⊕ Fin m) : rowNumber u < n + m := by
  rcases u with i | j
  · exact Nat.lt_add_right _ i.isLt
  · exact Nat.add_lt_add_left j.isLt _

theorem rowNumber_injective {n m : Nat} :
    Function.Injective (rowNumber : Fin n ⊕ Fin m → Nat) := by
  rintro (i | j) (i' | j') h
  · exact congrArg Sum.inl (Fin.ext h)
  · have := i.isLt
    simp only [rowNumber] at h
    omega
  · have := i'.isLt
    simp only [rowNumber] at h
    omega
  · exact congrArg Sum.inr (Fin.ext (Nat.add_left_cancel h))

/-- The reordered matrix has the entries of the saddle point matrix, under the new
numbers of their rows. -/
theorem Assembled.symmetricAt_eq (h : Assembled p a sigma lower new matrix slots)
    (hb : Blocks p a lower) (hl : Labels (p.ncols + a.nrows) new)
    (u v : Fin p.ncols ⊕ Fin a.nrows) :
    matrix.symmetricAt (new (rowNumber u)) (new (rowNumber v)) =
      saddle p a sigma lower u v := by
  obtain ⟨cells, rfl, hbuilt⟩ := h
  have htri := inTriangle_entryList hb sigma
  have hinc := hbuilt.increasing
  rw [List.pairwise_map] at hinc
  have hu := rowNumber_lt u
  have hv := rowNumber_lt v
  have hnu := hl.lt _ hu
  have hnv := hl.lt _ hv
  rw [symmetricAt, sumAt_ofCells (hinc.imp fun h => h.column_le)
    (fun d hd => (Assembled.inTriangle hbuilt hb hl d hd).2) (by omega), ← movePlace_ordered,
    placeSum_built hbuilt htri hl (by simp only; omega), placeSum_saddle hb]

/-- A sum over all rows, in the order of their new numbers or block by block. -/
theorem sum_rowNumber {n m : Nat} {r : Elimination.Renumbering} {old new : Nat → Nat}
    (h : Elimination.Renumbers (n + m) r old new) (f : Nat → α) :
    ∑ k ∈ range (n + m), f k = ∑ u : Fin n ⊕ Fin m, f (new (rowNumber u)) := by
  have hmove : ∑ k ∈ range (n + m), f k = ∑ i ∈ range (n + m), f (new i) := by
    refine sum_nbij' old new ?_ ?_ ?_ ?_ ?_
    · exact fun k hk => mem_range.mpr (h.old_lt k (mem_range.mp hk))
    · exact fun i hi => mem_range.mpr (h.new_lt i (mem_range.mp hi))
    · exact fun k hk => h.new_old k (mem_range.mp hk)
    · exact fun i hi => h.old_new i (mem_range.mp hi)
    · exact fun k hk => by rw [h.new_old k (mem_range.mp hk)]
  rw [hmove, sum_range_add, Fintype.sum_sum_type, Finset.sum_range, Finset.sum_range]
  rfl

/-- The reordered matrix takes a vector where the saddle point matrix takes it, under
the new numbers of its entries. -/
theorem Assembled.mulVec_eq (h : Assembled p a sigma lower new matrix slots)
    (hb : Blocks p a lower) {r : Elimination.Renumbering} {old : Nat → Nat}
    (hr : Elimination.Renumbers (p.ncols + a.nrows) r old new) (x : Nat → α)
    (u : Fin p.ncols ⊕ Fin a.nrows) :
    ∑ l ∈ range (p.ncols + a.nrows), matrix.symmetricAt (new (rowNumber u)) l * x l =
      (saddle p a sigma lower).mulVec (fun v => x (new (rowNumber v))) u := by
  rw [sum_rowNumber hr, Matrix.mulVec, dotProduct]
  refine sum_congr rfl fun v _ => ?_
  rw [h.symmetricAt_eq hb (labels_of_renumbers hr)]

end Reordered

end Saddle.Kkt
