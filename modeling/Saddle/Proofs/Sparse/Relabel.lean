import Saddle.Proofs.Exact
import Saddle.Proofs.Sparse.DenseCopy
import Saddle.Proofs.Sparse.Pattern
import Saddle.Proofs.Sparse.Scatter

/-!
# A matrix under its labels

Relabelling the rows and columns of a symmetric matrix by a bijection is conjugating
it by a permutation matrix: the entry of the result at two labels is that of the
matrix at the two numbers that carry them. Here this is said three times of one run.
The arrays that come out are again an upper triangle in order. Each position has
moved to one of its own, at the labels of its row and column, with its value. And the
dense copies show the same numbers, so that nothing is stored that was not there.

No law of the operations is used: entries move and are not computed with.
-/

namespace Saddle

namespace Csc

open Cell

variable {α : Type}

/-- Labels that are a permutation of the first numbers are all there and all different. -/
theorem labels_of_perm {labels : Array Nat} {n : Nat} (h : labels.toList.Perm (List.range n)) :
    Access.Tabulates labels n (labelOf labels) ∧ Labels n (labelOf labels) := by
  have hsize : labels.size = n := by
    rw [← Array.length_toList, h.length_eq, List.length_range]
  have htab : Access.Tabulates labels n (labelOf labels) := hsize ▸ Access.Tabulates.self labels 0
  have hget : ∀ i < n, labels.toList[i]? = some (labelOf labels i) := by
    intro i hi
    rw [Array.getElem?_toList, htab.get i hi]
  refine ⟨htab, fun i hi => ?_, fun i hi j hj hij => ?_⟩
  · exact List.mem_range.mp (h.mem_iff.mp (List.mem_of_getElem? (hget i hi)))
  · have hnodup : labels.toList.Nodup := h.nodup_iff.mpr List.nodup_range
    have hlt : i < labels.toList.length := by rwa [Array.length_toList, hsize]
    exact (List.getElem?_inj hlt hnodup).mp (by rw [hget i hi, hget j hj, hij])

/-! ## Positions that have moved -/

section Moved

variable {n : Nat} {label : Nat → Nat} {cells cells' : List (Cell α)} {moved : Array Nat}

theorem Moved.exists_position (h : Moved label cells cells' moved) {p : Nat} {c : Cell α}
    (hc : cells[p]? = some c) : ∃ q, moved[p]? = some q ∧ cells'[q]? = some (moveCell label c) := by
  obtain ⟨hp, rfl⟩ := List.getElem?_eq_some_iff.mp hc
  have hp' : p < moved.toList.length := h.position.length_eq ▸ hp
  exact ⟨moved[p], Array.getElem?_eq_getElem hp', h.position.get hp hp'⟩

theorem Moved.perm_range (h : Moved label cells cells' moved) :
    moved.toList.Perm (List.range cells.length) := by
  -- Positions that hold different cells are different, and there are as many of them as before.
  have hcells' : cells'.Nodup := by
    have hinc := h.increasing
    rw [List.pairwise_map] at hinc
    exact hinc.imp fun hlt heq => hlt.ne (congrArg place heq)
  have hread : moved.toList.map (cells'[·]?) = (cells.map (moveCell label)).map some := by
    rw [List.map_map]
    exact map_eq_map_of_forall₂ h.position
  have hnodup : moved.toList.Nodup := by
    refine List.Nodup.of_map (cells'[·]?) ?_
    rw [hread]
    exact (h.perm.nodup_iff.mp hcells').map (Option.some_injective _)
  refine perm_range_of_nodup hnodup (fun q hq => ?_) h.position.length_eq.symm
  obtain ⟨p, hp, rfl⟩ := List.mem_iff_getElem.mp hq
  have hp' : p < cells.length := h.position.length_eq ▸ hp
  have hlt := (List.getElem?_eq_some_iff.mp (h.position.get hp' hp)).1
  rwa [h.perm.length_eq, List.length_map] at hlt

/-- A value is stored where its place has moved, and nowhere else. -/
theorem Moved.mem_iff (h : Moved label cells cells' moved) (hl : Labels n label)
    (htri : InTriangle n cells) {p : Nat × Nat} (hp : p.2 ≤ p.1 ∧ p.1 < n) {x : α} :
    (⟨(movePlace label p).1, (movePlace label p).2, x⟩ : Cell α) ∈ cells' ↔
      (⟨p.1, p.2, x⟩ : Cell α) ∈ cells := by
  rw [h.perm.mem_iff, List.mem_map]
  constructor
  · rintro ⟨⟨j, i, y⟩, hc, heq⟩
    rw [moveCell, Cell.mk.injEq] at heq
    obtain ⟨hcolumn, hrow, rfl⟩ := heq
    obtain rfl : (j, i) = p := movePlace_inj hl (htri _ hc) hp (Prod.ext hcolumn hrow)
    exact hc
  · intro hc
    exact ⟨_, hc, rfl⟩

end Moved

/-! ## Entries of the dense copies -/

section Dense

variable {a c : Csc α} {i j k l : Nat}

theorem Valid.lastOf_col (h : a.Valid) (hj : j < a.ncols) {x : α} :
    lastOf (a.col j) i = some x ↔ (⟨j, i, x⟩ : Cell α) ∈ a.cellList := by
  rw [lastOf_eq_some_iff_mem ((h.increasing j hj).imp Nat.ne_of_lt), cellList, mem_cellsBefore]
  exact (and_iff_right hj).symm

theorem Valid.accumulated_congr [Scalar α] (ha : a.Valid) (hc : c.Valid) (hj : j < a.ncols)
    (hl : l < c.ncols)
    (h : ∀ x : α, (⟨l, k, x⟩ : Cell α) ∈ c.cellList ↔ (⟨j, i, x⟩ : Cell α) ∈ a.cellList) :
    accumulated k (c.col l) = accumulated i (a.col j) := by
  have hlast : lastOf (c.col l) k = lastOf (a.col j) i := by
    refine Option.ext fun x => ?_
    rw [hc.lastOf_col hl, ha.lastOf_col hj, h]
  rw [accumulated_eq_lastOf ((hc.increasing l hl).imp Nat.ne_of_lt),
    accumulated_eq_lastOf ((ha.increasing j hj).imp Nat.ne_of_lt), hlast]

end Dense

/-! ## Conjugation -/

section Entry

variable {labels : Array Nat} {cells cells' : List (Cell α)} {n : Nat} {moved : Array Nat}

theorem entry_of_moved (hl : Labels n (labelOf labels)) (htri : InTriangle n cells)
    (hinc : (cells.map place).Pairwise PlaceLt)
    (hm : Moved (labelOf labels) cells cells' moved) {p i j : Nat}
    (hp : (ofCells n n cells).StoredAt p i j) :
    ∃ q x, moved[p]? = some q ∧
      (ofCells n n cells').StoredAt q (min (labelOf labels i) (labelOf labels j))
        (max (labelOf labels i) (labelOf labels j)) ∧
      (ofCells n n cells).vals[p]? = some x ∧ (ofCells n n cells').vals[q]? = some x := by
  have htri' := hm.inTriangle hl htri
  have hframed := (valid_ofTriangle htri hinc).toFramed
  have hframed' := (valid_ofTriangle htri' hm.increasing).toFramed
  obtain ⟨x, hcell⟩ := hframed.storedAt_iff_cell.mp hp
  have hvalue := hframed.value_cell hcell
  rw [cellList_ofTriangle htri hinc] at hcell
  obtain ⟨q, hq, hcell'⟩ := hm.exists_position hcell
  rw [← cellList_ofTriangle htri' hm.increasing] at hcell'
  exact ⟨q, x, hq, hframed'.storedAt_iff_cell.mpr ⟨x, hcell'⟩, hvalue, hframed'.value_cell hcell'⟩

end Entry

/-- The symmetric matrix `c` is `a` with row and column `i` relabelled to `labels[i]`, and the
entry at each position of `a` has gone to the position in `c` that `moved` tells. -/
structure Conjugate [Scalar α] (a : Csc α) (labels : Array Nat) (c : Csc α) (moved : Array Nat) :
    Prop where
  nrows_eq : c.nrows = a.nrows
  ncols_eq : c.ncols = a.ncols
  check : c.check.run = some (.ok ())
  checkUpper : c.checkUpper.run = some (.ok ())
  nnz_eq : c.nnz = a.nnz
  bijective : moved.toList.Perm (List.range a.nnz)
  entry : ∀ p i j, a.StoredAt p i j → ∃ q x, moved[p]? = some q ∧
    c.StoredAt q (min (labelOf labels i) (labelOf labels j))
      (max (labelOf labels i) (labelOf labels j)) ∧
    a.vals[p]? = some x ∧ c.vals[q]? = some x
  dense : ∃ dense dense', a.toDenseSymmetric = some dense ∧ c.toDenseSymmetric = some dense' ∧
    ∀ i < a.ncols, ∀ j < a.ncols, ∃ x, denseAt dense i j = some x ∧
      denseAt dense' (labelOf labels i) (labelOf labels j) = some x

section Conjugate

variable [Scalar α] {a : Csc α} {labels : Array Nat} {cells cells' : List (Cell α)} {n : Nat}
  {moved : Array Nat}

theorem dense_of_moved (hl : Labels n (labelOf labels)) (htri : InTriangle n cells)
    (hinc : (cells.map place).Pairwise PlaceLt)
    (hm : Moved (labelOf labels) cells cells' moved) :
    ∃ dense dense', (ofCells n n cells).toDenseSymmetric = some dense ∧
      (ofCells n n cells').toDenseSymmetric = some dense' ∧
      ∀ i < n, ∀ j < n, ∃ x, denseAt dense i j = some x ∧
        denseAt dense' (labelOf labels i) (labelOf labels j) = some x := by
  have htri' := hm.inTriangle hl htri
  have hvalid := valid_ofTriangle htri hinc
  have hvalid' := valid_ofTriangle htri' hm.increasing
  obtain ⟨dense, hdense, hshows⟩ := toDenseSymmetric_spec hvalid (upper_ofCells htri hinc)
  obtain ⟨dense', hdense', hshows'⟩ :=
    toDenseSymmetric_spec hvalid' (upper_ofCells htri' hm.increasing)
  refine ⟨dense, dense', hdense, hdense', fun i hi j hj => ⟨_, hshows.denseAt_eq hi hj, ?_⟩⟩
  rw [hshows'.denseAt_eq (hl.lt i hi) (hl.lt j hj)]
  -- On either side of the diagonal the place above it is read.
  have hmax : max i j < n := max_lt hi hj
  have hmax' : max (labelOf labels i) (labelOf labels j) < n := max_lt (hl.lt i hi) (hl.lt j hj)
  refine congrArg some (hvalid.accumulated_congr hvalid' hmax hmax' fun x => ?_)
  rw [cellList_ofTriangle htri hinc, cellList_ofTriangle htri' hm.increasing]
  have hplace := hm.mem_iff hl htri (p := (max i j, min i j)) ⟨min_le_max, hmax⟩ (x := x)
  rwa [movePlace_ordered] at hplace

theorem conjugate_of_moved (hl : Labels n (labelOf labels)) (htri : InTriangle n cells)
    (hinc : (cells.map place).Pairwise PlaceLt)
    (hm : Moved (labelOf labels) cells cells' moved) :
    Conjugate (ofCells n n cells) labels (ofCells n n cells') moved := by
  have htri' := hm.inTriangle hl htri
  have hvalid' := valid_ofTriangle htri' hm.increasing
  have hnnz : ∀ cs : List (Cell α), (ofCells n n cs).nnz = cs.length := by
    intro cs
    rw [nnz, ofCells, List.size_toArray, List.length_map]
  exact
    { nrows_eq := rfl
      ncols_eq := rfl
      check := check_eq_ok.mpr hvalid'
      checkUpper := (checkUpper_eq_ok hvalid').mpr (upper_ofCells htri' hm.increasing)
      nnz_eq := by rw [hnnz, hnnz, hm.perm.length_eq, List.length_map]
      bijective := by
        rw [hnnz]
        exact hm.perm_range
      entry := fun p i j hp => entry_of_moved hl htri hinc hm hp
      dense := dense_of_moved hl htri hinc hm }

/-- Relabelling an upper triangle by any bijection conjugates the matrix. -/
theorem permuteSymmetric_conjugate (ha : a.check.run = some (.ok ()))
    (hu : a.checkUpper.run = some (.ok ())) (hlabels : labels.toList.Perm (List.range a.ncols)) :
    ∃ c moved, (a.permuteSymmetric labels).run = some (.ok (c, moved)) ∧
      Conjugate a labels c moved := by
  have hvalid := check_eq_ok.mp ha
  have hupper := (checkUpper_eq_ok hvalid).mp hu
  obtain ⟨htab, hl⟩ := labels_of_perm hlabels
  -- A matrix in order is the one that its cells make.
  have htri : InTriangle a.ncols a.cellList := fun c hc =>
    ⟨row_le_of_mem_cellList hupper hc, (lt_of_mem_cellList hvalid hc).1⟩
  have hinc := hvalid.pairwise_cellList
  have hself : ofCells a.ncols a.ncols a.cellList = a := by
    conv_rhs => rw [← hvalid.toFramed.ofCells_cellList, hupper.square]
  obtain ⟨cells', moved, hrun, hm⟩ := permuteSymmetric_spec htab hl htri hinc
  have hconj := conjugate_of_moved hl htri hinc hm
  rw [hself] at hrun hconj
  exact ⟨_, moved, hrun, hconj⟩

end Conjugate

/-- Relabelled, the rows of its last two columns arrive out of order; one value is zero. -/
def tangled : Csc ℚ :=
  ⟨4, 4, #[0, 1, 3, 5, 8], #[0, 0, 1, 1, 2, 0, 2, 3], #[4, 1, 5, 0, 6, 2, 3, 7]⟩

/-- The same matrix under the labels `2, 0, 3, 1`. -/
def untangled : Csc ℚ :=
  ⟨4, 4, #[0, 1, 2, 5, 8], #[0, 1, 0, 1, 2, 0, 1, 3], #[5, 7, 1, 2, 4, 0, 3, 6]⟩

theorem permuteSymmetric_conjugate_tangled :
    (tangled.permuteSymmetric #[2, 0, 3, 1]).run =
        some (.ok (untangled, #[4, 2, 0, 5, 7, 3, 6, 1])) ∧
      Conjugate tangled #[2, 0, 3, 1] untangled #[4, 2, 0, 5, 7, 3, 6, 1] := by
  have hvalue : (tangled.permuteSymmetric #[2, 0, 3, 1]).run =
      some (.ok (untangled, #[4, 2, 0, 5, 7, 3, 6, 1])) := by
    simp only [permuteSymmetric, moveEntries, sortColumn_eq_insertionSort]
    decide +kernel
  have hlabels : (#[2, 0, 3, 1] : Array Nat).toList.Perm (List.range tangled.ncols) := by decide
  obtain ⟨c, moved, hrun, hconj⟩ :=
    permuteSymmetric_conjugate (a := tangled) (by decide +kernel) (by decide +kernel) hlabels
  have heq := Except.ok.inj (Option.some.inj (hrun.symm.trans hvalue))
  obtain ⟨rfl, rfl⟩ := Prod.mk.inj heq
  exact ⟨hvalue, hconj⟩

end Csc

end Saddle
