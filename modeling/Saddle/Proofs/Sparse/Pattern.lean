import Saddle.Proofs.Sparse.Cells

/-!
# One pattern, other values

Two matrices of one pattern differ in nothing but their values. Whatever looks at
rows and pointers alone does the same on both, and writing a value into a slot leads
from one to the other. A loop of such writes is described by what it aims at: if
each step writes into its slot what is to be there in the end, neither the order of
the steps nor their repetition shows in the result.
-/

namespace Saddle.Csc

variable {α β : Type}

/-- The matrices differ in their values at most. -/
structure SamePattern (a b : Csc α) : Prop where
  nrows_eq : a.nrows = b.nrows
  ncols_eq : a.ncols = b.ncols
  colPtr_eq : a.colPtr = b.colPtr
  rowIdx_eq : a.rowIdx = b.rowIdx
  size_vals : a.vals.size = b.vals.size

namespace SamePattern

variable {a b c : Csc α}

theorem refl (a : Csc α) : SamePattern a a := ⟨rfl, rfl, rfl, rfl, rfl⟩

theorem symm (h : SamePattern a b) : SamePattern b a :=
  ⟨h.nrows_eq.symm, h.ncols_eq.symm, h.colPtr_eq.symm, h.rowIdx_eq.symm, h.size_vals.symm⟩

theorem trans (h : SamePattern a b) (h' : SamePattern b c) : SamePattern a c :=
  ⟨h.nrows_eq.trans h'.nrows_eq, h.ncols_eq.trans h'.ncols_eq, h.colPtr_eq.trans h'.colPtr_eq,
    h.rowIdx_eq.trans h'.rowIdx_eq, h.size_vals.trans h'.size_vals⟩

theorem ext (h : SamePattern a b) (hv : a.vals = b.vals) : a = b := by
  obtain ⟨hr, hc, hp, hi, -⟩ := h
  obtain ⟨_, _, _, _, _⟩ := a
  obtain ⟨_, _, _, _, _⟩ := b
  simp only at hr hc hp hi hv
  subst hr hc hp hi hv
  rfl

theorem ptr_eq (h : SamePattern a b) (j : Nat) : a.ptr j = b.ptr j := by
  rw [ptr, ptr, h.colPtr_eq]

theorem nnz_eq (h : SamePattern a b) : a.nnz = b.nnz := by
  rw [nnz, nnz, h.rowIdx_eq]

theorem framed (h : SamePattern a b) (hb : b.Framed) : a.Framed where
  size_colPtr := by rw [h.colPtr_eq, hb.size_colPtr, h.ncols_eq]
  ptr_zero := by rw [h.ptr_eq, hb.ptr_zero]
  ptr_succ j hj := by
    rw [h.ptr_eq, h.ptr_eq]
    exact hb.ptr_succ j (h.ncols_eq ▸ hj)
  ptr_last := by rw [h.ptr_eq, h.ncols_eq, hb.ptr_last, h.nnz_eq]
  size_vals := by rw [h.size_vals, hb.size_vals, h.rowIdx_eq]

theorem readable (h : SamePattern a b) (hb : b.Readable) : a.Readable where
  size_colPtr j hj := by
    rw [h.colPtr_eq]
    exact hb.size_colPtr j (h.ncols_eq ▸ hj)
  ptr_succ j hj := by
    rw [h.ptr_eq, h.ptr_eq]
    exact hb.ptr_succ j (h.ncols_eq ▸ hj)
  ptr_le j hj := by
    rw [h.ptr_eq, h.rowIdx_eq]
    exact hb.ptr_le j (h.ncols_eq ▸ hj)
  ptr_le' j hj := by
    rw [h.ptr_eq, h.size_vals]
    exact hb.ptr_le' j (h.ncols_eq ▸ hj)

theorem map_fst_entry? (h : SamePattern a b) (p : Nat) :
    (a.entry? p).map (·.1) = (b.entry? p).map (·.1) := by
  have hnone : a.vals[p]? = none ↔ b.vals[p]? = none := by
    rw [Array.getElem?_eq_none_iff, Array.getElem?_eq_none_iff, h.size_vals]
  rw [ entry?, entry?, h.rowIdx_eq]
  cases b.rowIdx[p]? <;> cases ha : a.vals[p]? <;> cases hb : b.vals[p]? <;> simp_all

/-- The rows of a column, in order. -/
theorem rows_eq (h : SamePattern a b) (j : Nat) :
    (a.col j).map (·.1) = (b.col j).map (·.1) := by
  apply List.ext_getElem?
  intro i
  rw [List.getElem?_map, List.getElem?_map, col, col, getElem?_entriesAt, getElem?_entriesAt,
    h.ptr_eq, h.ptr_eq]
  split
  · exact h.map_fst_entry? _
  · rfl

theorem exists_entry (h : SamePattern a b) {j : Nat} {e : Nat × α} (he : e ∈ a.col j) :
    ∃ e' ∈ b.col j, e'.1 = e.1 := by
  have hmem := List.mem_map_of_mem (f := Prod.fst) he
  rw [h.rows_eq, List.mem_map] at hmem
  exact hmem

theorem valid (h : SamePattern a b) (hb : b.Valid) : a.Valid where
  toFramed := h.framed hb.toFramed
  row_lt j hj e he := by
    have hj' : j < b.ncols := h.ncols_eq ▸ hj
    obtain ⟨e', he', hrow⟩ := h.exists_entry he
    rw [← hrow, h.nrows_eq]
    exact hb.row_lt j hj' e' he'
  increasing j hj := by
    have hj' : j < b.ncols := h.ncols_eq ▸ hj
    rw [← List.pairwise_map, h.rows_eq, List.pairwise_map]
    exact hb.increasing j hj'

theorem upper (h : SamePattern a b) (hu : b.Upper) : a.Upper where
  square := by rw [h.nrows_eq, h.ncols_eq, hu.square]
  row_le j hj e he := by
    have hj' : j < b.ncols := h.ncols_eq ▸ hj
    obtain ⟨e', he', hrow⟩ := h.exists_entry he
    rw [← hrow]
    exact hu.row_le j hj' e' he'

theorem places_eq (h : SamePattern a b) :
    a.cellList.map Cell.place = b.cellList.map Cell.place := by
  have hplace : ∀ c : Csc α, c.cellList.map Cell.place =
      (List.range c.ncols).flatMap fun j => ((c.col j).map (·.1)).map (Prod.mk j) := by
    intro c
    simp only [cellList, cellsBefore, List.map_flatMap, List.map_map]
    rfl
  rw [hplace, hplace, h.ncols_eq, List.flatMap_def, List.flatMap_def]
  congr 1
  exact List.map_congr_left fun j _ => by rw [h.rows_eq]

end SamePattern

theorem samePattern_ofCells (m n : Nat) {cells cells' : List (Cell α)}
    (h : cells.map Cell.place = cells'.map Cell.place) :
    SamePattern (ofCells m n cells) (ofCells m n cells') := by
  have hcolumn := congrArg (List.map Prod.fst) h
  have hrow := congrArg (List.map Prod.snd) h
  have hlength := congrArg List.length h
  rw [List.map_map, List.map_map] at hcolumn hrow
  rw [List.length_map, List.length_map] at hlength
  exact ⟨rfl, rfl, congrArg (pointers n) hcolumn, congrArg List.toArray hrow, by
    simpa [ofCells] using hlength⟩

/-! ## The cell at a position -/

/-- Position `p` is in column `j`, and the row stored there is `i`. -/
structure StoredAt (a : Csc α) (p i j : Nat) : Prop where
  column_lt : j < a.ncols
  start_le : a.ptr j ≤ p
  lt_stop : p < a.ptr (j + 1)
  row_eq : a.rowIdx[p]? = some i

section Positions

variable {a b : Csc α} {p : Nat} {c : Cell α}

/-- The place stored at a position is that of the cell there. -/
theorem Framed.storedAt_iff (h : a.Framed) {i j : Nat} :
    a.StoredAt p i j ↔ (a.cellList.map Cell.place)[p]? = some (j, i) := by
  have hread : ∀ {k}, k < a.ncols → a.ptr k ≤ p → p < a.ptr (k + 1) →
      (a.cellList.map Cell.place)[p]? = (a.rowIdx[p]?).map fun row => (k, row) := by
    intro k hk hkp hpk
    have hp : p < a.rowIdx.size := hpk.trans_le (h.ptr_le hk)
    have hp' : p < a.vals.size := hpk.trans_le (h.ptr_le' hk)
    rw [List.getElem?_map, h.getElem?_cellList hk hkp hpk, entry?, Array.getElem?_eq_getElem hp,
      Array.getElem?_eq_getElem hp']
    rfl
  constructor
  · intro hs
    rw [hread hs.column_lt hs.start_le hs.lt_stop, hs.row_eq]
    rfl
  · intro hplace
    have hp : p < a.rowIdx.size := by
      rw [← nnz, ← h.length_cellList, ← List.length_map Cell.place]
      exact (List.getElem?_eq_some_iff.mp hplace).1
    obtain ⟨k, hk, hkp, hpk⟩ := h.exists_column hp
    rw [hread hk hkp hpk, Option.map_eq_some_iff] at hplace
    obtain ⟨row, hrow, heq⟩ := hplace
    obtain ⟨rfl, rfl⟩ := Prod.mk.inj heq
    exact ⟨hk, hkp, hpk, hrow⟩

theorem Framed.storedAt_iff_cell (h : a.Framed) {i j : Nat} :
    a.StoredAt p i j ↔ ∃ x, a.cellList[p]? = some ⟨j, i, x⟩ := by
  rw [h.storedAt_iff, List.getElem?_map, Option.map_eq_some_iff]
  constructor
  · rintro ⟨c, hc, hplace⟩
    obtain ⟨rfl, rfl⟩ := Prod.mk.inj hplace
    exact ⟨c.value, hc⟩
  · rintro ⟨x, hx⟩
    exact ⟨_, hx, rfl⟩

theorem StoredAt.lt_nnz {i j : Nat} (h : a.StoredAt p i j) : p < a.nnz :=
  (Array.getElem?_eq_some_iff.mp h.row_eq).1

/-- What a position is looked up with. -/
theorem Framed.read_cell (h : a.Framed) (hc : a.cellList[p]? = some c) :
    a.columnOf p = some c.column ∧ a.entry? p = some (c.row, c.value) := by
  have hp : p < a.rowIdx.size := by
    rw [← nnz, ← h.length_cellList]
    exact (List.getElem?_eq_some_iff.mp hc).1
  obtain ⟨j, hj, hjp, hpj⟩ := h.exists_column hp
  rw [h.getElem?_cellList hj hjp hpj, Option.map_eq_some_iff] at hc
  obtain ⟨e, he, rfl⟩ := hc
  exact ⟨h.columnOf_eq hj hjp hpj, he⟩

theorem Framed.value_cell (h : a.Framed) (hc : a.cellList[p]? = some c) :
    a.vals[p]? = some c.value := by
  rw [← Array.getElem?_toList, ← h.map_value_cellList, List.getElem?_map, hc]
  rfl

theorem Framed.exists_cell (h : a.Framed) (hp : p < a.nnz) : ∃ c, a.cellList[p]? = some c := by
  rw [← h.length_cellList] at hp
  exact ⟨_, List.getElem?_eq_getElem hp⟩

/-- Cells are at the same places, and equal if their values are. -/
theorem SamePattern.cell_congr (h : SamePattern a b) (hb : b.Framed)
    (hv : a.vals[p]? = b.vals[p]?) : a.cellList[p]? = b.cellList[p]? := by
  have ha := h.framed hb
  have hplace := congrArg (·[p]?) h.places_eq
  simp only [List.getElem?_map] at hplace
  cases hc : a.cellList[p]? with
  | none =>
      rw [hc, Option.map_none, eq_comm, Option.map_eq_none_iff] at hplace
      rw [hplace]
  | some c =>
      rw [hc, Option.map_some, eq_comm, Option.map_eq_some_iff] at hplace
      obtain ⟨d, hd, hdc⟩ := hplace
      rw [ha.value_cell hc, hb.value_cell hd, Option.some.injEq] at hv
      obtain ⟨_, _, _⟩ := c
      obtain ⟨_, _, _⟩ := d
      simp only [Cell.place, Prod.mk.injEq] at hdc hv
      rw [hd, hdc.1, hdc.2, hv]

end Positions

/-! ## Writing values -/

theorem setValue_of_lt {a : Csc α} {p : Nat} (h : p < a.vals.size) (x : α) :
    a.setValue p x = some { a with vals := a.vals.setIfInBounds p x } := by
  rw [setValue, Access.write_of_lt h]
  rfl

theorem samePattern_of_setValue {a b : Csc α} {q : Nat} {x : α} (h : a.setValue q x = some b) :
    SamePattern b a := by
  by_cases hq : q < a.vals.size
  · rw [setValue_of_lt hq, Option.some.injEq] at h
    exact h ▸ ⟨rfl, rfl, rfl, rfl, Array.size_setIfInBounds⟩
  · rw [setValue, Access.write, dif_neg hq] at h
    cases h

theorem samePattern_of_foldlM {step : Csc α → β → Option (Csc α)}
    (hstep : ∀ a x b, step a x = some b → SamePattern b a) {l : List β} {a b : Csc α}
    (h : l.foldlM step a = some b) : SamePattern b a :=
  foldlM_keeps (I := fun c => SamePattern c a) (fun c x d hc hd => (hstep c x d hd).trans hc) h
    (.refl a)

/-- A loop of writes each of which aims at the same values. -/
theorem setValues_spec {step : Csc α → β → Option (Csc α)} {l : List β} {a : Csc α}
    (slot : β → Nat) (target : Nat → α)
    (hstep : ∀ x ∈ l, ∀ b : Csc α, step b x = b.setValue (slot x) (target (slot x)))
    (hlt : ∀ x ∈ l, slot x < a.vals.size) :
    ∃ vals, l.foldlM step a = some { a with vals } ∧ vals.size = a.vals.size ∧
      ∀ q < a.vals.size, vals[q]? = if q ∈ l.map slot then some (target q) else a.vals[q]? := by
  obtain ⟨b, hrun, vals, rfl, hsize, hget⟩ := foldlM_total (l := l) (f := step) (s := a)
    (fun done b => ∃ vals, b = { a with vals } ∧ vals.size = a.vals.size ∧
      ∀ q < a.vals.size,
        vals[q]? = if q ∈ done.map slot then some (target q) else a.vals[q]?)
    ⟨a.vals, rfl, rfl, fun q _ => by simp⟩
    (by
      rintro done x rest rfl b ⟨vals, rfl, hsize, hget⟩
      have hx : x ∈ done ++ x :: rest := by simp
      have hlt' : slot x < vals.size := by rw [hsize]; exact hlt x hx
      refine ⟨_, (hstep x hx _).trans (setValue_of_lt hlt' _), _, rfl, by simpa using hsize,
        fun q hq => ?_⟩
      rw [Array.getElem?_setIfInBounds, hget q hq, List.map_append, List.map_singleton]
      by_cases hqx : slot x = q
      · subst hqx
        simp [hlt']
      · simp [hqx, Ne.symm hqx])
  exact ⟨vals, hrun, hsize, hget⟩

end Saddle.Csc
