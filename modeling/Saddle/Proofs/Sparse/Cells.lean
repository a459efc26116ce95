import Mathlib.Data.List.Nodup
import Saddle.Proofs.Sparse.Columns
import Saddle.Sparse.Layout

/-!
# Cells in order

A matrix is the list of its cells, and a list of cells in the order of columns is
the matrix that `ofCells` lays out: column `j` of it holds the cells of column `j`,
because those of the columns before it come first and are as many as its pointer
says. So the two directions undo each other, and an operation on cells is followed
from matrix to matrix without a look at pointers.

The place of a cell is its column and its row, in this order. A matrix is valid
exactly if the places of its cells increase.
-/

namespace Saddle

namespace Cell

variable {α : Type}

/-- Where a cell is. -/
def place (c : Cell α) : Nat × Nat := (c.column, c.row)

/-- The row and the value of a cell, as its column stores them. -/
def entry (c : Cell α) : Nat × α := (c.row, c.value)

/-- The first place comes before the second: columns first, then rows. -/
def PlaceLt (p q : Nat × Nat) : Prop := p.1 < q.1 ∨ p.1 = q.1 ∧ p.2 < q.2

theorem PlaceLt.trans {p q r : Nat × Nat} (h : PlaceLt p q) (h' : PlaceLt q r) :
    PlaceLt p r := by
  unfold PlaceLt at *
  omega

theorem PlaceLt.ne {p q : Nat × Nat} (h : PlaceLt p q) : p ≠ q := by
  rintro rfl
  unfold PlaceLt at h
  omega

theorem PlaceLt.column_le {p q : Nat × Nat} (h : PlaceLt p q) : p.1 ≤ q.1 := by
  unfold PlaceLt at h
  omega

theorem placeLt_trichotomy (p q : Nat × Nat) : PlaceLt p q ∨ p = q ∨ PlaceLt q p := by
  obtain ⟨_, _⟩ := p
  obtain ⟨_, _⟩ := q
  unfold PlaceLt
  rw [Prod.mk.injEq]
  omega

/-- Places that increase are determined by which ones they are. -/
theorem eq_of_perm_of_placeLt {ps qs : List (Nat × Nat)} (hp : ps.Pairwise PlaceLt)
    (hq : qs.Pairwise PlaceLt) (h : ps.Perm qs) : ps = qs := by
  refine h.eq_of_pairwise (fun p q _ _ hpq hqp => ?_) hp hq
  exact absurd rfl (hpq.trans hqp).ne

end Cell

namespace Csc

variable {α : Type}

/-! ## Pointers -/

/-- Where each of `n` columns starts and the last one ends, from the columns of the entries. -/
def pointers (n : Nat) (columns : List Nat) : Array Nat :=
  ((List.range (n + 1)).map fun j => columns.countP (· < j)).toArray

/-- The matrix that stores the given cells, if they are in the order of their places. -/
def ofCells (nrows ncols : Nat) (cells : List (Cell α)) : Csc α where
  nrows := nrows
  ncols := ncols
  colPtr := pointers ncols (cells.map Cell.column)
  rowIdx := (cells.map Cell.row).toArray
  vals := (cells.map Cell.value).toArray

theorem tabulates_pointers (n : Nat) (columns : List Nat) :
    Access.Tabulates (pointers n columns) (n + 1) fun j => columns.countP (· < j) :=
  .ofRange _ _

theorem size_pointers (n : Nat) (columns : List Nat) : (pointers n columns).size = n + 1 :=
  (tabulates_pointers n columns).size_eq

/-- Column `j` starts after the entries of the columns before it. -/
theorem getElem?_pointers {n : Nat} (columns : List Nat) {j : Nat} (hj : j ≤ n) :
    (pointers n columns)[j]? = some (columns.countP (· < j)) :=
  (tabulates_pointers n columns).get j (Nat.lt_succ_of_le hj)

theorem countP_lt_succ (columns : List Nat) (j : Nat) :
    columns.countP (· < j + 1) = columns.countP (· < j) + columns.count j := by
  induction columns with
  | nil => rfl
  | cons c columns ih =>
      rw [List.countP_cons, List.countP_cons, List.count_cons, ih]
      simp only [decide_eq_true_eq, beq_iff_eq]
      split <;> split <;> split <;> omega

/-- How many entries the column before `j` has: what is counted on the way to the pointers. -/
def countBehind (columns : List Nat) : Nat → Nat
  | 0 => 0
  | j + 1 => columns.count j

section Counting

variable {counts : Array Nat} {columns : List Nat} {n c : Nat}

theorem tabulates_countBehind_nil (n : Nat) :
    Access.Tabulates (Array.replicate (n + 1) 0) (n + 1) (countBehind []) := by
  refine (Access.Tabulates.replicate (n + 1) 0).congr fun j _ => ?_
  cases j <;> rfl

/-- One more entry of column `c` is counted. -/
theorem tabulates_countBehind_snoc (h : Access.Tabulates counts (n + 1) (countBehind columns))
    (hc : c < n) :
    ∃ counts', Access.adjust counts (c + 1) (· + 1) = some counts' ∧
      Access.Tabulates counts' (n + 1) (countBehind (columns ++ [c])) := by
  obtain ⟨counts', hadjust, hcounts⟩ := h.adjust (Nat.succ_lt_succ hc) (· + 1)
  refine ⟨counts', hadjust, hcounts.congr fun j _ => ?_⟩
  rw [Function.update_apply]
  cases j with
  | zero => rw [if_neg (Nat.succ_ne_zero c).symm, countBehind, countBehind]
  | succ j =>
      rw [countBehind, countBehind, countBehind, List.count_append, List.count_singleton]
      by_cases hj : j = c
      · subst hj
        rw [if_pos rfl, if_pos (beq_self_eq_true j)]
      · rw [if_neg (by omega), if_neg (by simpa using Ne.symm hj), Nat.add_zero]

/-- The counts add up to the pointers. -/
theorem accumulate_countBehind (h : Access.Tabulates counts (n + 1) (countBehind columns)) :
    Access.accumulate counts n = some (pointers n columns) := by
  obtain ⟨ys, hys, htab⟩ := h.accumulate (g := fun j => columns.countP (· < j))
    (by simp [countBehind]) fun j _ => by rw [countP_lt_succ, countBehind, Nat.add_comm]
  rw [hys, htab.ext (tabulates_pointers n columns) fun _ _ => rfl]

end Counting

/-! ## Cells in the order of their columns -/

section Sorted

variable {cells : List (Cell α)} (h : cells.Pairwise (·.column ≤ ·.column))

include h

theorem filter_lt_succ (j : Nat) :
    cells.filter (·.column < j + 1) =
      cells.filter (·.column < j) ++ cells.filter (·.column = j) := by
  induction cells with
  | nil => rfl
  | cons c cells ih =>
      rw [List.pairwise_cons] at h
      have ih := ih h.2
      rcases Nat.lt_trichotomy c.column j with hc | hc | hc
      · rw [List.filter_cons_of_pos (by simp; omega), List.filter_cons_of_pos (by simp; omega),
          List.filter_cons_of_neg (by simp; omega), ih, List.cons_append]
      · have hnil : cells.filter (·.column < j) = [] := by
          rw [List.filter_eq_nil_iff]
          intro d hd
          have := h.1 d hd
          simp
          omega
        rw [List.filter_cons_of_pos (by simp; omega), List.filter_cons_of_neg (by simp; omega),
          List.filter_cons_of_pos (by simpa using hc), ih, hnil]
        rfl
      · rw [List.filter_cons_of_neg (by simp; omega), List.filter_cons_of_neg (by simp; omega),
          List.filter_cons_of_neg (by simp; omega), ih]

theorem take_countP (j : Nat) :
    cells.take (cells.countP (·.column < j)) = cells.filter (·.column < j) := by
  induction cells with
  | nil => rfl
  | cons c cells ih =>
      rw [List.pairwise_cons] at h
      by_cases hc : c.column < j
      · rw [List.countP_cons_of_pos (by simpa using hc), List.take_succ_cons, ih h.2,
          List.filter_cons_of_pos (by simpa using hc)]
      · have hzero : (c :: cells).countP (·.column < j) = 0 := by
          rw [List.countP_eq_zero]
          intro d hd
          rcases List.mem_cons.mp hd with rfl | hd
          · simpa using hc
          · have := h.1 d hd
            simp
            omega
        rw [hzero, List.take_zero, eq_comm, List.filter_eq_nil_iff]
        rw [List.countP_eq_zero] at hzero
        exact hzero

/-- Between the ends of two neighbouring columns are the cells of the second. -/
theorem drop_take_countP (j : Nat) :
    (cells.take (cells.countP (·.column < j + 1))).drop (cells.countP (·.column < j)) =
      cells.filter (·.column = j) := by
  rw [take_countP h, filter_lt_succ h]
  refine List.drop_left' ?_
  rw [List.countP_eq_length_filter]

end Sorted

section OfCells

variable {m n : Nat} {cells : List (Cell α)}

theorem entriesAt_ofCells (m n : Nat) (cells : List (Cell α)) (start stop : Nat) :
    (ofCells m n cells).entriesAt start stop =
      ((cells.take stop).drop start).map Cell.entry := by
  have hslice : ∀ {β : Type} (f : Cell α → β),
      ((cells.map f).toArray.extract start stop).toList =
        ((cells.take stop).drop start).map f := by
    intro β f
    rw [List.extract_toArray, List.extract_eq_take_drop, ← List.drop_take, List.map_drop,
      List.map_take]
  rw [entriesAt, ofCells, hslice, hslice, List.zip_map']
  rfl

theorem ptr_ofCells (m : Nat) (cells : List (Cell α)) {j : Nat} (hj : j ≤ n) :
    (ofCells m n cells).ptr j = cells.countP (·.column < j) := by
  rw [ptr, Array.getD_eq_getD_getElem?, ofCells, getElem?_pointers _ hj, List.countP_map]
  rfl

theorem col_ofCells (h : cells.Pairwise (·.column ≤ ·.column)) {j : Nat} (hj : j < n) :
    (ofCells m n cells).col j = (cells.filter (·.column = j)).map Cell.entry := by
  rw [col, entriesAt_ofCells, ptr_ofCells m cells (Nat.le_of_lt hj), ptr_ofCells m cells hj,
    drop_take_countP h]

theorem framed_ofCells (h : ∀ c ∈ cells, c.column < n) : (ofCells m n cells).Framed where
  size_colPtr := size_pointers _ _
  ptr_zero := by
    rw [ptr_ofCells _ _ (Nat.zero_le _)]
    simp
  ptr_succ j hj := by
    have hj : j < n := hj
    rw [ptr_ofCells m cells (Nat.le_of_lt hj), ptr_ofCells m cells hj]
    refine List.countP_mono_left fun c _ hc => ?_
    simp at hc ⊢
    omega
  ptr_last := by
    rw [show (ofCells m n cells).ncols = n from rfl, ptr_ofCells m cells (Nat.le_refl n), nnz,
      ofCells, List.size_toArray, List.length_map, List.countP_eq_length]
    intro c hc
    simpa using h c hc
  size_vals := by simp [ofCells]

theorem valid_ofCells (hrow : ∀ c ∈ cells, c.row < m) (hcolumn : ∀ c ∈ cells, c.column < n)
    (h : (cells.map Cell.place).Pairwise Cell.PlaceLt) : (ofCells m n cells).Valid := by
  rw [List.pairwise_map] at h
  have hsorted : cells.Pairwise (·.column ≤ ·.column) := h.imp fun h => h.column_le
  refine ⟨framed_ofCells hcolumn, fun j (hj : j < n) e he => ?_, fun j (hj : j < n) => ?_⟩
  · rw [col_ofCells hsorted hj, List.mem_map] at he
    obtain ⟨c, hc, rfl⟩ := he
    exact hrow c (List.mem_filter.mp hc).1
  · rw [col_ofCells hsorted hj, List.pairwise_map]
    refine (h.filter _).imp_of_mem fun {c d} hc hd hcd => ?_
    have hc' : c.column = j := by simpa using (List.mem_filter.mp hc).2
    have hd' : d.column = j := by simpa using (List.mem_filter.mp hd).2
    rcases hcd with hlt | ⟨-, hlt⟩
    · simp only [Cell.place] at hlt
      omega
    · exact hlt

end OfCells

/-! ## The cells of a matrix -/

/-- The cells of the first `k` columns, column after column. -/
def cellsBefore (a : Csc α) (k : Nat) : List (Cell α) :=
  (List.range k).flatMap fun j => (a.col j).map fun e => ⟨j, e.1, e.2⟩

/-- The cells of a matrix. -/
def cellList (a : Csc α) : List (Cell α) := a.cellsBefore a.ncols

theorem cellsBefore_succ (a : Csc α) (k : Nat) :
    a.cellsBefore (k + 1) =
      a.cellsBefore k ++ (a.col k).map fun e => (⟨k, e.1, e.2⟩ : Cell α) := by
  rw [cellsBefore, List.range_succ, List.flatMap_append, List.flatMap_singleton]
  rfl

theorem Framed.cells?_eq {a : Csc α} (h : a.Framed) : a.cells? = some a.cellList := by
  have hmap : (List.range a.ncols).mapM a.columnCells? =
      some ((List.range a.ncols).map fun j =>
        (a.col j).map fun e => (⟨j, e.1, e.2⟩ : Cell α)) := by
    rw [mapM_eq_some, List.map_map]
    refine List.map_congr_left fun j hj => ?_
    rw [columnCells?, h.column?_eq (List.mem_range.mp hj)]
    rfl
  rw [cells?, hmap]
  rfl

/-- Laying out cells and reading them back gives the same cells. -/
theorem cellList_ofCells {m n : Nat} {cells : List (Cell α)}
    (h : cells.Pairwise (·.column ≤ ·.column)) (hn : ∀ c ∈ cells, c.column < n) :
    (ofCells m n cells).cellList = cells := by
  have hback : ∀ j, ((cells.filter (·.column = j)).map Cell.entry).map
      (fun e => (⟨j, e.1, e.2⟩ : Cell α)) = cells.filter (·.column = j) := by
    intro j
    rw [List.map_map]
    conv_rhs => rw [← List.map_id (cells.filter (·.column = j))]
    refine List.map_congr_left fun c hc => ?_
    obtain ⟨column, row, value⟩ := c
    have hc' : column = j := by simpa using (List.mem_filter.mp hc).2
    rw [hc']
    rfl
  have hwalk : ∀ k ≤ n, (ofCells m n cells).cellsBefore k = cells.filter (·.column < k) := by
    intro k
    induction k with
    | zero =>
        intro _
        rw [eq_comm, cellsBefore, List.range_zero, List.flatMap_nil, List.filter_eq_nil_iff]
        simp
    | succ k ih =>
        intro hk
        rw [cellsBefore_succ, ih (by omega), col_ofCells h hk, hback, filter_lt_succ h]
  have hall := hwalk n (Nat.le_refl n)
  rw [cellList, show (ofCells m n cells).ncols = n from rfl, hall, List.filter_eq_self]
  intro c hc
  simpa using hn c hc

section CellList

variable {a : Csc α}

/-- Without the columns, the cells are the entries. -/
theorem Framed.map_entry_cellsBefore (h : a.Framed) {k : Nat} (hk : k ≤ a.ncols) :
    (a.cellsBefore k).map Cell.entry = a.entriesAt 0 (a.ptr k) := by
  induction k with
  | zero =>
      rw [h.ptr_zero, entriesAt_self]
      rfl
  | succ k ih =>
      have hcol : (a.col k).map (Cell.entry ∘ fun e => (⟨k, e.1, e.2⟩ : Cell α)) = a.col k :=
        List.map_id _
      rw [cellsBefore_succ, List.map_append, ih (by omega), List.map_map, hcol, col,
        entriesAt_append (Nat.zero_le _) (h.ptr_succ k hk) (h.ptr_le (by omega))
          (h.ptr_le' (by omega))]

theorem Framed.length_cellsBefore (h : a.Framed) {k : Nat} (hk : k ≤ a.ncols) :
    (a.cellsBefore k).length = a.ptr k := by
  have hlen := congrArg List.length (h.map_entry_cellsBefore hk)
  rwa [List.length_map, length_entriesAt (h.ptr_le hk) (h.ptr_le' hk)] at hlen

theorem Framed.map_value_cellList (h : a.Framed) : a.cellList.map Cell.value = a.vals.toList := by
  have hvalue := congrArg (List.map Prod.snd) (h.map_entry_cellsBefore (Nat.le_refl _))
  rw [List.map_map, entriesAt, h.ptr_last, nnz, Array.extract_size, ← h.size_vals,
    Array.extract_size, List.map_snd_zip] at hvalue
  · exact hvalue
  · simp [h.size_vals]

theorem Framed.length_cellList (h : a.Framed) : a.cellList.length = a.nnz := by
  rw [cellList, h.length_cellsBefore (Nat.le_refl _), h.ptr_last]

theorem Framed.map_row_cellList (h : a.Framed) : a.cellList.map Cell.row = a.rowIdx.toList := by
  have hrow := congrArg (List.map Prod.fst) (h.map_entry_cellsBefore (Nat.le_refl _))
  rw [List.map_map, entriesAt, h.ptr_last, nnz, Array.extract_size, ← h.size_vals,
    Array.extract_size, List.map_fst_zip] at hrow
  · exact hrow
  · simp [h.size_vals]

theorem mem_cellsBefore {k : Nat} {c : Cell α} :
    c ∈ a.cellsBefore k ↔ c.column < k ∧ (c.row, c.value) ∈ a.col c.column := by
  rw [cellsBefore, List.mem_flatMap]
  constructor
  · rintro ⟨j, hj, hc⟩
    rw [List.mem_map] at hc
    obtain ⟨e, he, rfl⟩ := hc
    exact ⟨List.mem_range.mp hj, he⟩
  · rintro ⟨hj, hc⟩
    exact ⟨c.column, List.mem_range.mpr hj, List.mem_map.mpr ⟨(c.row, c.value), hc, rfl⟩⟩

theorem lt_of_mem_cellList (h : a.Valid) {c : Cell α} (hc : c ∈ a.cellList) :
    c.column < a.ncols ∧ c.row < a.nrows := by
  obtain ⟨hj, he⟩ := mem_cellsBefore.mp hc
  exact ⟨hj, h.row_lt _ hj _ he⟩

theorem row_le_of_mem_cellList (hu : a.Upper) {c : Cell α} (hc : c ∈ a.cellList) :
    c.row ≤ c.column := by
  obtain ⟨hj, he⟩ := mem_cellsBefore.mp hc
  exact hu.row_le _ hj _ he

theorem upper_iff_cellList :
    a.Upper ↔ a.nrows = a.ncols ∧ ∀ c ∈ a.cellList, c.row ≤ c.column := by
  constructor
  · intro h
    exact ⟨h.square, fun c hc => row_le_of_mem_cellList h hc⟩
  · rintro ⟨hsquare, hrow⟩
    exact ⟨hsquare, fun j hj e he => hrow ⟨j, e.1, e.2⟩ (mem_cellsBefore.mpr ⟨hj, he⟩)⟩

theorem Framed.countP_cellsBefore (h : a.Framed) {j k : Nat} (hj : j ≤ k) (hk : k ≤ a.ncols) :
    (a.cellsBefore k).countP (·.column < j) = a.ptr j := by
  induction k, hj using Nat.le_induction with
  | base =>
      rw [← h.length_cellsBefore hk, List.countP_eq_length]
      intro c hc
      simpa using (mem_cellsBefore.mp hc).1
  | succ k hj ih =>
      have hlast : ((a.col k).map fun e => (⟨k, e.1, e.2⟩ : Cell α)).countP (·.column < j) = 0 := by
        simp [List.countP_map, List.countP_eq_zero, hj]
      rw [cellsBefore_succ, List.countP_append, ih (by omega), hlast, Nat.add_zero]

/-- Reading the cells of a matrix and laying them out gives the same matrix. -/
theorem Framed.ofCells_cellList (h : a.Framed) : ofCells a.nrows a.ncols a.cellList = a := by
  have hptr : pointers a.ncols (a.cellList.map Cell.column) = a.colPtr := by
    refine Array.ext_getElem? fun j => ?_
    rcases Nat.lt_or_ge a.ncols j with hj | hj
    · rw [Array.getElem?_eq_none (by rw [size_pointers]; exact hj),
        Array.getElem?_eq_none (by rw [h.size_colPtr]; exact hj)]
    · rw [getElem?_pointers _ hj, List.countP_map, h.getElem?_colPtr hj]
      exact congrArg some (h.countP_cellsBefore hj (Nat.le_refl _))
  rw [ofCells, hptr, h.map_row_cellList, h.map_value_cellList]

/-- The cells of the first columns come first. -/
theorem exists_cellsBefore_append {k : Nat} (hk : k ≤ a.ncols) :
    ∃ after, a.cellList = a.cellsBefore k ++ after := by
  refine ⟨((List.range (a.ncols - k)).map (k + ·)).flatMap fun i =>
    (a.col i).map fun e => (⟨i, e.1, e.2⟩ : Cell α), ?_⟩
  rw [cellsBefore, ← List.flatMap_append, ← List.range_add, Nat.add_sub_cancel' hk]
  rfl

/-- The cell at a position has the column that owns the position. -/
theorem Framed.getElem?_cellList (h : a.Framed) {j p : Nat} (hj : j < a.ncols)
    (hp : a.ptr j ≤ p) (hp' : p < a.ptr (j + 1)) :
    a.cellList[p]? = ( a.entry? p).map fun e => ⟨j, e.1, e.2⟩ := by
  obtain ⟨after, hsplit⟩ := exists_cellsBefore_append (a := a) (k := j + 1) hj
  have hlen := h.length_cellsBefore (Nat.le_of_lt hj)
  have hlen' := h.length_cellsBefore (k := j + 1) hj
  rw [hsplit, List.getElem?_append_left (by omega), cellsBefore_succ,
    List.getElem?_append_right (by omega), hlen, List.getElem?_map, col, getElem?_entriesAt,
    if_pos (by omega), Nat.add_sub_cancel' hp]

/-- The places increase if the rows of each column do. -/
theorem pairwise_cellList (h : ∀ j < a.ncols, (a.col j).Pairwise (·.1 < ·.1)) :
    (a.cellList.map Cell.place).Pairwise Cell.PlaceLt := by
  have hwalk : ∀ k ≤ a.ncols, ((a.cellsBefore k).map Cell.place).Pairwise Cell.PlaceLt := by
    intro k
    induction k with
    | zero => intro _; exact List.Pairwise.nil
    | succ k ih =>
        intro hk
        rw [cellsBefore_succ, List.map_append, List.pairwise_append]
        refine ⟨ih (by omega), ?_, fun p hp q hq => ?_⟩
        · rw [List.map_map, List.pairwise_map]
          exact (h k hk).imp fun hlt => Or.inr ⟨rfl, hlt⟩
        · rw [List.mem_map] at hp
          obtain ⟨c, hc, rfl⟩ := hp
          rw [List.map_map, List.mem_map] at hq
          obtain ⟨e, _, rfl⟩ := hq
          exact Or.inl (mem_cellsBefore.mp hc).1
  exact hwalk a.ncols (Nat.le_refl _)

theorem Valid.pairwise_cellList (h : a.Valid) :
    (a.cellList.map Cell.place).Pairwise Cell.PlaceLt :=
  Csc.pairwise_cellList h.increasing

theorem Valid.nodup_places (h : a.Valid) : (a.cellList.map Cell.place).Nodup :=
  h.pairwise_cellList.imp Cell.PlaceLt.ne

theorem Valid.nodup_cellList (h : a.Valid) : a.cellList.Nodup :=
  List.Nodup.of_map Cell.place h.nodup_places

/-- Matrices of one size with the same cells are stored in the same way. -/
theorem Valid.eq_of_mem_iff {b : Csc α} (h : a.Valid) (hb : b.Valid) (hnrows : a.nrows = b.nrows)
    (hncols : a.ncols = b.ncols) (hcells : ∀ c, c ∈ a.cellList ↔ c ∈ b.cellList) : a = b := by
  have hperm : a.cellList.Perm b.cellList :=
    (List.perm_ext_iff_of_nodup h.nodup_cellList hb.nodup_cellList).mpr hcells
  have hsorted := h.pairwise_cellList
  have hsorted' := hb.pairwise_cellList
  rw [List.pairwise_map] at hsorted hsorted'
  have heq : a.cellList = b.cellList :=
    hperm.eq_of_pairwise (fun _ _ _ _ hcd hdc => absurd rfl (hcd.trans hdc).ne) hsorted hsorted'
  rw [← h.toFramed.ofCells_cellList, ← hb.toFramed.ofCells_cellList, hnrows, hncols, heq]

/-! ## Loops over the cells -/

section Loops

variable {σ : Type} {I : List (Cell α) → σ → Prop} {j : Nat} {s : σ}

/-- A loop over the entries of a column with their positions is a stretch of one over the cells. -/
theorem Framed.foldlM_zipIdx_col (h : a.Framed) (hj : j < a.ncols)
    {f : σ → (Nat × α) × Nat → Option σ} (h0 : I (a.cellsBefore j) s)
    (hstep : ∀ done c rest s, a.cellList = done ++ c :: rest → c.column = j → I done s →
      ∃ s', f s (c.entry, done.length) = some s' ∧ I (done ++ [c]) s') :
    ∃ s', ((a.col j).zipIdx (a.ptr j)).foldlM f s = some s' ∧ I (a.cellsBefore (j + 1)) s' := by
  let cell (x : (Nat × α) × Nat) : Cell α := ⟨j, x.1.1, x.1.2⟩
  have hall : a.cellsBefore (j + 1) =
      a.cellsBefore j ++ ((a.col j).zipIdx (a.ptr j)).map cell := by
    have hfst := congrArg (List.map fun e => (⟨j, e.1, e.2⟩ : Cell α))
      (List.zipIdx_map_fst (a.ptr j) (a.col j))
    rw [List.map_map] at hfst
    rw [cellsBefore_succ, ← hfst]
    rfl
  obtain ⟨after, hafter⟩ := exists_cellsBefore_append (a := a) hj
  obtain ⟨s', hs', hI⟩ := foldlM_total (f := f) (l := (a.col j).zipIdx (a.ptr j)) (s := s)
    (I := fun p s => I (a.cellsBefore j ++ p.map cell) s) (by simpa using h0)
    fun p x q hsplit s hs => by
      have hlength : (a.cellsBefore j ++ p.map cell).length = x.2 := by
        have hx := congrArg (·[p.length]?) hsplit
        rw [List.getElem?_append_right (Nat.le_refl _), Nat.sub_self, List.getElem?_cons_zero,
          List.getElem?_zipIdx, Option.map_eq_some_iff] at hx
        obtain ⟨_, -, rfl⟩ := hx
        rw [List.length_append, List.length_map, h.length_cellsBefore (Nat.le_of_lt hj)]
      have hcell : a.cellList =
          (a.cellsBefore j ++ p.map cell) ++ cell x :: (q.map cell ++ after) := by
        rw [hafter, hall, hsplit]
        simp
      obtain ⟨s', hs', hI⟩ := hstep _ (cell x) _ s hcell rfl hs
      rw [hlength] at hs'
      exact ⟨s', hs', by simpa using hI⟩
  exact ⟨s', hs', hall ▸ hI⟩

theorem Framed.foldlM_col (h : a.Framed) (hj : j < a.ncols) {f : σ → Nat × α → Option σ}
    (h0 : I (a.cellsBefore j) s)
    (hstep : ∀ done c rest s, a.cellList = done ++ c :: rest → c.column = j → I done s →
      ∃ s', f s c.entry = some s' ∧ I (done ++ [c]) s') :
    ∃ s', (a.col j).foldlM f s = some s' ∧ I (a.cellsBefore (j + 1)) s' := by
  obtain ⟨s', hs', hI⟩ := h.foldlM_zipIdx_col hj (f := fun s x => f s x.1) h0 hstep
  rw [← List.foldlM_map, List.zipIdx_map_fst] at hs'
  exact ⟨s', hs', hI⟩

theorem Framed.foldlM_positions (h : a.Framed) (hj : j < a.ncols) {f : σ → Nat → Option σ}
    (h0 : I (a.cellsBefore j) s)
    (hstep : ∀ done c rest s, a.cellList = done ++ c :: rest → c.column = j → I done s →
      ∃ s', f s done.length = some s' ∧ I (done ++ [c]) s') :
    ∃ s', (List.range' (a.ptr j) (a.ptr (j + 1) - a.ptr j)).foldlM f s = some s' ∧
      I (a.cellsBefore (j + 1)) s' := by
  obtain ⟨s', hs', hI⟩ := h.foldlM_zipIdx_col hj (f := fun s x => f s x.2) h0 hstep
  rw [← List.foldlM_map, List.zipIdx_map_snd, h.length_col hj] at hs'
  exact ⟨s', hs', hI⟩

end Loops

/-! ## The upper triangle -/

theorem filter_cellsBefore {j k : Nat} (hjk : j ≤ k) :
    (a.cellsBefore k).filter (·.column < j) = a.cellsBefore j := by
  induction k, hjk using Nat.le_induction with
  | base =>
      rw [List.filter_eq_self]
      exact fun c hc => decide_eq_true (mem_cellsBefore.mp hc).1
  | succ k hjk ih =>
      rw [cellsBefore_succ, List.filter_append, ih, List.append_right_eq_self,
        List.filter_eq_nil_iff]
      rintro c hc
      obtain ⟨e, -, rfl⟩ := List.mem_map.mp hc
      simpa using hjk

/-- The cells are appended that are on or above the diagonal. -/
theorem appendUpper_eq (h : a.Framed) {j : Nat} (hj : j < a.ncols) (u : Csc α) :
    a.appendUpper u j = some { u with
      colPtr := u.colPtr.push (u.rowIdx.size + ((a.col j).filter (·.1 ≤ j)).length)
      rowIdx := u.rowIdx ++ (((a.col j).filter (·.1 ≤ j)).map (·.1)).toArray
      vals := u.vals ++ (((a.col j).filter (·.1 ≤ j)).map (·.2)).toArray } := by
  have hwalk : ∀ (es : List (Nat × α)) (u : Csc α),
      es.foldl (fun upper e =>
        if e.1 ≤ j then
          { upper with rowIdx := upper.rowIdx.push e.1, vals := upper.vals.push e.2 }
        else upper) u =
      { u with
        rowIdx := u.rowIdx ++ ((es.filter (·.1 ≤ j)).map (·.1)).toArray
        vals := u.vals ++ ((es.filter (·.1 ≤ j)).map (·.2)).toArray } := by
    intro es
    induction es with
    | nil => simp
    | cons e es ih =>
        intro u
        rw [List.foldl_cons, ih]
        by_cases he : e.1 ≤ j <;> simp [he]
  have hadded := congrArg (fun v : Csc α => some { v with colPtr := v.colPtr.push v.rowIdx.size })
    (hwalk (a.col j) u)
  rw [appendUpper, h.column?_eq hj]
  exact hadded.trans (by simp)

theorem Framed.upperTriangle_eq (h : a.Framed) :
    a.upperTriangle =
      some (ofCells a.nrows a.ncols (a.cellList.filter fun c => c.row ≤ c.column)) := by
  let kept (k : Nat) : List (Cell α) := (a.cellsBefore k).filter fun c => c.row ≤ c.column
  let upTo (k : Nat) : Csc α := ⟨a.nrows, a.ncols,
    ((List.range (k + 1)).map fun j => (kept j).length).toArray,
    ((kept k).map Cell.row).toArray, ((kept k).map Cell.value).toArray⟩
  obtain ⟨_, hwalk, rfl⟩ := foldlM_range_total (n := a.ncols) (f := a.appendUpper) (s := upTo 0)
    (I := fun k u => u = upTo k) rfl fun k u hk hu => by
      have hnew : kept (k + 1) = kept k ++
          ((a.col k).filter (·.1 ≤ k)).map fun e => (⟨k, e.1, e.2⟩ : Cell α) := by
        simp only [kept, cellsBefore_succ, List.filter_append, List.filter_map]
        rfl
      refine ⟨_, appendUpper_eq h hk u, ?_⟩
      subst hu
      simp [upTo, hnew, List.range_succ, Function.comp_def]
  have hptr : ∀ j, j ≤ a.ncols →
      ((kept a.ncols).map Cell.column).countP (· < j) = (kept j).length := by
    intro j hj
    rw [List.countP_map, List.countP_eq_length_filter, List.filter_filter]
    simp only [Function.comp_apply, Bool.and_comm]
    rw [← List.filter_filter]
    exact congrArg (fun cs => (List.filter _ cs).length) (filter_cellsBefore hj)
  rw [upperTriangle]
  refine hwalk.trans (congrArg some ?_)
  simp only [upTo, ofCells, pointers, Csc.mk.injEq, true_and]
  refine ⟨congrArg List.toArray (List.map_congr_left fun j hj => ?_), rfl, rfl⟩
  exact (hptr j (Nat.le_of_lt_succ (List.mem_range.mp hj))).symm

end CellList

/-! ## The column of a position -/

/-- Halving finds the first end past `p`, if the ends before the stretch are not
past it and those after it are. -/
theorem firstPast_spec {ends : Array Nat} {p n : Nat} {f : Nat → Nat}
    (hends : Access.Tabulates ends n f) (hmono : ∀ i j, i ≤ j → j < n → f i ≤ f j) :
    ∀ {size base : Nat}, 0 < size → base + size ≤ n → (∀ i < base, f i ≤ p) →
      (∀ i, base + size ≤ i → i < n → p < f i) →
      ∃ r, firstPast ends p base size = some r ∧ (∀ i < r, f i ≤ p) ∧
        ∀ i, r ≤ i → i < n → p < f i := by
  intro size
  induction size using Nat.strong_induction_on with
  | _ size ih =>
      intro base hpos hsize hbelow habove
      rw [firstPast]
      by_cases hone : size ≤ 1
      · rw [if_pos hone, hends.get base (by omega), Option.map_some]
        obtain rfl : size = 1 := by omega
        by_cases hp : f base ≤ p
        · refine ⟨base + 1, by rw [if_pos hp], fun i hi => ?_, habove⟩
          rcases Nat.lt_or_eq_of_le (Nat.le_of_lt_succ hi) with hi | rfl
          · exact hbelow i hi
          · exact hp
        · refine ⟨base, by rw [if_neg hp], hbelow, fun i hi hin => ?_⟩
          have := hmono base i hi hin
          omega
      · rw [if_neg hone, hends.get (base + size / 2) (by omega)]
        simp only
        by_cases hp : f (base + size / 2) ≤ p
        · rw [if_pos hp]
          refine ih _ (by omega) (by omega) (by omega) (fun i hi => ?_)
            (fun i hi hin => habove i (by omega) hin)
          have := hmono i (base + size / 2) (by omega) (by omega)
          omega
        · rw [if_neg hp]
          refine ih _ (by omega) (by omega) (by omega) hbelow fun i hi hin => ?_
          have := hmono (base + size / 2) i (by omega) hin
          omega

/-- The column found is the one that owns the position. -/
theorem Framed.columnOf_eq {a : Csc α} (h : a.Framed) {j p : Nat} (hj : j < a.ncols)
    (hp : a.ptr j ≤ p) (hp' : p < a.ptr (j + 1)) : a.columnOf p = some j := by
  have hsize := h.size_colPtr
  have hends : Access.Tabulates (a.colPtr.extract 1 a.colPtr.size) a.ncols
      fun i => a.ptr (i + 1) := by
    refine ⟨by rw [Array.size_extract]; omega, fun i hi => ?_⟩
    rw [Array.getElem?_extract, if_pos (by omega), Nat.add_comm 1 i]
    exact h.getElem?_colPtr hi
  obtain ⟨r, hr, hbelow, habove⟩ := firstPast_spec hends
    (fun i j hij hj => h.ptr_mono (Nat.succ_le_succ hij) hj)
    (show 0 < a.ncols by omega) (Nat.le_of_eq (Nat.zero_add a.ncols))
    (fun i hi => absurd hi (Nat.not_lt_zero i))
    (show ∀ i, _ → _ → p < _ from fun i hi hin => by omega)
  have hempty : a.colPtr.isEmpty = false := by
    rw [Array.isEmpty_eq_false_iff, ne_eq, ← Array.size_eq_zero_iff]
    omega
  rw [columnOf, hempty, if_neg (by simp), if_neg (by omega), hsize, Nat.add_sub_cancel, ← hsize,
    hr]
  -- The first end past `p` is not before column `j`, and not after it.
  have hle : r ≤ j := by
    rcases Nat.lt_or_ge j r with hlt | hge
    · have := hbelow j hlt
      omega
    · exact hge
  have hge : j ≤ r := by
    rcases Nat.lt_or_ge r j with hlt | hge
    · have := habove (j - 1) (by omega) (by omega)
      rw [Nat.sub_add_cancel (by omega)] at this
      omega
    · exact hge
  rw [Nat.le_antisymm hle hge]

end Csc

end Saddle
