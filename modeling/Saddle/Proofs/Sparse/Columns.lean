import Mathlib.Data.Nat.Find
import Mathlib.Order.Nat
import Mathlib.Tactic.ByContra
import Saddle.Proofs.Access
import Saddle.Sparse.Check

/-!
# Columns as lists

A kernel reads a column through its pointers, position by position or slice by
slice. Here both readings are shown to give one list, `col j`, as soon as the
pointers frame the entries; from there on no proof about a kernel mentions a
position it does not write to.

`Readable` asks no more than that each column lies inside the arrays; nothing is
said of what comes before the first one or after the last. `Framed` asks that the
columns lie one after the other over all entries. The factor `L` is framed from the
start of an elimination, long before its rows are in order. `Valid` adds the order
of the rows, and is what `check` decides.
-/

namespace Saddle.Csc

variable {α : Type}

/-- Where column `j` starts, and where the one before it ends. -/
def ptr (a : Csc α) (j : Nat) : Nat := a.colPtr.getD j 0

/-- The entries at the positions from `start` up to but not including `stop`. -/
def entriesAt (a : Csc α) (start stop : Nat) : List (Nat × α) :=
  (a.rowIdx.extract start stop).toList.zip (a.vals.extract start stop).toList

/-- The entries of column `j`. -/
def col (a : Csc α) (j : Nat) : List (Nat × α) := a.entriesAt (a.ptr j) (a.ptr (j + 1))

/-- Every column can be read: its ends are in order, and inside the entries. -/
structure Readable (a : Csc α) : Prop where
  size_colPtr : ∀ j < a.ncols, j + 1 < a.colPtr.size
  ptr_succ : ∀ j < a.ncols, a.ptr j ≤ a.ptr (j + 1)
  ptr_le : ∀ j < a.ncols, a.ptr (j + 1) ≤ a.rowIdx.size
  ptr_le' : ∀ j < a.ncols, a.ptr (j + 1) ≤ a.vals.size

/-- The columns lie one after the other, and together hold all entries. -/
structure Framed (a : Csc α) : Prop where
  size_colPtr : a.colPtr.size = a.ncols + 1
  ptr_zero : a.ptr 0 = 0
  ptr_succ : ∀ j < a.ncols, a.ptr j ≤ a.ptr (j + 1)
  ptr_last : a.ptr a.ncols = a.nnz
  size_vals : a.vals.size = a.rowIdx.size

/-- The arrays describe a matrix: the rows of each column exist and increase. -/
structure Valid (a : Csc α) : Prop extends Framed a where
  row_lt : ∀ j < a.ncols, ∀ e ∈ a.col j, e.1 < a.nrows
  increasing : ∀ j < a.ncols, (a.col j).Pairwise (·.1 < ·.1)

/-- The matrix is square and stores nothing below its diagonal. -/
structure Upper (a : Csc α) : Prop where
  square : a.nrows = a.ncols
  row_le : ∀ j < a.ncols, ∀ e ∈ a.col j, e.1 ≤ j

/-! ## Stretches of entries -/

section Entries

variable {a : Csc α} {start stop : Nat}

theorem length_entriesAt (hr : stop ≤ a.rowIdx.size) (hv : stop ≤ a.vals.size) :
    (a.entriesAt start stop).length = stop - start := by
  simp only [entriesAt, List.length_zip, Array.length_toList, Array.size_extract]
  omega

theorem entriesAt_self (a : Csc α) (p : Nat) : a.entriesAt p p = [] := by
  simp [entriesAt]

theorem getElem?_entriesAt (a : Csc α) (start stop i : Nat) :
    (a.entriesAt start stop)[i]? =
      if start + i < stop then a.entry? (start + i) else none := by
  simp only [entriesAt, entry?, List.zip, List.getElem?_zipWith, Array.getElem?_toList,
    Array.getElem?_extract]
  by_cases h : start + i < stop
  · have hr : i < min stop a.rowIdx.size - start ↔ start + i < a.rowIdx.size := by omega
    have hv : i < min stop a.vals.size - start ↔ start + i < a.vals.size := by omega
    rw [if_pos h]
    by_cases h1 : start + i < a.rowIdx.size <;> by_cases h2 : start + i < a.vals.size <;>
      simp [hr, hv, h1, h2]
  · have hr : ¬ i < min stop a.rowIdx.size - start := by omega
    simp [h, hr]

/-- What is read after an entry has been written. -/
theorem entry?_setIfInBounds {l : Csc α} {slot : Nat} (hr : slot < l.rowIdx.size)
    (hv : slot < l.vals.size) (e : Nat × α) (p : Nat) :
    Csc.entry? { l with
      rowIdx := l.rowIdx.setIfInBounds slot e.1
      vals := l.vals.setIfInBounds slot e.2 } p = if p = slot then some e else l.entry? p := by
  simp only [ entry?, Array.getElem?_setIfInBounds]
  by_cases hp : p = slot
  · subst hp
    simp [hr, hv]
  · simp [hp, Ne.symm hp]

/-- Reading a stretch position by position gives its entries. -/
theorem mapM_entry? (hr : stop ≤ a.rowIdx.size) (hv : stop ≤ a.vals.size) :
    (List.range' start (stop - start)).mapM a.entry? = some (a.entriesAt start stop) := by
  rw [mapM_eq_some]
  apply List.ext_getElem?
  intro i
  rw [List.getElem?_map, List.getElem?_map, getElem?_entriesAt]
  by_cases h : start + i < stop
  · have hr' : start + i < a.rowIdx.size := by omega
    have hv' : start + i < a.vals.size := by omega
    rw [List.getElem?_range' (by omega), if_pos h]
    simp [ entry?, hr', hv']
  · rw [List.getElem?_eq_none (by rw [List.length_range']; omega), if_neg h]
    rfl

/-- So does a pair of slices. -/
theorem zip_slices (hs : start ≤ stop) (hr : stop ≤ a.rowIdx.size) (hv : stop ≤ a.vals.size) :
    (do return (← Access.slice a.rowIdx start stop).zip (← Access.slice a.vals start stop)) =
      some (a.entriesAt start stop) := by
  rw [Access.slice_of_le hs hr, Access.slice_of_le hs hv]
  rfl

theorem entriesAt_snoc {p : Nat} (hs : start ≤ p) {e : Nat × α} (he : a.entry? p = some e) :
    a.entriesAt start (p + 1) = a.entriesAt start p ++ [e] := by
  apply List.ext_getElem?
  intro i
  have hp : p < a.rowIdx.size ∧ p < a.vals.size := by
    by_contra hp
    rw [not_and_or] at hp
    rcases hp with hp | hp <;> simp [ entry?, hp] at he
  have hlen : (a.entriesAt start p).length = p - start :=
    length_entriesAt (Nat.le_of_lt hp.1) (Nat.le_of_lt hp.2)
  rw [getElem?_entriesAt, List.getElem?_append, hlen, getElem?_entriesAt]
  by_cases hi : start + i < p
  · rw [if_pos (by omega), if_pos (by omega), if_pos hi]
  · by_cases hip : start + i = p
    · rw [if_pos (by omega), if_neg (by omega), hip, he, show i - (p - start) = 0 by omega]
      rfl
    · rw [if_neg (by omega), if_neg (by omega), List.getElem?_eq_none (by simp; omega)]

theorem entriesAt_append {a : Csc α} {start mid stop : Nat} (hs : start ≤ mid) (hm : mid ≤ stop)
    (hr : mid ≤ a.rowIdx.size) (hv : mid ≤ a.vals.size) :
    a.entriesAt start mid ++ a.entriesAt mid stop = a.entriesAt start stop := by
  apply List.ext_getElem?
  intro i
  rw [List.getElem?_append, length_entriesAt hr hv, getElem?_entriesAt, getElem?_entriesAt,
    getElem?_entriesAt]
  by_cases hi : i < mid - start
  · rw [if_pos hi, if_pos (by omega), if_pos (by omega)]
  · rw [if_neg hi, show mid + (i - (mid - start)) = start + i by omega]

/-- The stretch does not see what is written elsewhere. -/
theorem entriesAt_congr {b : Csc α} (h : ∀ p, start ≤ p → p < stop → a.entry? p = b.entry? p) :
    a.entriesAt start stop = b.entriesAt start stop := by
  apply List.ext_getElem?
  intro i
  rw [getElem?_entriesAt, getElem?_entriesAt]
  by_cases hi : start + i < stop
  · rw [if_pos hi, if_pos hi, h _ (by omega) hi]
  · rw [if_neg hi, if_neg hi]

end Entries

/-! ## Columns that can be read -/

namespace Readable

variable {a : Csc α} (h : a.Readable) {j : Nat} (hj : j < a.ncols)

include h hj

theorem start?_eq : a.start? j = some (a.ptr j) := by
  have := h.size_colPtr j hj
  have hlt : j < a.colPtr.size := by omega
  simp [start?, ptr, Array.getD, hlt]

theorem stop?_eq : a.stop? j = some (a.ptr (j + 1)) := by
  have hlt := h.size_colPtr j hj
  simp [stop?, ptr, Array.getD, hlt]

theorem positions?_eq :
    a.positions? j = some (List.range' (a.ptr j) (a.ptr (j + 1) - a.ptr j)) := by
  rw [positions?, h.start?_eq hj, h.stop?_eq hj]
  rfl

theorem column?_eq : a.column? j = some (a.col j) := by
  rw [column?, h.start?_eq hj, h.stop?_eq hj]
  exact zip_slices (h.ptr_succ j hj) (h.ptr_le j hj) (h.ptr_le' j hj)

theorem mapM_positions :
    (List.range' (a.ptr j) (a.ptr (j + 1) - a.ptr j)).mapM a.entry? = some (a.col j) :=
  mapM_entry? (h.ptr_le j hj) (h.ptr_le' j hj)

theorem length_col : (a.col j).length = a.ptr (j + 1) - a.ptr j :=
  length_entriesAt (h.ptr_le j hj) (h.ptr_le' j hj)

end Readable

/-- A column that has been read can be read. -/
theorem of_column? {a : Csc α} {j : Nat} {es : List (Nat × α)} (h : a.column? j = some es) :
    j + 1 < a.colPtr.size ∧ a.ptr j ≤ a.ptr (j + 1) ∧ a.ptr (j + 1) ≤ a.rowIdx.size ∧
      a.ptr (j + 1) ≤ a.vals.size := by
  simp only [column?, start?, stop?, Option.bind_eq_bind, Option.bind_eq_some_iff] at h
  obtain ⟨start, hstart, stop, hstop, rows, hrows, vals, hvals, -⟩ := h
  obtain ⟨hlt, hstop⟩ := Array.getElem?_eq_some_iff.mp hstop
  obtain ⟨hlt', hstart⟩ := Array.getElem?_eq_some_iff.mp hstart
  have hptr : a.ptr (j + 1) = stop := by simp [ptr, Array.getD, hlt, hstop]
  have hptr' : a.ptr j = start := by simp [ptr, Array.getD, hlt', hstart]
  rw [Access.slice] at hrows hvals
  split at hrows
  · split at hvals
    · rw [hptr, hptr']
      omega
    · cases hvals
  · cases hrows

/-! ## Framed columns -/

namespace Framed

variable {a : Csc α} (h : a.Framed)

include h

theorem ptr_mono {i j : Nat} (hij : i ≤ j) (hj : j ≤ a.ncols) : a.ptr i ≤ a.ptr j := by
  induction j, hij using Nat.le_induction with
  | base => exact Nat.le_refl _
  | succ j _ ih => exact Nat.le_trans (ih (by omega)) (h.ptr_succ j (by omega))

theorem ptr_le {j : Nat} (hj : j ≤ a.ncols) : a.ptr j ≤ a.rowIdx.size := by
  have := h.ptr_mono hj (Nat.le_refl _)
  rwa [h.ptr_last] at this

theorem ptr_le' {j : Nat} (hj : j ≤ a.ncols) : a.ptr j ≤ a.vals.size := by
  rw [h.size_vals]
  exact h.ptr_le hj

theorem getElem?_colPtr {j : Nat} (hj : j ≤ a.ncols) : a.colPtr[j]? = some (a.ptr j) := by
  have hlt : j < a.colPtr.size := by rw [h.size_colPtr]; omega
  simp [ptr, Array.getD, hlt]

theorem start?_eq {j : Nat} (hj : j ≤ a.ncols) : a.start? j = some (a.ptr j) :=
  h.getElem?_colPtr hj

theorem stop?_eq {j : Nat} (hj : j < a.ncols) : a.stop? j = some (a.ptr (j + 1)) :=
  h.getElem?_colPtr hj

/-- Every position is in some column. -/
theorem exists_column {p : Nat} (hp : p < a.rowIdx.size) :
    ∃ j < a.ncols, a.ptr j ≤ p ∧ p < a.ptr (j + 1) := by
  have hlast : p < a.ptr a.ncols := by rw [h.ptr_last]; exact hp
  have hex : ∃ j, p < a.ptr j := ⟨_, hlast⟩
  classical
  obtain ⟨hfind, hmin⟩ := (Nat.find_eq_iff hex (m := Nat.find hex)).mp rfl
  have hpos : Nat.find hex ≠ 0 := by
    intro h0
    rw [h0, h.ptr_zero] at hfind
    omega
  have hle : Nat.find hex ≤ a.ncols := Nat.find_min' hex hlast
  have hbelow := hmin (Nat.find hex - 1) (by omega)
  refine ⟨Nat.find hex - 1, by omega, by omega, ?_⟩
  rwa [Nat.sub_add_cancel (by omega)]

/-- No two columns have a position in common. -/
theorem column_unique {i j p : Nat} (hi : i < a.ncols) (hj : j < a.ncols) (hip : a.ptr i ≤ p)
    (hpi : p < a.ptr (i + 1)) (hjp : a.ptr j ≤ p) (hpj : p < a.ptr (j + 1)) : i = j := by
  rcases Nat.lt_trichotomy i j with hlt | heq | hgt
  · have := h.ptr_mono (i := i + 1) (j := j) hlt (Nat.le_of_lt hj)
    omega
  · exact heq
  · have := h.ptr_mono (i := j + 1) (j := i) hgt (Nat.le_of_lt hi)
    omega

theorem readable : a.Readable where
  size_colPtr j hj := by rw [h.size_colPtr]; omega
  ptr_succ := h.ptr_succ
  ptr_le _ hj := h.ptr_le hj
  ptr_le' _ hj := h.ptr_le' hj

theorem positions?_eq {j : Nat} (hj : j < a.ncols) :
    a.positions? j = some (List.range' (a.ptr j) (a.ptr (j + 1) - a.ptr j)) :=
  h.readable.positions?_eq hj

theorem column?_eq {j : Nat} (hj : j < a.ncols) : a.column? j = some (a.col j) :=
  h.readable.column?_eq hj

/-- The columns make up the matrix. -/
theorem ext {b : Csc α} (hb : b.Framed) (hr : a.nrows = b.nrows) (hc : a.ncols = b.ncols)
    (hp : a.colPtr = b.colPtr) (hcol : ∀ j < a.ncols, a.col j = b.col j) : a = b := by
  have hptr : ∀ j, a.ptr j = b.ptr j := fun j => by rw [ptr, ptr, hp]
  have hnnz : a.rowIdx.size = b.rowIdx.size := by
    rw [← nnz, ← nnz, ← h.ptr_last, ← hb.ptr_last, hc, hptr]
  have hentry : ∀ p < a.rowIdx.size, a.entry? p = b.entry? p := by
    intro p hpn
    obtain ⟨j, hj, hjp, hpj⟩ := h.exists_column hpn
    have := congrArg (·[p - a.ptr j]?) (hcol j hj)
    simp only [col] at this
    rw [getElem?_entriesAt, getElem?_entriesAt, ← hptr, ← hptr, if_pos (by omega),
      if_pos (by omega), Nat.add_sub_cancel' hjp] at this
    exact this
  obtain ⟨_, _, _, arow, aval⟩ := a
  obtain ⟨_, _, _, brow, bval⟩ := b
  have hva := h.size_vals
  have hvb := hb.size_vals
  simp only at hr hc hp hnnz hva hvb hentry
  subst hr hc hp
  congr 1
  · refine Array.ext hnnz fun p h1 h2 => ?_
    have := hentry p h1
    simp only [ entry?, Array.getElem?_eq_getElem h1, Array.getElem?_eq_getElem h2,
      Array.getElem?_eq_getElem (hva ▸ h1), Array.getElem?_eq_getElem (hvb ▸ h2)] at this
    simpa using (congrArg (Option.map Prod.fst) this)
  · refine Array.ext (by omega) fun p h1 h2 => ?_
    have := hentry p (hva ▸ h1)
    simp only [ entry?, Array.getElem?_eq_getElem h1, Array.getElem?_eq_getElem h2,
      Array.getElem?_eq_getElem (hva ▸ h1), Array.getElem?_eq_getElem (hvb ▸ h2)] at this
    simpa using (congrArg (Option.map Prod.snd) this)

theorem length_col {j : Nat} (hj : j < a.ncols) :
    (a.col j).length = a.ptr (j + 1) - a.ptr j :=
  h.readable.length_col hj

end Framed

/-! ## What the checks decide -/

theorem checkRows_cons {nrows j row : Nat} {previous : Option Nat} {rest : List Nat} :
    checkRows nrows j previous (row :: rest) = .ok () ↔
      row < nrows ∧ (∀ b ∈ previous, b < row) ∧ checkRows nrows j (some row) rest = .ok () := by
  rw [checkRows.eq_def]
  by_cases hlt : nrows ≤ row
  · simp only [if_pos hlt, reduceCtorEq, false_iff]
    omega
  · simp only [if_neg hlt]
    cases previous with
    | none => simp [Nat.lt_of_not_le hlt]
    | some before =>
        by_cases hb : row ≤ before
        · simp only [if_pos hb, reduceCtorEq, false_iff, Option.mem_some_iff, forall_eq']
          omega
        · simp [if_neg hb, Nat.lt_of_not_le hlt, Nat.lt_of_not_le hb]

theorem checkRows_eq_ok {nrows j : Nat} {previous : Option Nat} {rows : List Nat} :
    checkRows nrows j previous rows = .ok () ↔
      (∀ r ∈ rows, r < nrows ∧ ∀ b ∈ previous, b < r) ∧ rows.Pairwise (· < ·) := by
  induction rows generalizing previous with
  | nil => simp [checkRows.eq_def]
  | cons row rest ih =>
      rw [checkRows_cons, ih, List.forall_mem_cons, List.pairwise_cons]
      constructor
      · rintro ⟨hlt, hb, hrest, hp⟩
        refine ⟨⟨⟨hlt, hb⟩, fun r hr => ⟨(hrest r hr).1, fun b h => ?_⟩⟩,
          fun r hr => (hrest r hr).2 row rfl, hp⟩
        exact Nat.lt_trans (hb b h) ((hrest r hr).2 row rfl)
      · rintro ⟨⟨⟨hlt, hb⟩, hrest⟩, hrow, hp⟩
        refine ⟨hlt, hb, fun r hr => ⟨(hrest r hr).1, fun b h => ?_⟩, hp⟩
        exact (Option.mem_some_iff.mp h) ▸ hrow r hr

/-- The rows of a stretch, without the values. -/
theorem map_fst_entriesAt {a : Csc α} {start stop : Nat} (hr : stop ≤ a.rowIdx.size)
    (hv : stop ≤ a.vals.size) :
    (a.entriesAt start stop).map (·.1) = (a.rowIdx.extract start stop).toList := by
  rw [entriesAt, List.map_fst_zip]
  simp only [Array.length_toList, Array.size_extract]
  omega

theorem checkColumn_eq_ok {a : Csc α} (hf : a.Framed) {j : Nat} (hj : j < a.ncols) :
    (a.checkColumn j).run = some (.ok ()) ↔
      (∀ e ∈ a.col j, e.1 < a.nrows) ∧ (a.col j).Pairwise (·.1 < ·.1) := by
  have hs := hf.ptr_succ j hj
  have he : a.ptr (j + 1) ≤ a.rowIdx.size := hf.ptr_le hj
  have hrows : (a.col j).map (·.1) = (a.rowIdx.extract (a.ptr j) (a.ptr (j + 1))).toList :=
    map_fst_entriesAt he (hf.ptr_le' hj)
  rw [checkColumn, hf.start?_eq (Nat.le_of_lt hj), hf.stop?_eq hj]
  simp only [Checked.run_some_bind, Checked.run_guard_eq_ok]
  rw [Access.slice_of_le hs he, ← hrows, Checked.run_some_bind, Checked.run_except,
    Option.some.injEq, checkRows_eq_ok, List.pairwise_map, List.forall_mem_map]
  simp only [Option.not_mem_none, false_implies, implies_true, and_true]
  exact ⟨fun h => h.2, fun h => ⟨by rw [nnz]; omega, h⟩⟩

/-- A column whose pointers are out of order is refused before it is read. -/
theorem ptr_le_of_checkColumn {a : Csc α} {j : Nat} (hj : j + 1 < a.colPtr.size)
    (h : (a.checkColumn j).run = some (.ok ())) : a.ptr j ≤ a.ptr (j + 1) := by
  have hptr : ∀ i, i < a.colPtr.size → a.colPtr[i]? = some (a.ptr i) := by
    intro i hi
    simp [ptr, Array.getD, hi]
  rw [checkColumn, start?, stop?, hptr j (by omega), hptr (j + 1) hj] at h
  simp only [Checked.run_some_bind, Checked.run_guard_eq_ok] at h
  omega

/-- The check accepts exactly the arrays that describe a matrix. -/
theorem check_eq_ok {a : Csc α} : a.check.run = some (.ok ()) ↔ a.Valid := by
  have hptr : ∀ j, j < a.colPtr.size → a.colPtr[j]? = some (a.ptr j) := by
    intro j hj
    simp [ptr, Array.getD, hj]
  rw [check, Checked.run_guard_eq_ok]
  constructor
  · rintro ⟨hsize, h⟩
    rw [not_not] at hsize
    rw [start?, start?, hptr 0 (by omega), hptr a.ncols (by omega)] at h
    simp only [Checked.run_some_bind, Checked.run_guard_eq_ok, Checked.run_forM_eq_ok,
      List.mem_range, ne_eq, not_not] at h
    obtain ⟨hzero, hlast, hvals, hcols⟩ := h
    have hf : a.Framed :=
      ⟨hsize, hzero, fun j hj => ptr_le_of_checkColumn (by omega) (hcols j hj), hlast,
        hvals.symm⟩
    exact ⟨hf, fun j hj => ((checkColumn_eq_ok hf hj).mp (hcols j hj)).1,
      fun j hj => ((checkColumn_eq_ok hf hj).mp (hcols j hj)).2⟩
  · intro h
    have hf := h.toFramed
    refine ⟨not_not_intro h.size_colPtr, ?_⟩
    rw [hf.start?_eq (Nat.zero_le _), hf.start?_eq (Nat.le_refl _)]
    simp only [Checked.run_some_bind, Checked.run_guard_eq_ok, Checked.run_forM_eq_ok,
      List.mem_range, ne_eq, not_not]
    exact ⟨h.ptr_zero, h.ptr_last, h.size_vals.symm, fun j hj =>
      (checkColumn_eq_ok hf hj).mpr ⟨h.row_lt j hj, h.increasing j hj⟩⟩

/-- The last row of a column in order bounds them all. -/
theorem checkUpperColumn_eq_ok {a : Csc α} (h : a.Valid) {j : Nat} (hj : j < a.ncols) :
    (a.checkUpperColumn j).run = some (.ok ()) ↔ ∀ e ∈ a.col j, e.1 ≤ j := by
  have hinc := h.increasing j hj
  rw [checkUpperColumn, h.column?_eq hj, Checked.run_some_bind]
  rcases List.eq_nil_or_concat (a.col j) with hnil | ⟨es, e, hes⟩
  · simp [hnil]
  · rw [List.concat_eq_append] at hes
    rw [hes, List.getLast?_concat]
    rw [hes, List.pairwise_append] at hinc
    obtain ⟨-, -, hlast⟩ := hinc
    by_cases he : j < e.1
    · simp only [if_pos he, Checked.run_throw, Option.some.injEq, reduceCtorEq, false_iff]
      intro hall
      have := hall e (by simp)
      omega
    · simp only [if_neg he, Checked.run_pure, true_iff]
      intro e' he'
      rcases List.mem_append.mp he' with he' | he'
      · have := hlast e' he' e (by simp)
        omega
      · rw [List.mem_singleton] at he'
        subst he'
        omega

theorem checkUpper_eq_ok {a : Csc α} (h : a.Valid) :
    a.checkUpper.run = some (.ok ()) ↔ a.Upper := by
  rw [checkUpper, Checked.run_guard_eq_ok, Checked.run_forM_eq_ok, not_not]
  simp only [List.mem_range]
  constructor
  · rintro ⟨hsq, hcols⟩
    exact ⟨hsq, fun j hj => (checkUpperColumn_eq_ok h hj).mp (hcols j hj)⟩
  · rintro ⟨hsq, hrows⟩
    exact ⟨hsq, fun j hj => (checkUpperColumn_eq_ok h hj).mpr (hrows j hj)⟩

end Saddle.Csc
