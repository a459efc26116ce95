import Saddle.Proofs.Sparse.Checks
import Saddle.Elimination.Pattern

/-!
# Patterns that can be followed

A pattern is less than a matrix: its rows need not be in order, and there may be more of
them than the pointers lead to. What the check grants is what a method has to rely on,
that each column can be read and names nodes only. The approximate method asks in
addition that the rows of a column increase, which a matrix that has been assembled
always grants.
-/

namespace Saddle.Elimination.Pattern

open Checked

/-- Where column `j` starts. -/
def ptr (p : Pattern) (j : Nat) : Nat := p.colPtr.getD j 0

/-- The rows of column `j`. -/
def rows (p : Pattern) (j : Nat) : List Nat := (p.rowIdx.extract (p.ptr j) (p.ptr (j + 1))).toList

/-- The pointers lead through rows that exist. -/
structure Valid (p : Pattern) : Prop where
  size_colPtr : p.colPtr.size = p.n + 1
  ptr_zero : p.ptr 0 = 0
  ptr_succ : ∀ j < p.n, p.ptr j ≤ p.ptr (j + 1)
  ptr_last : p.ptr p.n ≤ p.rowIdx.size
  row_lt : ∀ i ∈ (p.rowIdx.extract 0 (p.ptr p.n)).toList, i < p.n

/-- What a defect says is the case. -/
inductive HasDefect (p : Pattern) : Defect → Prop where
  | pointerCount (h : p.colPtr.size ≠ p.n + 1) :
      p.HasDefect (.pointerCount (p.n + 1) p.colPtr.size)
  | start (h : p.ptr 0 ≠ 0) : p.HasDefect .span
  | stop (h : p.rowIdx.size < p.ptr p.n) : p.HasDefect .span
  | decreasing {j : Nat} (hj : j < p.n) (h : p.ptr (j + 1) < p.ptr j) : p.HasDefect (.decreasing j)
  | outOfRange {k row : Nat} (hk : k < p.ptr p.n) (hrow : p.rowIdx[k]? = some row)
      (h : p.n ≤ row) : p.HasDefect (.outOfRange row p.n)

theorem mem_extract {xs : Array Nat} {start stop i : Nat} :
    i ∈ (xs.extract start stop).toList ↔ ∃ k, start ≤ k ∧ k < stop ∧ xs[k]? = some i := by
  rw [List.mem_iff_getElem?]
  simp only [Array.getElem?_toList, Array.getElem?_extract]
  constructor
  · rintro ⟨k, hk⟩
    split at hk
    · exact ⟨start + k, by omega, by omega, hk⟩
    · cases hk
  · rintro ⟨k, hstart, hstop, hget⟩
    obtain ⟨hlt, -⟩ := Array.getElem?_eq_some_iff.mp hget
    refine ⟨k - start, ?_⟩
    rw [if_pos (by omega), Nat.add_sub_cancel' hstart]
    exact hget

section Valid

variable {p : Pattern}

theorem start?_of_lt {j : Nat} (hj : j < p.colPtr.size) : p.start? j = some (p.ptr j) := by
  simp [start?, ptr, Array.getD, hj]

theorem checkColumn_run (hsize : p.colPtr.size = p.n + 1) {j : Nat} (hj : j < p.n) :
    (p.checkColumn j).run =
      if p.ptr (j + 1) < p.ptr j then some (.error (.invalidPattern (.decreasing j)))
      else some (.ok ()) := by
  rw [checkColumn, start?_of_lt (by omega), start?_of_lt (by omega)]
  simp only [run_some_bind]
  split <;> rfl

theorem check_eq_ok : p.check.run = some (.ok ()) ↔ p.Valid := by
  rw [check, run_guard_eq_ok, not_not]
  by_cases hsize : p.colPtr.size = p.n + 1
  · rw [and_iff_right hsize, start?_of_lt (by omega), start?_of_lt (by omega), run_some_bind,
      run_some_bind, run_guard_eq_ok, not_or, not_not, not_lt, run_bind_eq_ok]
    have hcolumns : ((List.range p.n).forM p.checkColumn).run = some (.ok ()) ↔
        ∀ j < p.n, p.ptr j ≤ p.ptr (j + 1) := by
      rw [run_forM_eq_ok]
      simp only [List.mem_range]
      refine forall₂_congr fun j hj => ?_
      rw [checkColumn_run hsize hj]
      split <;> simp <;> omega
    have hrows : (p.rowIdx.extract 0 (p.ptr p.n)).toList.find? (p.n ≤ ·) = none ↔
        ∀ i ∈ (p.rowIdx.extract 0 (p.ptr p.n)).toList, i < p.n := by
      simp only [List.find?_eq_none, decide_eq_true_eq, not_le]
    constructor
    · rintro ⟨⟨hzero, hlast⟩, ⟨⟩, hsucc, hrun⟩
      refine ⟨hsize, hzero, hcolumns.mp hsucc, hlast, hrows.mp ?_⟩
      rw [Access.slice_of_le (Nat.zero_le _) hlast, run_some_bind] at hrun
      split at hrun
      · cases hrun
      · assumption
    · intro h
      refine ⟨⟨h.ptr_zero, h.ptr_last⟩, (), hcolumns.mpr h.ptr_succ, ?_⟩
      rw [Access.slice_of_le (Nat.zero_le _) h.ptr_last, run_some_bind, hrows.mpr h.row_lt]
      rfl
  · exact iff_of_false (fun h => hsize h.1) fun h => hsize h.size_colPtr

/-- A pattern without a defect can be followed. -/
theorem valid_iff : p.Valid ↔ ∀ defect, ¬ p.HasDefect defect := by
  constructor
  · intro h defect hd
    cases hd with
    | pointerCount hne => exact hne h.size_colPtr
    | start hne => exact hne h.ptr_zero
    | stop hlt =>
        have := h.ptr_last
        omega
    | decreasing hj hlt =>
        have := h.ptr_succ _ hj
        omega
    | outOfRange hk hrow hle =>
        have := h.row_lt _ (mem_extract.mpr ⟨_, Nat.zero_le _, hk, hrow⟩)
        omega
  · intro h
    refine ⟨?_, ?_, fun j hj => ?_, ?_, fun i hi => ?_⟩
    · by_contra hne
      exact h _ (.pointerCount hne)
    · by_contra hne
      exact h _ (.start hne)
    · by_contra hlt
      exact h _ (.decreasing hj (Nat.lt_of_not_le hlt))
    · by_contra hlt
      exact h _ (.stop (Nat.lt_of_not_le hlt))
    · obtain ⟨k, -, hk, hrow⟩ := mem_extract.mp hi
      by_contra hle
      exact h _ (.outOfRange hk hrow (Nat.le_of_not_lt hle))

/-- The check reports a defect that the pattern has. -/
theorem hasDefect_of_check {e : Error} (h : p.check.run = some (.error e)) :
    ∃ defect, e = .invalidPattern defect ∧ p.HasDefect defect := by
  rw [check, run_guard] at h
  split at h
  · next hsize =>
      cases h
      exact ⟨_, rfl, .pointerCount hsize⟩
  · next hsize =>
      rw [not_not] at hsize
      rw [start?_of_lt (by omega), start?_of_lt (by omega), run_some_bind, run_some_bind,
        run_guard] at h
      split at h
      · next hspan =>
          cases h
          exact ⟨_, rfl, hspan.elim .start .stop⟩
      · next hspan =>
          rw [not_or, not_lt] at hspan
          rcases run_bind_eq_error.mp h with h | ⟨_, -, h⟩
          · obtain ⟨j, hj, hrun⟩ := exists_of_run_forM_eq_error h
            rw [List.mem_range] at hj
            rw [checkColumn_run hsize hj] at hrun
            split at hrun
            · next hlt =>
                cases hrun
                exact ⟨_, rfl, .decreasing hj hlt⟩
            · cases hrun
          · rw [Access.slice_of_le (Nat.zero_le _) hspan.2, run_some_bind] at h
            split at h
            · next row hfind =>
                cases h
                obtain ⟨k, -, hk, hrow⟩ := mem_extract.mp (List.mem_of_find?_eq_some hfind)
                exact ⟨_, rfl, .outOfRange hk hrow (by simpa using List.find?_some hfind)⟩
            · cases h

theorem inBounds_check (p : Pattern) : p.check.InBounds fun _ => p.Valid := by
  suffices h : p.check.InBounds fun _ => True from
    h.of_run fun _ hrun _ => check_eq_ok.mp hrun
  rw [check]
  refine inBounds_guard fun hsize => ?_
  rw [not_not] at hsize
  rw [start?_of_lt (by omega), start?_of_lt (by omega)]
  refine inBounds_some_bind (inBounds_some_bind (inBounds_guard fun hspan => ?_))
  rw [not_or, not_lt] at hspan
  have hcolumns : ((List.range p.n).forM p.checkColumn).InBounds fun _ => True := by
    refine inBounds_forM fun j hj => ?_
    rw [List.mem_range] at hj
    refine ⟨_, (checkColumn_run hsize hj).trans (apply_ite some _ _ _).symm, fun _ _ => trivial⟩
  refine hcolumns.bind fun _ _ => ?_
  rw [Access.slice_of_le (Nat.zero_le _) hspan.2]
  refine inBounds_some_bind ?_
  split
  · exact inBounds_throw _
  · exact inBounds_pure trivial

theorem Valid.ptr_mono (h : p.Valid) {i j : Nat} (hij : i ≤ j) (hj : j ≤ p.n) :
    p.ptr i ≤ p.ptr j := by
  induction j, hij using Nat.le_induction with
  | base => exact Nat.le_refl _
  | succ j _ ih => exact Nat.le_trans (ih (by omega)) (h.ptr_succ j (by omega))

theorem Valid.column?_eq (h : p.Valid) {j : Nat} (hj : j < p.n) :
    p.column? j = some (p.rows j) := by
  have hsize := h.size_colPtr
  have hlast := h.ptr_mono (show j + 1 ≤ p.n from hj) (Nat.le_refl _)
  rw [column?, start?_of_lt (by omega), start?_of_lt (by omega)]
  exact Access.slice_of_le (h.ptr_succ j hj) (hlast.trans h.ptr_last)

theorem Valid.rows_lt (h : p.Valid) {j : Nat} (hj : j < p.n) {i : Nat} (hi : i ∈ p.rows j) :
    i < p.n := by
  obtain ⟨k, hk, hkj, hget⟩ := mem_extract.mp hi
  have hlast := h.ptr_mono (show j + 1 ≤ p.n from hj) (Nat.le_refl _)
  exact h.row_lt i (mem_extract.mpr ⟨k, Nat.zero_le k, by omega, hget⟩)

theorem increasing_iff {rows : List Nat} : increasing rows = true ↔ rows.Pairwise (· < ·) := by
  induction rows with
  | nil => simp [increasing]
  | cons i rest ih =>
      cases rest with
      | nil => simp [increasing]
      | cons j rest =>
          rw [increasing, Bool.and_eq_true, ih, decide_eq_true_eq, List.pairwise_cons (a := i)]
          refine ⟨fun ⟨hij, hrest⟩ => ⟨fun k hk => ?_, hrest⟩,
            fun ⟨hi, hrest⟩ => ⟨hi j (by simp), hrest⟩⟩
          rcases List.mem_cons.mp hk with rfl | hk
          · exact hij
          · exact hij.trans ((List.pairwise_cons.mp hrest).1 k hk)

theorem Valid.checkSortedColumn_run (h : p.Valid) {j : Nat} (hj : j < p.n) :
    (p.checkSortedColumn j).run = if increasing (p.rows j) then some (.ok ())
      else some (.error (.invalidPattern (.unsorted j))) := by
  rw [checkSortedColumn, h.column?_eq hj, run_some_bind]
  cases increasing (p.rows j) <;> rfl

theorem Valid.checkSorted_eq_ok (h : p.Valid) :
    p.checkSorted.run = some (.ok ()) ↔ ∀ j < p.n, (p.rows j).Pairwise (· < ·) := by
  rw [checkSorted, run_forM_eq_ok]
  simp only [List.mem_range]
  refine forall₂_congr fun j hj => ?_
  rw [h.checkSortedColumn_run hj, ← increasing_iff]
  split <;> simp_all

end Valid

/-! ## The pattern of a matrix -/

section Matrix

variable {α : Type} {a : Csc α}

theorem valid_ofMatrix (h : a.Valid) (hsquare : a.nrows = a.ncols) : (ofMatrix a).Valid where
  size_colPtr := h.size_colPtr
  ptr_zero := h.ptr_zero
  ptr_succ := h.ptr_succ
  ptr_last := Nat.le_of_eq h.ptr_last
  row_lt i hi := by
    obtain ⟨k, -, hk, hget⟩ := mem_extract.mp hi
    obtain ⟨hlt, -⟩ := Array.getElem?_eq_some_iff.mp hget
    obtain ⟨j, hj, hjk, hkj⟩ := h.exists_column hlt
    have hmem : i ∈ (a.rowIdx.extract (a.ptr j) (a.ptr (j + 1))).toList :=
      mem_extract.mpr ⟨k, hjk, hkj, hget⟩
    rw [← Csc.map_fst_entriesAt (h.ptr_le hj) (h.ptr_le' hj), List.mem_map] at hmem
    obtain ⟨e, he, rfl⟩ := hmem
    exact (h.row_lt j hj e he).trans_eq hsquare

theorem checkSorted_ofMatrix (h : a.Valid) (hsquare : a.nrows = a.ncols) :
    (ofMatrix a).checkSorted.run = some (.ok ()) := by
  refine (valid_ofMatrix h hsquare).checkSorted_eq_ok.mpr fun j hj => ?_
  have hrows : (a.col j).map (·.1) = (a.rowIdx.extract (a.ptr j) (a.ptr (j + 1))).toList :=
    Csc.map_fst_entriesAt (h.ptr_le hj) (h.ptr_le' hj)
  show (a.rowIdx.extract (a.ptr j) (a.ptr (j + 1))).toList.Pairwise (· < ·)
  rw [← hrows, List.pairwise_map]
  exact h.increasing j hj

end Matrix

end Saddle.Elimination.Pattern
