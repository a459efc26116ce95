import Saddle.Proofs.Bounds
import Saddle.Proofs.Sparse.Cells

/-!
# The checks read nothing they have not checked

The arrays of a matrix come as they are, and the checks are the first to read them.
So each check has to make the next one safe: the number of pointers has to be right
before the first and the last are compared, the ends of a column before its rows are
read, and the whole matrix before the last row of a column is asked for.

What passes is in canonical form. The columns lie one after the other over all entries,
and the rows of each of them increase, which leaves one way only to store the cells of a
matrix. It also makes the last row of a column the largest, so that the second check
sees an entry below the diagonal without a look at the others.
-/

namespace Saddle.Csc

variable {α : Type} {a : Csc α}

open Checked

theorem start?_of_lt {j : Nat} (hj : j < a.colPtr.size) : a.start? j = some (a.ptr j) := by
  simp [start?, ptr, Array.getD, hj]

theorem inBounds_checkColumn (hsize : a.colPtr.size = a.ncols + 1) {j : Nat} (hj : j < a.ncols) :
    (a.checkColumn j).InBounds fun _ => True := by
  have hstop : a.stop? j = some (a.ptr (j + 1)) := start?_of_lt (by omega)
  rw [checkColumn, start?_of_lt (by omega), hstop]
  refine inBounds_some_bind (inBounds_some_bind (inBounds_guard fun hend => ?_))
  rw [not_or, nnz] at hend
  rw [Access.slice_of_le (by omega) (by omega)]
  exact inBounds_some_bind (inBounds_except fun _ _ => trivial)

theorem inBounds_check (a : Csc α) : a.check.InBounds fun _ => a.Valid := by
  suffices h : a.check.InBounds fun _ => True from
    h.of_run fun _ hrun _ => check_eq_ok.mp hrun
  rw [check]
  refine inBounds_guard fun hsize => ?_
  rw [not_not] at hsize
  rw [start?_of_lt (by omega), start?_of_lt (by omega)]
  refine inBounds_some_bind (inBounds_guard fun _ => inBounds_some_bind ?_)
  refine inBounds_guard fun _ => inBounds_guard fun _ => inBounds_forM fun j hj => ?_
  exact inBounds_checkColumn hsize (List.mem_range.mp hj)

theorem inBounds_checkUpper (h : a.Valid) : a.checkUpper.InBounds fun _ => a.Upper := by
  suffices hall : a.checkUpper.InBounds fun _ => True from
    hall.of_run fun _ hrun _ => (checkUpper_eq_ok h).mp hrun
  rw [checkUpper]
  refine inBounds_guard fun _ => inBounds_forM fun j hj => ?_
  rw [checkUpperColumn, h.column?_eq (List.mem_range.mp hj)]
  refine inBounds_some_bind ?_
  cases (a.col j).getLast? with
  | none => exact inBounds_pure trivial
  | some e =>
      dsimp only
      split
      · exact inBounds_throw _
      · exact inBounds_pure trivial

/-! ## Canonical form -/

theorem ofArrays_eq_ok {nrows ncols : Nat} {colPtr rowIdx : Array Nat} {vals : Array α} :
    (ofArrays nrows ncols colPtr rowIdx vals).run = some (.ok a) ↔
      a = ⟨nrows, ncols, colPtr, rowIdx, vals⟩ ∧ a.Valid := by
  rw [ofArrays, run_bind_eq_ok]
  constructor
  · rintro ⟨⟨⟩, hcheck, h⟩
    obtain rfl := Except.ok.inj (Option.some.inj h)
    exact ⟨rfl, check_eq_ok.mp hcheck⟩
  · rintro ⟨rfl, h⟩
    exact ⟨(), check_eq_ok.mpr h, rfl⟩

/-- The arrays that are accepted are those in canonical form, and a matrix has one such form. For
the entries of a form that is accepted, being on or above the diagonal is decided by the last row
of each column. -/
theorem check_canonical (a : Csc α) :
    (∃ r, a.check.run = some r) ∧ (a.check.run = some (.ok ()) ↔ a.Valid) ∧
    (∀ b : Csc α, (ofArrays a.nrows a.ncols a.colPtr a.rowIdx a.vals).run = some (.ok b) ↔
      b = a ∧ a.Valid) ∧
    (a.check.run = some (.ok ()) →
      (∃ r, a.checkUpper.run = some r) ∧
      (a.checkUpper.run = some (.ok ()) ↔
        a.nrows = a.ncols ∧ ∀ c ∈ a.cellList, c.row ≤ c.column) ∧
      ∀ b : Csc α, b.check.run = some (.ok ()) → a.nrows = b.nrows → a.ncols = b.ncols →
        (∀ c, c ∈ a.cellList ↔ c ∈ b.cellList) → a = b) := by
  obtain ⟨r, hr, -⟩ := inBounds_check a
  refine ⟨⟨r, hr⟩, check_eq_ok, fun b => ?_, fun h => ?_⟩
  · rw [ofArrays_eq_ok]
    exact and_congr_right fun hb => hb ▸ Iff.rfl
  · have hvalid := check_eq_ok.mp h
    obtain ⟨r', hr', -⟩ := inBounds_checkUpper hvalid
    refine ⟨⟨r', hr'⟩, (checkUpper_eq_ok hvalid).trans upper_iff_cellList, fun b hb => ?_⟩
    exact hvalid.eq_of_mem_iff (check_eq_ok.mp hb)

/-- Cells of a matrix with an empty column in front and one in the middle. -/
def stairCells : List (Cell Nat) := [⟨1, 0, 6⟩, ⟨1, 1, 0⟩, ⟨3, 0, 7⟩, ⟨3, 2, 8⟩, ⟨3, 3, 9⟩]

/-- The matrix. -/
def stairs : Csc Nat := ⟨4, 4, #[0, 0, 2, 2, 5], #[0, 1, 0, 2, 3], #[6, 0, 7, 8, 9]⟩

/-- The same arrays, with a pointer past all entries. -/
def brokenStairs : Csc Nat := { stairs with colPtr := #[0, 7, 2, 2, 5] }

theorem check_canonical_stairs :
    stairs.check.run = some (.ok ()) ∧ stairs.checkUpper.run = some (.ok ()) ∧
      stairs = ofCells 4 4 stairCells ∧
      brokenStairs.check.run = some (.error (.pointer 0 0 7)) ∧ ¬ brokenStairs.Valid := by
  have hcells : stairs.cellList = stairCells := rfl
  have hcells' : (ofCells 4 4 stairCells).cellList = stairCells :=
    cellList_ofCells (by decide) (by decide)
  have hcheck : stairs.check.run = some (.ok ()) := by decide
  have hcheck' : (ofCells 4 4 stairCells).check.run = some (.ok ()) := by decide +kernel
  have hbroken : brokenStairs.check.run = some (.error (.pointer 0 0 7)) := by decide
  obtain ⟨-, -, -, haccepted⟩ := check_canonical stairs
  obtain ⟨-, hupper, hunique⟩ := haccepted hcheck
  refine ⟨hcheck, hupper.mpr ⟨rfl, by rw [hcells]; decide⟩, ?_, hbroken, fun hvalid => ?_⟩
  · exact hunique _ hcheck' rfl rfl fun c => by rw [hcells, hcells']
  · rw [← (check_canonical brokenStairs).2.1, hbroken] at hvalid
    cases hvalid

end Saddle.Csc
