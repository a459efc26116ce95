import Saddle.Proofs.Kkt.Bounds

/-!
# The positions on the diagonal

An update names entries of `P` by their positions and adds `sigma` to those that are on
the diagonal. The row of an entry is stored; its column has to be found among the ends of
the columns. These need not increase strictly. A column without entries ends where the
one before it does, in front of the others, between them or behind them, so that several
columns may have one end in common. The first that ends past a position owns it: those
with the same end that come later also start there.

Nothing says that the slots of a map are different, or that a position is listed once.
So of the listed positions with one slot the last decides what is in it, and as each
value is taken from `P`, a position that is listed again gets `sigma` once only.
-/

namespace Saddle

namespace Csc

variable {α : Type} {p : Csc α} {i j : Nat}

/-- Position `i` is among those of column `j`. -/
def Owns (p : Csc α) (j i : Nat) : Prop :=
  j < p.ncols ∧ ∃ start stop, p.start? j = some start ∧ p.stop? j = some stop ∧
    start ≤ i ∧ i < stop

/-- The row stored at position `i` has the number of the column. -/
def OnDiagonal (p : Csc α) (i : Nat) : Prop := ∃ j, p.Owns j i ∧ p.rowIdx[i]? = some j

/-- The value `x` is the one at position `i`, with `sigma` added on the diagonal only. -/
def Yields [Add α] (p : Csc α) (sigma : α) (i : Nat) (x : α) : Prop :=
  ∃ v, p.vals[i]? = some v ∧ (p.OnDiagonal i → x = v + sigma) ∧ (¬ p.OnDiagonal i → x = v)

theorem Framed.owns_iff (h : p.Framed) :
    p.Owns j i ↔ j < p.ncols ∧ p.ptr j ≤ i ∧ i < p.ptr (j + 1) := by
  constructor
  · intro ⟨hj, start, stop, hstart, hstop, hle, hlt⟩
    rw [h.start?_eq (Nat.le_of_lt hj), Option.some.injEq] at hstart
    rw [h.stop?_eq hj, Option.some.injEq] at hstop
    exact ⟨hj, hstart ▸ hle, hstop ▸ hlt⟩
  · intro ⟨hj, hle, hlt⟩
    exact ⟨hj, _, _, h.start?_eq (Nat.le_of_lt hj), h.stop?_eq hj, hle, hlt⟩

/-- Every position has one owner, and that is the column found for it. -/
theorem Framed.exists_owner (h : p.Framed) (hi : i < p.nnz) :
    ∃ j, p.columnOf i = some j ∧ p.Owns j i ∧ ∀ j', p.Owns j' i → j' = j := by
  obtain ⟨j, hj, hle, hlt⟩ := h.exists_column hi
  refine ⟨j, h.columnOf_eq hj hle hlt, h.owns_iff.mpr ⟨hj, hle, hlt⟩, ?_⟩
  intro j' howns
  obtain ⟨hj', hle', hlt'⟩ := h.owns_iff.mp howns
  exact h.column_unique hj' hj hle' hlt' hle hlt

/-- The test on the column found is a test for the diagonal. -/
theorem Framed.onDiagonal_iff (h : p.Framed) (hi : i < p.nnz) (hj : p.columnOf i = some j)
    {row : Nat} (hrow : p.rowIdx[i]? = some row) : p.OnDiagonal i ↔ row = j := by
  obtain ⟨k, hk, howns, hunique⟩ := h.exists_owner hi
  obtain rfl : k = j := Option.some.inj (hk.symm.trans hj)
  constructor
  · intro ⟨j', howns', hrow'⟩
    rw [hrow, Option.some.injEq] at hrow'
    exact hrow'.trans (hunique j' howns')
  · intro heq
    exact ⟨k, howns, heq ▸ hrow⟩

end Csc

namespace Kkt

open Csc

variable {α : Type} [Add α] {p matrix m : Csc α} {map : Array Nat} {sigma : α} {i q : Nat}

/-- The positions `done` have been written. -/
structure Updated (p : Csc α) (map : Array Nat) (sigma : α) (matrix : Csc α) (done : List Nat)
    (m : Csc α) : Prop where
  pattern : SamePattern m matrix
  /-- A slot has what the last position with that slot puts there. -/
  last : ∀ l i r, done = l ++ i :: r → ∀ q, map[i]? = some q →
    (∀ i' ∈ r, map[i']? ≠ some q) → ∃ x, p.Yields sigma i x ∧ m.vals[q]? = some x
  kept : ∀ q, (∀ i ∈ done, map[i]? ≠ some q) → m.vals[q]? = matrix.vals[q]?

theorem updated_start (p : Csc α) (map : Array Nat) (sigma : α) (matrix : Csc α) :
    Updated p map sigma matrix [] matrix where
  pattern := .refl matrix
  last l i r h := by simp at h
  kept q _ := rfl

/-- One position is written into its slot. -/
theorem writeP_yields (sigma : α) (h : p.Framed) (hi : i < p.nnz) (hq : map[i]? = some q)
    (hlt : q < m.vals.size) :
    ∃ x m', p.Yields sigma i x ∧ writeP p map sigma m i = some m' ∧ SamePattern m' m ∧
      m'.vals[q]? = some x ∧ ∀ q', q' ≠ q → m'.vals[q']? = m.vals[q']? := by
  obtain ⟨j, hj, -, -⟩ := h.exists_owner hi
  obtain ⟨row, hrow⟩ : ∃ row, p.rowIdx[i]? = some row := ⟨_, Array.getElem?_eq_getElem hi⟩
  obtain ⟨v, hv⟩ : ∃ v, p.vals[i]? = some v :=
    ⟨_, Array.getElem?_eq_getElem (h.size_vals.symm ▸ hi)⟩
  obtain ⟨x, hx⟩ : ∃ x, x = if row = j then v + sigma else v := ⟨_, rfl⟩
  have hset := setValue_of_lt hlt x
  refine ⟨x, _, ⟨v, hv, ?_, ?_⟩, ?_, samePattern_of_setValue hset, ?_, ?_⟩
  · intro hon
    rw [hx, if_pos ((h.onDiagonal_iff hi hj hrow).mp hon)]
  · intro hoff
    rw [hx, if_neg fun heq => hoff ((h.onDiagonal_iff hi hj hrow).mpr heq)]
  · rw [writeP, hj, entry?, hrow, hv, hq]
    simp only [Option.bind_eq_bind, Option.bind_some, Option.pure_def, ← hx, hset]
  · simp [hlt]
  · intro q' hne
    exact Array.getElem?_setIfInBounds_ne (Ne.symm hne)

theorem Updated.snoc {done : List Nat} (hm : Updated p map sigma matrix done m) (h : p.Framed)
    (hi : i < p.nnz) (hq : map[i]? = some q) (hlt : q < matrix.vals.size) :
    ∃ m', writeP p map sigma m i = some m' ∧ Updated p map sigma matrix (done ++ [i]) m' := by
  rw [← hm.pattern.size_vals] at hlt
  obtain ⟨x, m', hx, hrun, hpattern, hnew, hold⟩ := writeP_yields sigma h hi hq hlt
  refine ⟨m', hrun, hpattern.trans hm.pattern, ?_, ?_⟩
  · intro l i₁ r hsplit q₁ hq₁ hlater
    rcases List.eq_nil_or_concat r with rfl | ⟨r, i₂, rfl⟩
    · obtain ⟨-, rfl⟩ : done = l ∧ i = i₁ := by simpa using hsplit
      obtain rfl : q = q₁ := Option.some.inj (hq.symm.trans hq₁)
      exact ⟨x, hx, hnew⟩
    · obtain ⟨hdone, rfl⟩ : done = l ++ i₁ :: r ∧ i = i₂ := by
        rw [List.concat_eq_append, ← List.cons_append, ← List.append_assoc] at hsplit
        simpa using List.append_inj' hsplit rfl
      have hne : q₁ ≠ q := by
        intro heq
        exact hlater i (by simp) (heq ▸ hq)
      rw [hold q₁ hne]
      exact hm.last l i₁ r hdone q₁ hq₁ fun i' hi' => hlater i' (by simp [hi'])
  · intro q' hq'
    have hne : q' ≠ q := by
      intro heq
      exact hq' i (by simp) (heq ▸ hq)
    rw [hold q' hne]
    exact hm.kept q' fun i' hi' => hq' i' (by simp [hi'])

/-- In a matrix that passes the checks the column found for a position is the one that owns it,
and an update adds `sigma` to a listed position exactly if it is on the diagonal. -/
theorem columnOf_owns (hcheck : p.check.run = some (.ok ())) :
    (∀ i < p.nnz, ∃ j, p.columnOf i = some j ∧ p.Owns j i ∧ ∀ j', p.Owns j' i → j' = j) ∧
    ∀ (matrix : Csc α) (map : Array Nat) (sigma : α) (changed : Option (List Nat)),
      map.size = p.nnz → (∀ i ∈ changed.getD [], i < p.nnz) →
      (∀ i ∈ replaced changed p.nnz, ∀ q, map[i]? = some q → q < matrix.vals.size) →
      ∃ matrix', (updateP matrix p changed map sigma).run = some (.ok matrix') ∧
        Updated p map sigma matrix (replaced changed p.nnz) matrix' := by
  have hframed := (check_eq_ok.mp hcheck).toFramed
  refine ⟨fun i hi => hframed.exists_owner hi, ?_⟩
  intro matrix map sigma changed hsize hchanged hslots
  obtain ⟨matrix', hrun, h⟩ := foldlM_total (l := replaced changed p.nnz)
    (f := writeP p map sigma) (Updated p map sigma matrix) (updated_start p map sigma matrix) (by
      intro done i rest hsplit m hm
      have hmem : i ∈ replaced changed p.nnz := by rw [hsplit]; simp
      have hi := lt_of_mem_replaced hchanged hmem
      obtain ⟨q, hq⟩ : ∃ q, map[i]? = some q :=
        ⟨_, Array.getElem?_eq_getElem (hsize.symm ▸ hi)⟩
      exact hm.snoc hframed hi hq (hslots i hmem q hq))
  refine ⟨matrix', ?_, h⟩
  rw [updateP, checkUpdate_eq_ok.mpr ⟨hsize, hchanged⟩, Checked.run_ok_bind, writeAllP, hrun]
  rfl

/-- A matrix with columns that store nothing in front, in between and at the end. -/
def gapped : Csc Nat := ⟨6, 6, #[0, 0, 2, 2, 2, 4, 4], #[0, 1, 1, 4], #[10, 20, 30, 40]⟩

/-- Four values to be written over. -/
def fourSlots : Csc Nat := ⟨4, 1, #[0, 4], #[0, 1, 2, 3], #[0, 0, 0, 0]⟩

theorem columnOf_owns_gapped :
    gapped.check.run = some (.ok ()) ∧ gapped.columnOf 2 = some 4 ∧
      ∃ matrix, (updateP fourSlots gapped (some [3, 2, 3]) #[1, 0, 2, 3] 7).run =
          some (.ok matrix) ∧
        matrix.vals[3]? = some 47 ∧ matrix.vals[2]? = some 30 ∧ matrix.vals[0]? = some 0 := by
  have hcheck : gapped.check.run = some (.ok ()) := by decide
  obtain ⟨howner, hupdate⟩ := columnOf_owns hcheck
  have howns : gapped.Owns 4 2 := ⟨by decide, 2, 4, rfl, rfl, by decide, by decide⟩
  obtain ⟨j, hj, -, hunique⟩ := howner 2 (by decide)
  obtain rfl := hunique 4 howns
  obtain ⟨matrix, hrun, h⟩ := hupdate fourSlots #[1, 0, 2, 3] 7 (some [3, 2, 3]) rfl (by decide)
    (by decide)
  have hon : gapped.OnDiagonal 3 :=
    ⟨4, ⟨by decide, 2, 4, rfl, rfl, by decide, by decide⟩, rfl⟩
  have hoff : ¬ gapped.OnDiagonal 2 := by
    intro ⟨k, hk, hrow⟩
    obtain rfl := hunique k hk
    exact absurd hrow (by decide)
  refine ⟨hcheck, hj, matrix, hrun, ?_, ?_, h.kept 0 (by decide)⟩
  · obtain ⟨x, ⟨v, hv, hx, -⟩, hslot⟩ := h.last [3, 2] 3 [] rfl 3 rfl (by decide)
    obtain rfl : 40 = v := Option.some.inj hv
    rw [hslot, hx hon]
  · obtain ⟨x, ⟨v, hv, -, hx⟩, hslot⟩ := h.last [3] 2 [3] rfl 2 rfl (by decide)
    obtain rfl : 30 = v := Option.some.inj hv
    rw [hslot, hx hoff]

end Kkt

end Saddle
