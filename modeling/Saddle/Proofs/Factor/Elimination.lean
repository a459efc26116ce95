import Mathlib.Data.Nat.Count
import Saddle.Proofs.Factor.Gather

/-!
# Elimination without arrays

What an elimination computes depends on the matrix and its tree alone, and not on
what was in the arrays of the factor before. Here it is written down as a
function that has no arrays: columns of `L` are lists that grow at their ends,
vectors are functions, and nothing can fail. Statements about the numbers, exact
or not, are proved of this function. That the kernel computes it, and stays inside
its arrays on the way, is shown in `Saddle.Proofs.Factor.Kernel`.

The pattern is settled here already. After `k` rows, column `i` holds the rows
before `k` that the tree says it has. Inside row `k` the columns still to come are
ahead of the place where the values that are not zero end: a column that has been
used is cleared, and what it carries goes to its ancestors, which come later.
-/

namespace Saddle.Factor

variable {α : Type}

/-- The part of a factor that the rows so far make up. -/
structure Stage (α : Type) where
  /-- The entries of each column of `L`, in the order of their rows. -/
  cols : Nat → List (Nat × α)
  /-- The pivots. -/
  d : Nat → α
  /-- Their reciprocals. -/
  dInv : Nat → α
  /-- The number of positive pivots. -/
  positive : Nat

/-- A row that is being solved. -/
structure RowSolve (α : Type) where
  /-- The columns of `L`, the row itself included as far as it goes. -/
  cols : Nat → List (Nat × α)
  /-- What is left of the right-hand side. -/
  values : Nat → α
  /-- What is left of the diagonal entry. -/
  pivot : α

/-- The right-hand side after `y` times the entries `es` has been subtracted. -/
def carry [Sub α] [Mul α] (y : α) (es : List (Nat × α)) (values : Nat → α) : Nat → α :=
  es.foldl (fun values e => Function.update values e.1 (values e.1 - e.2 * y)) values

/-- The row before its first column is used. -/
def RowSolve.start [Zero α] (a : Csc α) (k : Nat) (cols : Nat → List (Nat × α)) : RowSolve α where
  cols := cols
  values i := if i = k then 0 else (lastOf (a.col k) i).getD 0
  pivot := (lastOf (a.col k) k).getD 0

variable [Scalar α]

/-- The row after column `j` has been used. -/
def RowSolve.use (dInv : Nat → α) (k : Nat) (r : RowSolve α) (j : Nat) : RowSolve α :=
  let y := r.values j
  let entry := y * dInv j
  { cols := Function.update r.cols j (r.cols j ++ [(k, entry)])
    values := Function.update (carry y (r.cols j) r.values) j 0
    pivot := r.pivot - y * entry }

theorem RowSolve.use_cols (dInv : Nat → α) (k : Nat) (r : RowSolve α) (j : Nat) :
    (r.use dInv k j).cols =
      Function.update r.cols j (r.cols j ++ [(k, r.values j * dInv j)]) := rfl

theorem RowSolve.use_values (dInv : Nat → α) (k : Nat) (r : RowSolve α) (j : Nat) :
    (r.use dInv k j).values =
      Function.update (carry (r.values j) (r.cols j) r.values) j 0 := rfl

theorem RowSolve.use_pivot (dInv : Nat → α) (k : Nat) (r : RowSolve α) (j : Nat) :
    (r.use dInv k j).pivot = r.pivot - r.values j * (r.values j * dInv j) := rfl

/-- Row `k` after all its columns. -/
def Stage.solveRow (a : Csc α) (parent : Array (Option Nat)) (k : Nat) (s : Stage α) :
    RowSolve α :=
  (columnsOf a parent k).foldl (RowSolve.use s.dInv k) (RowSolve.start a k s.cols)

/-- The factor with one row more, and whether its pivot can be divided by. -/
def Stage.addRow (a : Csc α) (parent : Array (Option Nat)) (k : Nat) (s : Stage α) :
    Stage α × Bool :=
  let r := s.solveRow a parent k
  if Scalar.isZero r.pivot then
    ({ s with cols := r.cols, d := Function.update s.d k r.pivot }, false)
  else
    ({ cols := r.cols
       d := Function.update s.d k r.pivot
       dInv := Function.update s.dInv k (1 / r.pivot)
       positive := if Scalar.isPositive r.pivot then s.positive + 1 else s.positive }, true)

/-- The factor after the given rows, or after the first that ends in a zero pivot. -/
def Stage.addRows (a : Csc α) (parent : Array (Option Nat)) :
    List Nat → Stage α → Stage α × Option Nat
  | [], s => (s, none)
  | k :: rest, s =>
      match s.addRow a parent k with
      | (s, true) => addRows a parent rest s
      | (s, false) => (s, some k)

/-- No rows yet. -/
def Stage.start : Stage α := ⟨fun _ => [], fun _ => 0, fun _ => 0, 0⟩

/-- The factor of `a`, and the column of the zero pivot at which it ended, if it did. -/
def eliminate (a : Csc α) (parent : Array (Option Nat)) : Stage α × Option Nat :=
  Stage.start.addRows a parent (List.range a.ncols)

/-! ## The pattern -/

/-- Column `i` of `L` has entries in the given rows. -/
def HasRows (n : Nat) (rows : Nat → List Nat) (cols : Nat → List (Nat × α)) : Prop :=
  ∀ i < n, (cols i).map (·.1) = rows i

omit [Scalar α] in
theorem HasRows.lt_of_mem {a : Csc α} {parent : Array (Option Nat)} {n k j : Nat}
    {cols : Nat → List (Nat × α)} (h : HasRows n (rowsBefore a parent k) cols) (hj : j < n)
    {e : Nat × α} (he : e ∈ cols j) : j < e.1 ∧ e.1 < k := by
  have hmem : e.1 ∈ rowsBefore a parent k j := by
    rw [← h j hj]
    exact List.mem_map_of_mem he
  obtain ⟨hlt, hrow⟩ := mem_rowsBefore.mp hmem
  exact ⟨hrow.lt, hlt⟩

/-- The columns of `L` lie below the diagonal and inside the matrix. -/
def Lower (n : Nat) (cols : Nat → List (Nat × α)) : Prop :=
  ∀ j < n, ∀ e ∈ cols j, j < e.1 ∧ e.1 < n

omit [Scalar α] in
theorem HasRows.lower {a : Csc α} {parent : Array (Option Nat)} {n k : Nat}
    {cols : Nat → List (Nat × α)} (h : HasRows n (rowsBefore a parent k) cols) (hk : k ≤ n) :
    Lower n cols := by
  intro j hj e he
  obtain ⟨hlt, hek⟩ := h.lt_of_mem hj he
  exact ⟨hlt, Nat.lt_of_lt_of_le hek hk⟩

theorem carry_of_notMem {y : α} {es : List (Nat × α)} {values : Nat → α} {i : Nat}
    (h : ∀ e ∈ es, e.1 ≠ i) : carry y es values i = values i := by
  induction es generalizing values with
  | nil => rfl
  | cons e es ih =>
      rw [List.forall_mem_cons] at h
      rw [carry, List.foldl_cons, ← carry, ih h.2, Function.update_of_ne (Ne.symm h.1)]

open Classical in
/-- The rows of column `i` of the factor inside row `k`, of which the columns
`rest` are still to be used. -/
noncomputable def rowsWithin (a : Csc α) (parent : Array (Option Nat)) (k : Nat)
    (rest : List Nat) (i : Nat) : List Nat :=
  rowsBefore a parent k i ++ if InRow a parent k i ∧ i ∉ rest then [k] else []

section Within

omit [Scalar α]

variable {a : Csc α} {parent : Array (Option Nat)} {k i j : Nat} {rest : List Nat}

theorem rowsWithin_nil (a : Csc α) (parent : Array (Option Nat)) (k i : Nat) :
    rowsWithin a parent k [] i = rowsBefore a parent (k + 1) i := by
  rw [rowsWithin, rowsBefore_succ]
  by_cases hi : InRow a parent k i <;> simp [hi]

theorem rowsWithin_of_pending (h : InRow a parent k i → i ∈ rest) :
    rowsWithin a parent k rest i = rowsBefore a parent k i := by
  rw [rowsWithin, if_neg fun hi => hi.2 (h hi.1), List.append_nil]

theorem rowsWithin_of_used (h : InRow a parent k i) (hi : i ∉ rest) :
    rowsWithin a parent k rest i = rowsBefore a parent k i ++ [k] := by
  rw [rowsWithin, if_pos ⟨h, hi⟩]

theorem rowsWithin_cons (h : i ≠ j) :
    rowsWithin a parent k (j :: rest) i = rowsWithin a parent k rest i := by
  rw [rowsWithin, rowsWithin]
  by_cases hi : InRow a parent k i <;> by_cases hr : i ∈ rest <;> simp [hi, hr, h]

end Within

/-- The columns `rest` of row `k` are still to be used. -/
structure Pending (a : Csc α) (parent : Array (Option Nat)) (k : Nat) (rest : List Nat)
    (r : RowSolve α) : Prop where
  ascending : Ascending parent k rest
  inRow : ∀ i ∈ rest, InRow a parent k i
  rows : HasRows a.ncols (rowsWithin a parent k rest) r.cols
  zero : ∀ i, i ∉ rest → r.values i = 0

namespace Pending

variable {a : Csc α} {s : Symbolic} {k j : Nat} {rest : List Nat} {r : RowSolve α}

theorem rows_first (h : Pending a s.parent k (j :: rest) r) (hk : k < a.ncols) :
    (r.cols j).map (·.1) = rowsBefore a s.parent k j := by
  have hj := (h.inRow j (by simp)).lt
  rw [h.rows j (by omega), rowsWithin_of_pending fun _ => List.mem_cons_self]

/-- What a column carries goes to columns that are still to be used. -/
theorem mem_rest_of_row (h : Pending a s.parent k (j :: rest) r) (ha : Analyzed a s)
    (hk : k < a.ncols) {e : Nat × α} (he : e ∈ r.cols j) : e.1 < k ∧ e.1 ∈ rest := by
  have hmem : e.1 ∈ rowsBefore a s.parent k j := by
    rw [← h.rows_first hk]
    exact List.mem_map_of_mem he
  obtain ⟨hlt, hrow⟩ := mem_rowsBefore.mp hmem
  have hrise : ∀ i p, Parent s.parent i p → i < p := fun i p hp => (ha.rising i p hp).1
  have habove := hrow.above hrise (ha.parent_le e.1 (by omega))
  refine ⟨hlt, (h.ascending.above_mem hrise habove hlt).resolve_left ?_⟩
  have := hrow.lt
  omega

theorem use (h : Pending a s.parent k (j :: rest) r) (ha : Analyzed a s) (hk : k < a.ncols)
    (dInv : Nat → α) : Pending a s.parent k rest (r.use dInv k j) where
  ascending := h.ascending.2
  inRow i hi := h.inRow i (List.mem_cons_of_mem _ hi)
  rows i hi := by
    rw [RowSolve.use_cols]
    by_cases hij : i = j
    · subst hij
      rw [Function.update_self, List.map_append, h.rows_first hk,
        rowsWithin_of_used (h.inRow i (by simp)) h.ascending.1.2.1]
      rfl
    · rw [Function.update_of_ne hij, h.rows i hi, rowsWithin_cons hij]
  zero i hi := by
    rw [RowSolve.use_values]
    by_cases hij : i = j
    · subst hij
      rw [Function.update_self]
    · rw [Function.update_of_ne hij, carry_of_notMem fun e he heq => ?_]
      · exact h.zero i (by simp [hij, hi])
      · exact hi (heq ▸ (h.mem_rest_of_row ha hk he).2)

end Pending

/-- The columns of row `k` are those that are gathered for it. -/
theorem columnsOf_spec {a : Csc α} (hu : a.Upper) {s : Symbolic} (ha : Analyzed a s) {k : Nat}
    (hk : k < a.ncols) :
    Ascending s.parent k (columnsOf a s.parent k) ∧
      ∀ i, i ∈ columnsOf a s.parent k ↔ InRow a s.parent k i := by
  have hrise : ∀ i p, Parent s.parent i p → i < p := fun i p hp => (ha.rising i p hp).1
  obtain ⟨r, -, hr⟩ :=
    gather_spec hu ha.size_parent hrise hk (clean_blank a.ncols : Clean _ (_ : Workspace α))
  rw [columnsOf, ← hr.columns_eq]
  exact ⟨hr.ascending, fun i => hr.mem_columns hrise⟩

theorem pending_start {a : Csc α} (hu : a.Upper) {s : Symbolic}
    (ha : Analyzed a s) {k : Nat} (hk : k < a.ncols) {cols : Nat → List (Nat × α)}
    (hcols : HasRows a.ncols (rowsBefore a s.parent k) cols) :
    Pending a s.parent k (columnsOf a s.parent k) (RowSolve.start a k cols) := by
  obtain ⟨hascending, hmem⟩ := columnsOf_spec hu ha hk
  refine ⟨hascending, fun i hi => (hmem i).mp hi, fun i hi => ?_, fun i hi => ?_⟩
  · rw [rowsWithin_of_pending (hmem i).mpr]
    exact hcols i hi
  · rw [RowSolve.start]
    by_cases hik : i = k
    · simp [hik]
    · -- A row of the column that is not the diagonal is among the columns.
      have hnone : lastOf (a.col k) i = none := by
        refine lastOf_eq_none fun e he heq => ?_
        have := hu.row_le k hk e he
        exact hi (heq ▸ (hmem e.1).mpr (InRow.of_entry he (by omega)))
      simp [hik, hnone]

theorem Pending.useAll {a : Csc α} {s : Symbolic} {k : Nat} (ha : Analyzed a s) (hk : k < a.ncols)
    (dInv : Nat → α) {rest : List Nat} {r : RowSolve α} (h : Pending a s.parent k rest r) :
    Pending a s.parent k [] (rest.foldl (RowSolve.use dInv k) r) := by
  induction rest generalizing r with
  | nil => exact h
  | cons j rest ih => exact ih (h.use ha hk dInv)

/-- Row `k` has been solved: it is in its columns, and nothing is left over. -/
theorem pending_solveRow {a : Csc α} (hu : a.Upper) {s : Symbolic}
    (ha : Analyzed a s) {k : Nat} (hk : k < a.ncols) {st : Stage α}
    (hcols : HasRows a.ncols (rowsBefore a s.parent k) st.cols) :
    Pending a s.parent k [] (st.solveRow a s.parent k) :=
  (pending_start hu ha hk hcols).useAll ha hk st.dInv

theorem hasRows_solveRow {a : Csc α} (hu : a.Upper) {s : Symbolic}
    (ha : Analyzed a s) {k : Nat} (hk : k < a.ncols) {st : Stage α}
    (hcols : HasRows a.ncols (rowsBefore a s.parent k) st.cols) :
    HasRows a.ncols (rowsBefore a s.parent (k + 1)) (st.solveRow a s.parent k).cols := by
  intro i hi
  rw [(pending_solveRow hu ha hk hcols).rows i hi, rowsWithin_nil]

theorem Stage.addRow_cols (a : Csc α) (parent : Array (Option Nat)) (k : Nat) (st : Stage α) :
    (st.addRow a parent k).1.cols = (st.solveRow a parent k).cols := by
  rw [Stage.addRow]
  split <;> rfl

theorem Stage.addRow_d (a : Csc α) (parent : Array (Option Nat)) (k : Nat) (st : Stage α) :
    (st.addRow a parent k).1.d = Function.update st.d k (st.solveRow a parent k).pivot := by
  rw [Stage.addRow]
  split <;> rfl

/-! ## Rules for a whole elimination -/

section Rules

variable {a : Csc α} {parent : Array (Option Nat)} {I : Nat → Stage α → Prop}

/-- An invariant of the rows that end well holds after all of them, or before the one at
which the elimination stops. -/
theorem eliminate_rule (h0 : I 0 Stage.start)
    (hstep : ∀ k st, k < a.ncols → I k st → (st.addRow a parent k).2 = true →
      I (k + 1) (st.addRow a parent k).1) :
    ((eliminate a parent).2 = none → I a.ncols (eliminate a parent).1) ∧
      ∀ k, (eliminate a parent).2 = some k →
        k < a.ncols ∧ ∃ st, I k st ∧ st.addRow a parent k = ((eliminate a parent).1, false) := by
  have walk : ∀ m k st, k + m = a.ncols → I k st →
      ((st.addRows a parent (List.range' k m)).2 = none →
        I a.ncols (st.addRows a parent (List.range' k m)).1) ∧
      ∀ j, (st.addRows a parent (List.range' k m)).2 = some j → j < a.ncols ∧ ∃ st', I j st' ∧
        st'.addRow a parent j = ((st.addRows a parent (List.range' k m)).1, false) := by
    intro m
    induction m with
    | zero =>
        intro k st hkm h
        obtain rfl : k = a.ncols := by omega
        exact ⟨fun _ => h, fun j hj => by cases hj⟩
    | succ m ih =>
        intro k st hkm h
        have hnext := hstep k st (by omega) h
        rw [List.range'_succ, Stage.addRows]
        cases hadd : st.addRow a parent k with
        | mk st₁ b =>
            rw [hadd] at hnext
            cases b with
            | true => exact ih (k + 1) st₁ (by omega) (hnext rfl)
            | false =>
                refine ⟨nofun, fun j hj => ?_⟩
                obtain rfl := Option.some.inj hj
                exact ⟨by omega, st, h, hadd⟩
  rw [eliminate, List.range_eq_range']
  exact walk a.ncols 0 Stage.start (Nat.zero_add _) h0

theorem eliminate_invariant (h0 : I 0 Stage.start)
    (hstep : ∀ k st, k < a.ncols → I k st → (st.addRow a parent k).2 = true →
      I (k + 1) (st.addRow a parent k).1)
    (hnone : (eliminate a parent).2 = none) : I a.ncols (eliminate a parent).1 :=
  (eliminate_rule h0 hstep).1 hnone

theorem eliminate_total (h0 : I 0 Stage.start)
    (hstep : ∀ k st, k < a.ncols → I k st →
      (st.addRow a parent k).2 = true ∧ I (k + 1) (st.addRow a parent k).1) :
    (eliminate a parent).2 = none ∧ I a.ncols (eliminate a parent).1 := by
  obtain ⟨hdone, hstopped⟩ := eliminate_rule h0 fun k st hk h _ => (hstep k st hk h).2
  cases hstop : (eliminate a parent).2 with
  | none => exact ⟨rfl, hdone hstop⟩
  | some k =>
      obtain ⟨hk, st, h, hadd⟩ := hstopped k hstop
      have hsome := (hstep k st hk h).1
      rw [hadd] at hsome
      cases hsome

end Rules

/-! ## The count of the pivots -/

section Count

variable {a : Csc α} {parent : Array (Option Nat)} {k : Nat} {st : Stage α}

theorem addRow_positive (hsome : (st.addRow a parent k).2 = true) :
    (st.addRow a parent k).1.positive =
      if Scalar.isPositive ((st.addRow a parent k).1.d k) then st.positive + 1
      else st.positive := by
  rw [Stage.addRow_d, Function.update_self]
  rw [Stage.addRow] at hsome ⊢
  by_cases hz : Scalar.isZero (st.solveRow a parent k).pivot = true
  · rw [if_pos hz] at hsome
    cases hsome
  · rw [if_neg hz]

theorem count_congr {p q : Nat → Bool} {n : Nat} (h : ∀ k < n, p k = q k) :
    Nat.count (fun k => p k) n = Nat.count (fun k => q k) n :=
  Nat.le_antisymm (Nat.count_mono_left fun k hk => by rw [h k hk]; exact id)
    (Nat.count_mono_left fun k hk => by rw [h k hk]; exact id)

/-- Each row that ends well counts its pivot if that is positive, and leaves the others. -/
theorem count_addRow (hcount : st.positive = Nat.count (fun j => Scalar.isPositive (st.d j)) k)
    (hsome : (st.addRow a parent k).2 = true) :
    (st.addRow a parent k).1.positive =
      Nat.count (fun j => Scalar.isPositive ((st.addRow a parent k).1.d j)) (k + 1) := by
  have hold : Nat.count (fun j => Scalar.isPositive ((st.addRow a parent k).1.d j)) k =
      Nat.count (fun j => Scalar.isPositive (st.d j)) k := count_congr fun j hj => by
    rw [Stage.addRow_d, Function.update_of_ne (Nat.ne_of_lt hj)]
  rw [addRow_positive hsome, Nat.count_succ, hold, ← hcount]
  split <;> rfl

theorem positive_eliminate (hnone : (eliminate a parent).2 = none) :
    (eliminate a parent).1.positive =
      Nat.count (fun j => Scalar.isPositive ((eliminate a parent).1.d j)) a.ncols :=
  eliminate_invariant
    (I := fun k st => st.positive = Nat.count (fun j => Scalar.isPositive (st.d j)) k) rfl
    (fun _ _ _ hcount hsome => count_addRow hcount hsome) hnone

end Count

end Saddle.Factor
