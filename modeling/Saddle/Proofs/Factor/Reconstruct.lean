import Mathlib.Algebra.BigOperators.Group.Finset.Basic
import Mathlib.Algebra.BigOperators.Fin
import Mathlib.LinearAlgebra.Matrix.Block
import Mathlib.Tactic.Ring
import Mathlib.Tactic.LinearCombination
import Saddle.Proofs.Exact
import Saddle.Proofs.Sparse.Dense
import Saddle.Proofs.Factor.Kernel

/-!
# What has been factored

In exact arithmetic the first `k` rows of `(I + L) D (I + L)ᵀ` are those of the
matrix once `k` rows have been eliminated, and stay so: a later row adds entries to
`L` in its own row only.

Inside row `k` the vector of the `y` taken so far is kept in mind beside the
values, which a used column clears. At every row above `k`, values and `y` together
are the right-hand side less what the columns used so far have carried there. That
a column is complete when it is used is not said, and need not be: what is carried
to a row goes to columns still to come, so that the equation at a used row is not
touched again, and at the end, when no values are left, it is the equation of the
triangular system.
-/

namespace Saddle.Factor

open Finset Csc

variable {α : Type} [FieldScalar α]

/-- The entry of `I + L` in row `i` and column `j`. -/
def Stage.unit (st : Stage α) (i j : Nat) : α :=
  if i = j then 1 else sumAt i (st.cols j)

/-- The first `k` rows and columns of the product are those of the matrix. -/
def Reconstructs (a : Csc α) (k : Nat) (st : Stage α) : Prop :=
  ∀ j < k, ∀ i ≤ j,
    sumAt i (a.col j) = ∑ l ∈ range (j + 1), st.unit i l * st.d l * st.unit j l

/-- The first `k` reciprocals are those of the pivots. -/
def Inverted (k : Nat) (st : Stage α) : Prop := ∀ j < k, st.d j * st.dInv j = 1

theorem carry_eq (y : α) (es : List (Nat × α)) (values : Nat → α) (i : Nat) :
    carry y es values i = values i - sumAt i es * y := by
  induction es generalizing values with
  | nil => simp [carry]
  | cons e es ih =>
      rw [carry, List.foldl_cons, ← carry, ih, sumAt_cons, Function.update_apply]
      by_cases he : i = e.1
      · rw [if_pos he, if_pos he.symm, he]
        ring
      · rw [if_neg he, if_neg (Ne.symm he), zero_add]

theorem sum_update {k j : Nat} (hj : j < k) (g : Nat → α → α) (y : Nat → α) (v : α) :
    ∑ l ∈ range k, g l (Function.update y j v l) =
      ∑ l ∈ range k, g l (y l) + (g j v - g j (y j)) := by
  have hmem : j ∈ range k := mem_range.mpr hj
  have hrest : ∑ l ∈ (range k).erase j, g l (Function.update y j v l) =
      ∑ l ∈ (range k).erase j, g l (y l) := by
    refine sum_congr rfl fun l hl => ?_
    rw [Function.update_of_ne (ne_of_mem_erase hl)]
  rw [← add_sum_erase _ _ hmem, ← add_sum_erase _ (fun l => g l (y l)) hmem, hrest,
    Function.update_self]
  ring

/-! ## Inside a row -/

/-- The columns of row `k` that are not in `rest` have been used, with the values `y`. -/
structure Solved (a : Csc α) (st : Stage α) (k : Nat) (rest : List Nat) (y : Nat → α)
    (r : RowSolve α) : Prop where
  pending : ∀ i ∈ rest, y i = 0
  values : ∀ i < k, r.values i + y i =
    sumAt i (a.col k) - ∑ l ∈ range k, sumAt i (st.cols l) * y l
  pivot : r.pivot = sumAt k (a.col k) - ∑ l ∈ range k, st.dInv l * (y l * y l)
  entry : ∀ i j, j < k → sumAt i (r.cols j) =
    if i = k then y j * st.dInv j else sumAt i (st.cols j)

theorem solved_start {a : Csc α} (hv : a.Valid) {s : Symbolic} {k : Nat} (hk : k < a.ncols)
    {st : Stage α} (hcols : HasRows a.ncols (rowsBefore a s.parent k) st.cols)
    (rest : List Nat) :
    Solved a st k rest (fun _ => 0) (RowSolve.start a k st.cols) where
  pending _ _ := rfl
  values i hi := by simp [RowSolve.start, Nat.ne_of_lt hi, hv.sumAt_col hk]
  pivot := by simp [RowSolve.start, hv.sumAt_col hk]
  entry i j hj := by
    rw [RowSolve.start]
    split
    · next hi =>
        rw [zero_mul, hi]
        exact sumAt_of_notMem fun e he => Nat.ne_of_lt (hcols.lt_of_mem (by omega) he).2
    · rfl

theorem Solved.use {a : Csc α} {s : Symbolic} (ha : Analyzed a s) {st : Stage α} {k j : Nat}
    (hk : k < a.ncols) {rest : List Nat} {y : Nat → α} {r : RowSolve α}
    (h : Solved a st k (j :: rest) y r) (hp : Pending a s.parent k (j :: rest) r) :
    Solved a st k rest (Function.update y j (r.values j)) (r.use st.dInv k j) := by
  have hj : j < k := (hp.inRow j (by simp)).lt
  have hy : y j = 0 := h.pending j (by simp)
  have hnot : j ∉ rest := hp.ascending.1.2.1
  have hself : sumAt j (r.cols j) = 0 := by
    refine sumAt_of_notMem fun e he heq => ?_
    exact hnot (heq ▸ (hp.mem_rest_of_row ha hk he).2)
  refine ⟨fun i hi => ?_, fun i hi => ?_, ?_, fun i l hl => ?_⟩
  · rw [Function.update_of_ne (fun hij : i = j => hnot (hij ▸ hi))]
    exact h.pending i (List.mem_cons_of_mem _ hi)
  · have hij := h.entry i j hj
    rw [if_neg (Nat.ne_of_lt hi)] at hij
    rw [sum_update hj (fun l x => sumAt i (st.cols l) * x), hy, mul_zero, sub_zero, ← hij,
      ← sub_sub, ← h.values i hi, RowSolve.use_values]
    by_cases hi' : i = j
    · rw [hi', Function.update_self, Function.update_self, hself, hy]
      ring
    · rw [Function.update_of_ne hi', Function.update_of_ne hi', carry_eq]
      ring
  · rw [sum_update hj (fun l x => st.dInv l * (x * x)), hy, RowSolve.use_pivot, h.pivot]
    ring
  · rw [RowSolve.use_cols]
    by_cases hlj : l = j
    · subst hlj
      rw [Function.update_self, Function.update_self, sumAt_append, h.entry i l hl, sumAt_cons,
        sumAt_nil, hy]
      by_cases hik : i = k
      · simp [hik]
      · simp [hik, Ne.symm hik]
    · rw [Function.update_of_ne hlj, Function.update_of_ne hlj]
      exact h.entry i l hl

theorem Solved.useAll {a : Csc α} {s : Symbolic} (ha : Analyzed a s) {st : Stage α} {k : Nat}
    (hk : k < a.ncols) {rest : List Nat} {y : Nat → α} {r : RowSolve α}
    (h : Solved a st k rest y r) (hp : Pending a s.parent k rest r) :
    ∃ y', Solved a st k [] y' (rest.foldl (RowSolve.use st.dInv k) r) := by
  induction rest generalizing y r with
  | nil => exact ⟨y, h⟩
  | cons j rest ih => exact ih (h.use ha hk hp) (hp.use ha hk st.dInv)

/-- Row `k` solves the triangular system whose right-hand side is column `k`. -/
theorem solved_solveRow {a : Csc α} (hv : a.Valid) (hu : a.Upper) {s : Symbolic}
    (ha : Analyzed a s) {k : Nat} (hk : k < a.ncols) {st : Stage α}
    (hcols : HasRows a.ncols (rowsBefore a s.parent k) st.cols) :
    ∃ y, Solved a st k [] y (st.solveRow a s.parent k) ∧
      ∀ i < k, sumAt i (a.col k) = y i + ∑ l ∈ range k, sumAt i (st.cols l) * y l := by
  obtain ⟨y, hy⟩ := (solved_start hv hk hcols _).useAll ha hk (pending_start hu ha hk hcols)
  refine ⟨y, hy, fun i hi => ?_⟩
  have hvalues := hy.values i hi
  rw [← Stage.solveRow, (pending_solveRow hu ha hk hcols).zero i (by simp), zero_add] at hvalues
  rw [hvalues]
  ring

/-! ## Row after row -/

section Rows

variable {a : Csc α} {s : Symbolic} {k n : Nat} {st : Stage α}

theorem unit_of_lt (h : Lower n st.cols) {i j : Nat} (hj : j < n) (hij : i < j) :
    st.unit i j = 0 := by
  rw [Stage.unit, if_neg (Nat.ne_of_lt hij)]
  exact sumAt_of_notMem fun e he => Nat.ne_of_gt (Nat.lt_trans hij (h j hj e he).1)

theorem sumAt_self (h : Lower n st.cols) {j : Nat} (hj : j < n) : sumAt j (st.cols j) = 0 :=
  sumAt_of_notMem fun e he => Nat.ne_of_gt (h j hj e he).1

theorem unit_self (st : Stage α) (i : Nat) : st.unit i i = 1 := if_pos rfl

/-- The first `k` rows and columns of `I + L` have determinant one. -/
theorem det_unit (h : Lower n st.cols) {k : Nat} (hk : k ≤ n) :
    (Matrix.of fun i j : Fin k => st.unit i j).det = 1 := by
  have hlower : (Matrix.of fun i j : Fin k => st.unit i j).BlockTriangular OrderDual.toDual := by
    intro i j hij
    exact unit_of_lt h (Nat.lt_of_lt_of_le j.isLt hk) hij
  rw [Matrix.det_of_isLowerTriangular _ hlower]
  exact prod_eq_one fun i _ => unit_self st i

/-- The product of row `i` of `I + L` with a vector, the diagonal apart. -/
theorem sum_unit_mul (h : Lower n st.cols) {i k : Nat} (hi : i < k) (hk : k ≤ n) (y : Nat → α) :
    ∑ l ∈ range k, st.unit i l * y l = y i + ∑ l ∈ range k, sumAt i (st.cols l) * y l := by
  have hself := sumAt_self h (Nat.lt_of_lt_of_le hi hk)
  have hterm : ∀ l ∈ range k,
      st.unit i l * y l = (if i = l then y l else 0) + sumAt i (st.cols l) * y l := by
    intro l _
    rw [Stage.unit]
    by_cases hil : i = l
    · subst hil
      rw [if_pos rfl, if_pos rfl, hself]
      ring
    · rw [if_neg hil, if_neg hil, zero_add]
  rw [sum_congr rfl hterm, sum_add_distrib, sum_ite_eq, if_pos (mem_range.mpr hi)]

theorem hasRows_addRow (hu : a.Upper) (ha : Analyzed a s) (hk : k < a.ncols)
    (hcols : HasRows a.ncols (rowsBefore a s.parent k) st.cols) :
    HasRows a.ncols (rowsBefore a s.parent (k + 1)) (st.addRow a s.parent k).1.cols := by
  rw [Stage.addRow_cols]
  exact hasRows_solveRow hu ha hk hcols

/-- One row more, whether or not its pivot can be divided by. -/
theorem Reconstructs.addRow (h : Reconstructs a k st) (hv : a.Valid) (hu : a.Upper)
    (ha : Analyzed a s) (hk : k < a.ncols)
    (hcols : HasRows a.ncols (rowsBefore a s.parent k) st.cols) (hinv : Inverted k st) :
    Reconstructs a (k + 1) (st.addRow a s.parent k).1 := by
  obtain ⟨y, hy, hsystem⟩ := solved_solveRow hv hu ha hk hcols
  have hcols' := hasRows_addRow hu ha hk hcols
  have hd := Stage.addRow_d a s.parent k st
  have hentry := fun i j hj => (congrArg (fun c => sumAt i (c j))
    (Stage.addRow_cols a s.parent k st)).trans (hy.entry i j hj)
  obtain ⟨st', hst'⟩ : ∃ st', (st.addRow a s.parent k).1 = st' := ⟨_, rfl⟩
  simp only [hst'] at hcols' hd hentry ⊢
  -- Rows before `k` are as they were, and row `k` has the `y` over the pivots.
  have hold : ∀ i < k, ∀ l < k, st'.unit i l = st.unit i l := by
    intro i hi l hl
    rw [Stage.unit, Stage.unit, hentry i l hl, if_neg (Nat.ne_of_lt hi)]
  have hpivot : ∀ l < k, st'.d l = st.d l := by
    intro l hl
    rw [hd, Function.update_of_ne (Nat.ne_of_lt hl)]
  have hrow : ∀ l < k, st.d l * st'.unit k l = y l := by
    intro l hl
    rw [Stage.unit, if_neg (Nat.ne_of_gt hl), hentry k l hl, if_pos rfl]
    linear_combination y l * hinv l hl
  intro j hj i hij
  rcases Nat.lt_or_eq_of_le (Nat.le_of_lt_succ hj) with hjk | rfl
  · rw [h j hjk i hij]
    refine sum_congr rfl fun l hl => ?_
    have hl' : l < k := Nat.lt_of_lt_of_le (mem_range.mp hl) hjk
    rw [hold i (Nat.lt_of_le_of_lt hij hjk) l hl', hold j hjk l hl', hpivot l hl']
  rw [sum_range_succ, unit_self]
  rcases Nat.lt_or_eq_of_le hij with hij | rfl
  · rw [unit_of_lt (hcols'.lower hk) hk hij, zero_mul, zero_mul, add_zero, hsystem i hij,
      ← sum_unit_mul (hcols.lower (Nat.le_of_lt hk)) hij (Nat.le_of_lt hk)]
    refine sum_congr rfl fun l hl => ?_
    have hl' := mem_range.mp hl
    rw [hold i hij l hl', hpivot l hl', mul_assoc, hrow l hl']
  · have hlast : st'.d i = sumAt i (a.col i) - ∑ l ∈ range i, st.dInv l * (y l * y l) := by
      rw [hd, Function.update_self, hy.pivot]
    have hterm : ∀ l ∈ range i, st'.unit i l * st'.d l * st'.unit i l =
        st.dInv l * (y l * y l) := by
      intro l hl
      have hl' := mem_range.mp hl
      rw [hpivot l hl', ← hrow l hl']
      linear_combination (st'.unit i l * st.d l * st'.unit i l) * (hinv l hl').symm
    rw [unit_self, sum_congr rfl hterm, hlast]
    ring

/-- A pivot that can be divided by has its reciprocal written down. -/
theorem Inverted.addRow (h : Inverted k st) (hsome : (st.addRow a s.parent k).2 = true) :
    Inverted (k + 1) (st.addRow a s.parent k).1 := by
  rw [Stage.addRow] at hsome ⊢
  by_cases hz : Scalar.isZero (st.solveRow a s.parent k).pivot = true
  · rw [if_pos hz] at hsome
    cases hsome
  · rw [if_neg hz]
    rw [isZero_eq_true] at hz
    intro j hj
    rcases Nat.lt_or_eq_of_le (Nat.le_of_lt_succ hj) with hjk | rfl
    · simp only
      rw [Function.update_of_ne (Nat.ne_of_lt hjk), Function.update_of_ne (Nat.ne_of_lt hjk)]
      exact h j hjk
    · simp only
      rw [Function.update_self, Function.update_self]
      exact mul_one_div_cancel hz

/-- The first `k` rows have been eliminated. -/
structure Eliminated (a : Csc α) (s : Symbolic) (k : Nat) (st : Stage α) : Prop where
  rows : HasRows a.ncols (rowsBefore a s.parent k) st.cols
  reconstructs : Reconstructs a k st
  inverted : Inverted k st

theorem Eliminated.start (a : Csc α) (s : Symbolic) : Eliminated a s 0 Stage.start where
  rows i hi := by simp [rowsBefore, Stage.start]
  reconstructs j hj := absurd hj (Nat.not_lt_zero j)
  inverted j hj := absurd hj (Nat.not_lt_zero j)

theorem Eliminated.addRow (h : Eliminated a s k st) (hv : a.Valid) (hu : a.Upper)
    (ha : Analyzed a s) (hk : k < a.ncols) (hsome : (st.addRow a s.parent k).2 = true) :
    Eliminated a s (k + 1) (st.addRow a s.parent k).1 where
  rows := hasRows_addRow hu ha hk h.rows
  reconstructs := h.reconstructs.addRow hv hu ha hk h.rows h.inverted
  inverted := h.inverted.addRow hsome

/-- Any two rows of the product, as far as they have been reconstructed. -/
theorem Reconstructs.sum_range (h : Reconstructs a k st) (hb : Lower n st.cols) (hk : k ≤ n)
    {i j : Nat} (hi : i < k) (hj : j < k) :
    a.symmetricAt i j = ∑ l ∈ range k, st.unit i l * st.d l * st.unit j l := by
  have hordered : ∀ i j, i ≤ j → j < k →
      sumAt i (a.col j) = ∑ l ∈ range k, st.unit i l * st.d l * st.unit j l := by
    intro i j hij hj
    rw [h j hj i hij]
    refine sum_subset (range_mono hj) fun l hl hl' => ?_
    rw [mem_range] at hl hl'
    rw [unit_of_lt hb (i := j) (by omega) (by omega), mul_zero]
  rcases Nat.le_total i j with hij | hij
  · rw [symmetricAt, min_eq_left hij, max_eq_right hij]
    exact hordered i j hij hj
  · rw [symmetricAt, min_eq_right hij, max_eq_left hij, hordered j i hij hi]
    exact sum_congr rfl fun l _ => by ring

end Rows

/-! ## The whole product -/

/-- The factor `I + L`. -/
def Factorization.unitLower (f : Factorization α) (n : Nat) : Matrix (Fin n) (Fin n) α :=
  1 + f.l.toMatrix n n

/-- The pivots. -/
def Factorization.pivots (f : Factorization α) (n : Nat) : Fin n → α := fun k => f.d.getD k 0

/-- The columns and the pivots that the arrays of the factor hold. -/
def Factorization.stage (f : Factorization α) : Stage α :=
  ⟨f.l.col, (f.d.getD · 0), (f.dInv.getD · 0), f.positive⟩

section Product

variable {f : Factorization α} {n : Nat}

theorem Factorization.unitLower_apply (h : Lower n f.l.col) (i j : Fin n) :
    f.unitLower n i j = f.stage.unit i j := by
  rw [Factorization.unitLower, Matrix.add_apply, Csc.toMatrix, Matrix.of_apply, Stage.unit,
    Matrix.one_apply]
  by_cases hij : i = j
  · subst hij
    rw [if_pos rfl, if_pos rfl, sumAt_of_notMem fun e he => Nat.ne_of_gt (h i i.isLt e he).1,
      add_zero]
  · rw [if_neg hij, if_neg (fun h => hij (Fin.ext h)), zero_add]
    rfl

theorem Factorization.product_apply (h : Lower n f.l.col) (i j : Fin n) :
    (f.unitLower n * Matrix.diagonal (f.pivots n) * (f.unitLower n).transpose) i j =
      ∑ l ∈ range n, f.stage.unit i l * f.stage.d l * f.stage.unit j l := by
  rw [Matrix.mul_apply, Finset.sum_range]
  refine sum_congr rfl fun l _ => ?_
  rw [Matrix.mul_diagonal, Matrix.transpose_apply, Factorization.unitLower_apply h,
    Factorization.unitLower_apply h]
  rfl

end Product

section Whole

variable {a : Csc α} {s : Symbolic} {st : Stage α} {f : Factorization α}

theorem reconstructs_eliminate (hv : a.Valid) (hu : a.Upper) (ha : Analyzed a s)
    (hnone : (eliminate a s.parent).2 = none) :
    Reconstructs a a.ncols (eliminate a s.parent).1 ∧
      Inverted a.ncols (eliminate a s.parent).1 := by
  have h := eliminate_invariant (I := Eliminated a s) (.start a s)
    (fun k st hk h hsome => h.addRow hv hu ha hk hsome) hnone
  exact ⟨h.reconstructs, h.inverted⟩

omit [FieldScalar α] in
theorem Complete.lower (h : Complete a s st f) : Lower a.ncols f.l.col := fun j hj e he =>
  h.rows.lower (Nat.le_refl _) j hj e (h.col_eq j hj ▸ he)

theorem Complete.stage_unit (h : Complete a s st f) (i : Nat) {l : Nat} (hl : l < a.ncols) :
    f.stage.unit i l = st.unit i l := by
  have hcol : f.stage.cols l = st.cols l := h.col_eq l hl
  rw [Stage.unit, Stage.unit, hcol]

theorem Complete.stage_d (h : Complete a s st f) {k : Nat} (hk : k < a.ncols) :
    f.stage.d k = st.d k := by
  change f.d.getD k 0 = st.d k
  rw [Array.getD_eq_getD_getElem?, h.d.get k hk]
  rfl

theorem Complete.stage_dInv (h : Complete a s st f) {k : Nat} (hk : k < a.ncols) :
    f.stage.dInv k = st.dInv k := by
  change f.dInv.getD k 0 = st.dInv k
  rw [Array.getD_eq_getD_getElem?, h.dInv.get k hk]
  rfl

theorem Complete.unitLower_apply (h : Complete a s st f) (i j : Fin a.ncols) :
    f.unitLower a.ncols i j = st.unit i j :=
  (Factorization.unitLower_apply h.lower i j).trans (h.stage_unit i j.isLt)

theorem Complete.pivots_apply (h : Complete a s st f) (k : Fin a.ncols) :
    f.pivots a.ncols k = st.d k :=
  h.stage_d k.isLt

/-- The product of what the arrays hold is the matrix. -/
theorem Complete.sum_range (h : Complete a s st f) (hrec : Reconstructs a a.ncols st) {i j : Nat}
    (hi : i < a.ncols) (hj : j < a.ncols) :
    ∑ l ∈ range a.ncols, f.stage.unit i l * f.stage.d l * f.stage.unit j l =
      a.symmetricAt i j := by
  rw [hrec.sum_range (h.rows.lower (Nat.le_refl _)) (Nat.le_refl _) hi hj]
  refine sum_congr rfl fun l hl => ?_
  have hl' := mem_range.mp hl
  rw [h.stage_unit i hl', h.stage_unit j hl', h.stage_d hl']

theorem Complete.product (h : Complete a s st f) (hrec : Reconstructs a a.ncols st) :
    f.unitLower a.ncols * Matrix.diagonal (f.pivots a.ncols) * (f.unitLower a.ncols).transpose =
      a.toSymmetric a.ncols := by
  ext i j
  rw [Factorization.product_apply h.lower]
  exact h.sum_range hrec i.isLt j.isLt

/-- A factor that is returned is one of the matrix: its product is the symmetric
matrix whose upper triangle is stored, and its reciprocals are those of its
pivots. -/
theorem product_eq_of_factor {f : Numeric α} (hcheck : a.check.run = some (.ok ()))
    (hs : (analyze a).run = some (.ok s)) (hf : (factor a s).run = some (.ok f)) :
    f.unitLower a.ncols * Matrix.diagonal (f.pivots a.ncols) * (f.unitLower a.ncols).transpose =
        a.toSymmetric a.ncols ∧
      f.d.size = a.ncols ∧ f.dInv.size = a.ncols ∧
      ∀ k < a.ncols, f.d.getD k 0 * f.dInv.getD k 0 = 1 := by
  have hv := check_eq_ok.mp hcheck
  have ha := analyzed_of_analyze hv.toFramed hs
  have hu := (upper_of_analyze hv.toFramed hs).1
  obtain ⟨hnone, -, hf⟩ := factor_eq_ok hv.toFramed.readable hu ha hf
  obtain ⟨hrec, hinv⟩ := reconstructs_eliminate hv hu ha hnone
  refine ⟨hf.product hrec, hf.d.size_eq, hf.dInv.size_eq, fun k hk => ?_⟩
  rw [Array.getD_eq_getD_getElem?, Array.getD_eq_getD_getElem?, hf.d.get k hk, hf.dInv.get k hk]
  exact hinv k hk

/-- A matrix that stores nothing in row 1 of its last column, where its factor has
an entry. -/
def filling : Csc ℚ := ⟨3, 3, #[0, 1, 3, 5], #[0, 0, 1, 0, 2], #[2, 1, -3, 4, 5]⟩

theorem product_eq_of_factor_filling :
    ∃ s f, filling.check.run = some (.ok ()) ∧ (analyze filling).run = some (.ok s) ∧
      (factor filling s).run = some (.ok f) ∧ f.l.vals = #[1 / 2, 2, 4 / 7] ∧
      f.unitLower 3 * Matrix.diagonal (f.pivots 3) * (f.unitLower 3).transpose =
        filling.toSymmetric 3 := by
  have hcheck : filling.check.run = some (.ok ()) := by decide
  have hs : (analyze filling).run =
      some (.ok ⟨3, #[some 1, some 2, none], #[2, 1, 0], 3⟩) := by decide
  have hf : (factor filling ⟨3, #[some 1, some 2, none], #[2, 1, 0], 3⟩).run =
      some (.ok {
        l := ⟨3, 3, #[0, 2, 3, 3], #[1, 2, 2], #[1 / 2, 2, 4 / 7]⟩
        d := #[2, -7 / 2, -13 / 7]
        dInv := #[1 / 2, -2 / 7, -7 / 13]
        positive := 1
        work :=
          ⟨#[false, false, false], #[1, 0, 0], #[0, 1, 0], #[2, 3, 3], #[0, 0, 0]⟩ }) := by
    decide +kernel
  exact ⟨_, _, hcheck, hs, hf, rfl, (product_eq_of_factor hcheck hs hf).1⟩

end Whole

end Saddle.Factor
