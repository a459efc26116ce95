import Mathlib.Algebra.BigOperators.Ring.Finset
import Mathlib.LinearAlgebra.Matrix.Block
import Mathlib.LinearAlgebra.Matrix.NonsingularInverse
import Saddle.Proofs.Factor.Reconstruct

/-!
# Pivots of quasi-definite matrices

Let every row have a sign, and let the quadratic form of the matrix be positive
once each row has been multiplied with its sign. Then elimination does not stop,
and every pivot has the sign of its row. No Schur complement is needed for this.
Before row `k` the leading rows and columns are `U D Uᵀ` with `U` unit lower
triangular, and row `k` extends that to itself, whatever its pivot is. So there is
a vector that ends at `k` and that `Uᵀ` takes to the unit vector of `k`. Its entry
at `k` is one, the matrix takes it to the pivot times that unit vector, as far as
row `k`, and the form of it is the sign of the row times the pivot.

The sign of a row does not depend on when the row is eliminated, which is why the
order does not matter.
-/

namespace Saddle.Factor

open Finset Csc

variable {α : Type} [OrderedScalar α]

/-- The sign of a row. -/
def signOf (positive : Nat → Bool) (i : Nat) : α := if positive i then 1 else -1

/-- The form of the matrix is positive once its rows are multiplied with their signs. -/
def QuasiDefinite (a : Csc α) (positive : Nat → Bool) : Prop :=
  ∀ v : Nat → α, (∃ k < a.ncols, v k ≠ 0) →
    0 < ∑ i ∈ range a.ncols, signOf positive i * v i *
      ∑ j ∈ range a.ncols, a.symmetricAt i j * v j

/-- The transpose of `I + L` takes some vector to the unit vector of row `k`. -/
theorem exists_transpose_solution {n k : Nat} {st : Stage α} (h : Lower n st.cols) (hk : k < n) :
    ∃ v : Nat → α, v k = 1 ∧ (∀ i, k < i → v i = 0) ∧
      ∀ l ≤ k, ∑ i ∈ range (k + 1), st.unit i l * v i = if l = k then 1 else 0 := by
  let m : Matrix (Fin (k + 1)) (Fin (k + 1)) α := .of fun i j => st.unit i j
  have hdet : IsUnit m.transpose.det := by
    rw [Matrix.det_transpose, det_unit h hk]
    exact isUnit_one
  let w := m.transpose⁻¹.mulVec (Pi.single (Fin.last k) 1)
  have hw : m.transpose.mulVec w = Pi.single (Fin.last k) 1 := by
    rw [Matrix.mulVec_mulVec, Matrix.mul_nonsing_inv _ hdet, Matrix.one_mulVec]
  let v : Nat → α := fun i => if h : i < k + 1 then w ⟨i, h⟩ else 0
  have hsum : ∀ l ≤ k, ∑ i ∈ range (k + 1), st.unit i l * v i = if l = k then 1 else 0 := by
    intro l hl
    have hl' := congrFun hw ⟨l, Nat.lt_succ_of_le hl⟩
    rw [Matrix.mulVec, dotProduct, Pi.single_apply] at hl'
    rw [Finset.sum_range]
    refine Eq.trans (sum_congr rfl fun i _ => ?_) (hl'.trans ?_)
    · rw [show v i = w i from dif_pos i.isLt]
      rfl
    · simp [Fin.ext_iff]
  refine ⟨v, ?_, fun i hi => dif_neg (by omega), hsum⟩
  have hlast := hsum k (Nat.le_refl k)
  have hzero : ∑ i ∈ range k, st.unit i k * v i = 0 := by
    refine sum_eq_zero fun i hi => ?_
    rw [unit_of_lt h hk (mem_range.mp hi), zero_mul]
  rw [sum_range_succ, hzero, unit_self, zero_add, one_mul, if_pos rfl] at hlast
  exact hlast

section Pivots

variable {a : Csc α} {s : Symbolic} {positive : Nat → Bool} {k : Nat} {st : Stage α}

/-- The form of a vector that ends at row `k` is taken over the leading rows. -/
theorem sum_form_of_ends {v : Nat → α} (hk : k < a.ncols) (hv : ∀ i, k < i → v i = 0) :
    ∑ i ∈ range a.ncols, signOf positive i * v i *
        ∑ j ∈ range a.ncols, a.symmetricAt i j * v j =
      ∑ i ∈ range (k + 1), signOf positive i * v i *
        ∑ j ∈ range (k + 1), a.symmetricAt i j * v j := by
  have hinner : ∀ i, ∑ j ∈ range a.ncols, a.symmetricAt i j * v j =
      ∑ j ∈ range (k + 1), a.symmetricAt i j * v j := by
    intro i
    refine (sum_subset (range_mono hk) fun j _ hj => ?_).symm
    rw [hv j (by simpa using hj), mul_zero]
  simp only [hinner]
  refine (sum_subset (range_mono hk) fun i _ hi => ?_).symm
  rw [hv i (by simpa using hi), mul_zero, zero_mul]

/-- The leading rows take the vector to the last pivot. -/
theorem Reconstructs.leading_mul (h : Reconstructs a (k + 1) st)
    (hcols : HasRows a.ncols (rowsBefore a s.parent (k + 1)) st.cols) (hk : k < a.ncols)
    {v : Nat → α}
    (hv : ∀ l ≤ k, ∑ i ∈ range (k + 1), st.unit i l * v i = if l = k then 1 else 0) {i : Nat}
    (hi : i < k + 1) :
    ∑ j ∈ range (k + 1), a.symmetricAt i j * v j = st.unit i k * st.d k := by
  have hterm : ∀ j ∈ range (k + 1), a.symmetricAt i j * v j =
      ∑ l ∈ range (k + 1), st.unit i l * st.d l * (st.unit j l * v j) := by
    intro j hj
    rw [h.sum_range (hcols.lower hk) hk hi (mem_range.mp hj), sum_mul]
    exact sum_congr rfl fun l _ => mul_assoc _ _ _
  rw [sum_congr rfl hterm, sum_comm]
  have hpull : ∀ l ∈ range (k + 1),
      ∑ j ∈ range (k + 1), st.unit i l * st.d l * (st.unit j l * v j) =
        if l = k then st.unit i l * st.d l else 0 := by
    intro l hl
    rw [← mul_sum, hv l (Nat.le_of_lt_succ (mem_range.mp hl))]
    split
    · rw [mul_one]
    · rw [mul_zero]
  rw [sum_congr rfl hpull, sum_ite_eq', if_pos (by simp)]

theorem QuasiDefinite.pivot_pos (hq : QuasiDefinite a positive)
    (h : Reconstructs a (k + 1) st)
    (hcols : HasRows a.ncols (rowsBefore a s.parent (k + 1)) st.cols) (hk : k < a.ncols) :
    0 < signOf positive k * st.d k := by
  obtain ⟨v, hvk, hends, hv⟩ := exists_transpose_solution (hcols.lower hk) hk
  have hform := hq v ⟨k, hk, by rw [hvk]; exact one_ne_zero⟩
  rw [sum_form_of_ends hk hends] at hform
  have hterm : ∀ i ∈ range (k + 1), signOf positive i * v i *
      ∑ j ∈ range (k + 1), a.symmetricAt i j * v j =
        if i = k then signOf positive k * st.d k else 0 := by
    intro i hi
    rw [h.leading_mul hcols hk hv (mem_range.mp hi)]
    split
    · next hik => rw [hik, hvk, unit_self, mul_one, one_mul]
    · next hik =>
        rw [unit_of_lt (hcols.lower hk) hk (by have := mem_range.mp hi; omega), zero_mul,
          mul_zero]
  rwa [sum_congr rfl hterm, sum_ite_eq', if_pos (by simp)] at hform

theorem isPositive_of_signOf {x : α} (h : 0 < (signOf positive k : α) * x) :
    x ≠ 0 ∧ Scalar.isPositive x = positive k := by
  have hne : x ≠ 0 := right_ne_zero_of_mul h.ne'
  refine ⟨hne, ?_⟩
  rw [signOf] at h
  cases hk : positive k with
  | true =>
      rw [hk, if_pos rfl, one_mul] at h
      exact isPositive_eq_true.mpr h
  | false =>
      rw [hk, if_neg (by simp), neg_one_mul, neg_pos] at h
      rw [← Bool.not_eq_true, isPositive_eq_true]
      exact h.not_gt

theorem addRow_of_pivot {st' : Stage α} {b : Bool} (hadd : st.addRow a s.parent k = (st', b))
    (h : 0 < (signOf positive k : α) * st'.d k) :
    b = true ∧ st'.positive = if positive k then st.positive + 1 else st.positive := by
  have hd : st'.d k = (st.solveRow a s.parent k).pivot := by
    have hd := Stage.addRow_d a s.parent k st
    rw [hadd] at hd
    rw [hd, Function.update_self]
  rw [hd] at h
  obtain ⟨hne, hpos⟩ := isPositive_of_signOf h
  rw [Stage.addRow, if_neg fun hz => hne (isZero_eq_true.mp hz), hpos, Prod.mk.injEq] at hadd
  obtain ⟨rfl, rfl⟩ := hadd
  exact ⟨rfl, rfl⟩

/-- The first `k` pivots have the signs of their rows, and have been counted. -/
structure Signed (positive : Nat → Bool) (k : Nat) (st : Stage α) : Prop where
  sign : ∀ j < k, 0 < signOf positive j * st.d j
  count : st.positive = (List.range k).countP positive

theorem Signed.addRow (h : Signed positive k st) {st' : Stage α}
    (hadd : st.addRow a s.parent k = (st', true))
    (hpivot : 0 < (signOf positive k : α) * st'.d k) : Signed positive (k + 1) st' := by
  obtain ⟨-, hcount⟩ := addRow_of_pivot hadd hpivot
  have hd := Stage.addRow_d a s.parent k st
  rw [hadd] at hd
  refine ⟨fun j hj => ?_, ?_⟩
  · rcases Nat.lt_or_eq_of_le (Nat.le_of_lt_succ hj) with hjk | rfl
    · rw [hd, Function.update_of_ne (Nat.ne_of_lt hjk)]
      exact h.sign j hjk
    · exact hpivot
  · rw [hcount, h.count, List.range_succ, List.countP_append, List.countP_singleton]
    cases positive k <;> rfl

theorem eliminate_of_quasiDefinite (hv : a.Valid) (hu : a.Upper) (ha : Analyzed a s)
    (hq : QuasiDefinite a positive) :
    (eliminate a s.parent).2 = none ∧ Signed positive a.ncols (eliminate a s.parent).1 := by
  have h := eliminate_total (a := a)
    (I := fun k st => Eliminated a s k st ∧ Signed positive k st)
    ⟨.start a s, fun j hj => absurd hj (Nat.not_lt_zero j), rfl⟩
    (by
      rintro k st hk ⟨h, hsign⟩
      have hcols' := hasRows_addRow hu ha hk h.rows
      have hrec' := h.reconstructs.addRow hv hu ha hk h.rows h.inverted
      have hpivot := hq.pivot_pos hrec' hcols' hk
      obtain ⟨hsome, -⟩ := addRow_of_pivot (Prod.mk.eta).symm hpivot
      exact ⟨hsome, h.addRow hv hu ha hk hsome, hsign.addRow (Prod.ext rfl hsome) hpivot⟩)
  exact ⟨h.1, h.2.2⟩

end Pivots

end Saddle.Factor
