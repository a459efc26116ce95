import Mathlib.LinearAlgebra.Matrix.ToLinearEquiv
import Mathlib.LinearAlgebra.QuadraticForm.Signature

/-!
# The number of positive squares

A symmetric matrix is diagonalized by a change of coordinates, and there are many of
them. By the law of inertia they agree in how many of the squares are positive, which
is thus a number of the matrix. It is as large as it can be exactly if the form of the
matrix is positive. Nothing of this is about a program, but the pivots of a
factorization are the squares of one such change of coordinates, and this is what
makes their signs worth counting.
-/

namespace Saddle

open Finset Matrix

variable {α : Type} [Field α] {ι κ : Type} [Fintype ι] [DecidableEq ι] [Fintype κ] [DecidableEq κ]

/-- In the coordinates given by the columns of `t` the form of `h` is a sum of squares, with the
weights `e`. -/
structure Diagonalizes (h t : Matrix ι ι α) (e : ι → α) : Prop where
  isUnit : IsUnit t
  form_eq : tᵀ * h * t = diagonal e

/-- How many of the weights are positive. -/
def positiveSquares [LT α] [DecidableLT α] (e : ι → α) : Nat := #{i | 0 < e i}

section Diagonalizes

variable {h t : Matrix ι ι α} {e : ι → α}

theorem Diagonalizes.form_mulVec (ht : Diagonalizes h t e) (y : ι → α) :
    (t *ᵥ y) ⬝ᵥ h *ᵥ (t *ᵥ y) = ∑ i, e i * (y i * y i) := by
  have hmove : (t *ᵥ y) ⬝ᵥ h *ᵥ (t *ᵥ y) = y ⬝ᵥ (tᵀ * h * t) *ᵥ y := by
    rw [← mulVec_mulVec, ← mulVec_mulVec, dotProduct_mulVec y, vecMul_transpose]
  rw [hmove, ht.form_eq, dotProduct]
  refine sum_congr rfl fun i _ => ?_
  rw [mulVec_diagonal]
  ring

theorem Diagonalizes.injective (ht : Diagonalizes h t e) : Function.Injective t.mulVec :=
  mulVec_injective_iff_isUnit.mpr ht.isUnit

theorem Diagonalizes.surjective (ht : Diagonalizes h t e) : Function.Surjective t.mulVec :=
  mulVec_surjective_iff_isUnit.mpr ht.isUnit

/-- A product of a triangular factor, a diagonal and the transposed factor is diagonalized by
what undoes the latter. -/
theorem diagonalizes_of_product {u : Matrix ι ι α} (hu : IsUnit u)
    (hprod : u * diagonal e * uᵀ = h) : Diagonalizes h uᵀ⁻¹ e where
  isUnit := isUnit_nonsing_inv_iff.mpr ((isUnit_transpose u).mpr hu)
  form_eq := by
    have hdet := (isUnit_iff_isUnit_det u).mp hu
    have hdet' : IsUnit uᵀ.det := by rwa [det_transpose]
    rw [transpose_nonsing_inv, transpose_transpose, ← hprod, Matrix.mul_assoc, Matrix.mul_assoc,
      mul_nonsing_inv _ hdet', Matrix.mul_one, ← Matrix.mul_assoc, nonsing_inv_mul _ hdet,
      Matrix.one_mul]

theorem Diagonalizes.submatrix (ht : Diagonalizes h t e) (σ : κ ≃ ι) :
    Diagonalizes (h.submatrix σ σ) (t.submatrix σ σ) (e ∘ σ) where
  isUnit := by
    rw [isUnit_iff_isUnit_det, det_submatrix_equiv_self, ← isUnit_iff_isUnit_det]
    exact ht.isUnit
  form_eq := by
    rw [transpose_submatrix, submatrix_mul_equiv, submatrix_mul_equiv, ht.form_eq,
      submatrix_diagonal_equiv]

end Diagonalizes

section Ordered

variable [LinearOrder α] [IsStrictOrderedRing α] {h t t' : Matrix ι ι α} {e e' : ι → α}

theorem Diagonalizes.positiveSquares_eq_sigPos (ht : Diagonalizes h t e) :
    positiveSquares e = sigPos h.toQuadraticForm' := by
  have hequiv : (QuadraticMap.weightedSumSquares α e).Equivalent h.toQuadraticForm' := by
    refine ⟨⟨t.toLinearEquiv' ht.isUnit.invertible, fun y => ?_⟩⟩
    change toLinearMap₂' α h (t *ᵥ y) (t *ᵥ y) = _
    rw [toLinearMap₂'_apply', ht.form_mulVec, QuadraticMap.weightedSumSquares_apply]
    rfl
  rw [QuadraticForm.sigPos_of_equiv_weightedSumSquares hequiv.symm, positiveSquares,
    Set.ncard_eq_toFinset_card']
  congr 1
  ext i
  simp

/-- The law of inertia. -/
theorem Diagonalizes.positiveSquares_eq (ht : Diagonalizes h t e) (ht' : Diagonalizes h t' e') :
    positiveSquares e = positiveSquares e' := by
  rw [ht.positiveSquares_eq_sigPos, ht'.positiveSquares_eq_sigPos]

/-- All squares are positive exactly if the form is. -/
theorem Diagonalizes.form_pos_iff (ht : Diagonalizes h t e) :
    (∀ x : ι → α, x ≠ 0 → 0 < x ⬝ᵥ h *ᵥ x) ↔ positiveSquares e = Fintype.card ι := by
  have hall : positiveSquares e = Fintype.card ι ↔ ∀ i, 0 < e i := by
    rw [positiveSquares, card_eq_iff_eq_univ, filter_eq_self]
    simp only [mem_univ, forall_const]
  rw [hall]
  constructor
  · intro hpos i
    have hne : t *ᵥ Pi.single i 1 ≠ 0 := fun hzero => by
      have := ht.injective (hzero.trans (mulVec_zero t).symm)
      exact one_ne_zero (Pi.single_eq_zero_iff.mp this)
    have hform := hpos _ hne
    rw [ht.form_mulVec, Fintype.sum_eq_single i fun j hj => by simp [Pi.single_eq_of_ne hj]]
      at hform
    simpa using hform
  · intro hpos x hx
    obtain ⟨y, rfl⟩ := ht.surjective x
    have hy : ∃ i, y i ≠ 0 := by
      by_contra hzero
      rw [not_exists] at hzero
      refine hx ?_
      rw [funext fun i => not_not.mp (hzero i)]
      exact mulVec_zero t
    obtain ⟨i, hi⟩ := hy
    rw [ht.form_mulVec]
    exact sum_pos' (fun j _ => mul_nonneg (hpos j).le (mul_self_nonneg _))
      ⟨i, mem_univ i, mul_pos (hpos i) (mul_self_pos.mpr hi)⟩

/-- Every symmetric matrix is diagonalized. -/
theorem exists_diagonalizes {n : Nat} {h : Matrix (Fin n) (Fin n) α} (hsymm : h.IsSymm) :
    ∃ t e, Diagonalizes h t e := by
  have : Invertible (2 : α) := invertibleOfNonzero two_ne_zero
  have hform : (toLinearMap₂' α h : LinearMap.BilinForm α (Fin n → α)).IsSymm := by
    refine ⟨fun x y => ?_⟩
    rw [toLinearMap₂'_apply', toLinearMap₂'_apply', dotProduct_mulVec, ← mulVec_transpose,
      hsymm.eq, dotProduct_comm]
    rfl
  obtain ⟨b, hb⟩ := LinearMap.BilinForm.exists_orthogonal_basis hform
  obtain ⟨c, hc⟩ : ∃ c : Module.Basis (Fin n) α (Fin n → α),
      ∀ i j, i ≠ j → c i ⬝ᵥ h *ᵥ c j = 0 := by
    refine ⟨b.reindex (finCongr (Module.finrank_fin_fun α)), fun i j hij => ?_⟩
    rw [← toLinearMap₂'_apply', Module.Basis.reindex_apply, Module.Basis.reindex_apply]
    exact hb fun heq => hij ((finCongr _).symm.injective heq)
  obtain ⟨t, hunit, hcolumn⟩ : ∃ t : Matrix (Fin n) (Fin n) α, IsUnit t ∧ ∀ i, tᵀ i = c i := by
    have := (Pi.basisFun α (Fin n)).invertibleToMatrix c
    exact ⟨(Pi.basisFun α (Fin n)).toMatrix c, isUnit_of_invertible _, fun i => rfl⟩
  refine ⟨t, fun i => (tᵀ * h * t) i i, hunit, ?_⟩
  ext i j
  by_cases hij : i = j
  · rw [hij, diagonal_apply_eq]
  · rw [diagonal_apply_ne _ hij, mul_mul_apply, hcolumn, hcolumn]
    exact hc i j hij

end Ordered

end Saddle
