import Saddle.Proofs.Factor.Inertia
import Saddle.Proofs.Kkt.QuasiDefinite

/-!
# The positive squares of the saddle point matrix

If the rows of the constraints are eliminated first, with the reciprocals of the lower
diagonal as weights, then what is left of the upper left block is `P + σI + Aᵀ W A`,
and the constraints have contributed a negative square each. In whatever order the
elimination goes, the number of positive pivots is therefore that of the positive
squares of this matrix, which is as large as the number of variables exactly if the
matrix is positive definite. The block `P + σI` by itself is not what is tested. Its
form is the other one where the constraints vanish, and smaller elsewhere.
-/

namespace Saddle.Kkt

open Csc Factor Finset Matrix

/-! ## Blocks -/

section Condensed

variable {α : Type} [FieldScalar α]

/-- What is left of the upper left block once the constraints have been eliminated. -/
def condensed (p a : Csc α) (sigma : α) (weights : PerConstraint α) :
    Matrix (Fin p.ncols) (Fin p.ncols) α :=
  p.toSymmetric p.ncols + sigma • 1 +
    (a.toMatrix a.nrows p.ncols)ᵀ * diagonal (fun j : Fin a.nrows => weights.value j) *
      a.toMatrix a.nrows p.ncols

variable {p a : Csc α} {sigma : α} {lower weights : PerConstraint α}

theorem isSymm_condensed (p a : Csc α) (sigma : α) (weights : PerConstraint α) :
    (condensed p a sigma weights).IsSymm := by
  have hp : (p.toSymmetric p.ncols).IsSymm := Matrix.ext fun i j => p.symmetricAt_comm j i
  rw [Matrix.IsSymm, condensed, transpose_add, transpose_add, transpose_smul, transpose_one,
    hp.eq, transpose_mul, transpose_mul, transpose_transpose, diagonal_transpose,
    Matrix.mul_assoc]

theorem form_condensed (p a : Csc α) (sigma : α) (weights : PerConstraint α)
    (x : Fin p.ncols → α) :
    x ⬝ᵥ condensed p a sigma weights *ᵥ x =
      x ⬝ᵥ (p.toSymmetric p.ncols + sigma • 1) *ᵥ x +
        ∑ j : Fin a.nrows, weights.value j * ((a.toMatrix a.nrows p.ncols *ᵥ x) j *
          (a.toMatrix a.nrows p.ncols *ᵥ x) j) := by
  rw [condensed, add_mulVec, dotProduct_add, ← mulVec_mulVec, ← mulVec_mulVec,
    dotProduct_mulVec x (a.toMatrix a.nrows p.ncols)ᵀ, vecMul_transpose]
  congr 1
  refine sum_congr rfl fun j _ => ?_
  rw [mulVec_diagonal]
  ring

/-- Completing the square takes the two blocks apart. -/
theorem diagonalizes_saddle {t : Matrix (Fin p.ncols) (Fin p.ncols) α} {e : Fin p.ncols → α}
    (ht : Diagonalizes (condensed p a sigma weights) t e)
    (hinv : ∀ j < a.nrows, lower.value j * weights.value j = 1) :
    ∃ t', Diagonalizes (saddle p a sigma lower) t'
      (Sum.elim e fun j : Fin a.nrows => -lower.value j) := by
  obtain ⟨m, hm⟩ : ∃ m, a.toMatrix a.nrows p.ncols = m := ⟨_, rfl⟩
  obtain ⟨w, hw⟩ : ∃ w, diagonal (fun j : Fin a.nrows => weights.value j) = w := ⟨_, rfl⟩
  obtain ⟨l, hl⟩ : ∃ l, diagonal (fun j : Fin a.nrows => lower.value j) = l := ⟨_, rfl⟩
  have hlw : l * w = 1 := by
    rw [← hl, ← hw, diagonal_mul_diagonal, ← diagonal_one]
    exact congrArg Matrix.diagonal (funext fun j : Fin a.nrows => hinv j j.isLt)
  have hwl : w * l = 1 := mul_eq_one_comm.mp hlw
  have hwt : wᵀ = w := by rw [← hw, diagonal_transpose]
  refine ⟨fromBlocks t 0 (w * m * t) 1, ?_, ?_⟩
  · rw [isUnit_iff_isUnit_det, det_fromBlocks_zero₁₂, det_one, mul_one, ← isUnit_iff_isUnit_det]
    exact ht.isUnit
  · have hform := ht.form_eq
    rw [condensed, hm, hw] at hform
    have hright : saddle p a sigma lower * fromBlocks t 0 (w * m * t) 1 =
        fromBlocks ((p.toSymmetric p.ncols + sigma • 1 + mᵀ * w * m) * t) mᵀ 0 (-l) := by
      rw [saddle, hm, hl, fromBlocks_multiply]
      congr 1
      · rw [Matrix.add_mul _ (mᵀ * w * m)]
        simp only [Matrix.mul_assoc]
      · rw [Matrix.mul_zero, zero_add, Matrix.mul_one]
      · rw [Matrix.neg_mul, ← Matrix.mul_assoc, ← Matrix.mul_assoc, hlw, Matrix.one_mul,
          add_neg_cancel]
      · rw [Matrix.mul_zero, zero_add, Matrix.mul_one]
    rw [Matrix.mul_assoc, hright, fromBlocks_transpose, fromBlocks_multiply, transpose_zero,
      transpose_one, ← Matrix.mul_assoc, hform, Matrix.mul_zero, Matrix.mul_zero, Matrix.zero_mul,
      Matrix.zero_mul, Matrix.one_mul, transpose_mul, transpose_mul, hwt, Matrix.mul_neg,
      Matrix.mul_assoc tᵀ, Matrix.mul_assoc mᵀ, hwl, Matrix.mul_one, add_neg_cancel, add_zero,
      add_zero, zero_add, ← hl, diagonal_neg, fromBlocks_diagonal]

end Condensed

section Ordered

variable {α : Type} [OrderedScalar α] {p a : Csc α} {sigma : α} {lower weights : PerConstraint α}

theorem positiveSquares_elim {n m : Nat} {e : Fin n → α} {d : Fin m → α} (hd : ∀ j, d j ≤ 0) :
    positiveSquares (Sum.elim e d) = positiveSquares e := by
  rw [positiveSquares, positiveSquares, card_filter, card_filter, Fintype.sum_sum_type]
  refine (congrArg _ ?_).trans (add_zero _)
  exact sum_eq_zero fun j _ => if_neg (not_lt.mpr (hd j))

/-! ## In any order -/

section Reordered

variable {r : Elimination.Renumbering} {old new : Nat → Nat} {matrix : Csc α} {slots : Array Nat}
  {s : Symbolic} {f : Factorization α}

theorem Assembled.exists_equiv (h : Assembled p a sigma lower new matrix slots)
    (hb : Blocks p a lower) (hr : Elimination.Renumbers (p.ncols + a.nrows) r old new) :
    ∃ σ : Fin p.ncols ⊕ Fin a.nrows ≃ Fin matrix.ncols,
      (matrix.toSymmetric matrix.ncols).submatrix σ σ = saddle p a sigma lower := by
  have hlt : ∀ u : Fin p.ncols ⊕ Fin a.nrows, new (rowNumber u) < matrix.ncols := fun u =>
    h.ncols_eq ▸ hr.new_lt _ (rowNumber_lt u)
  have hinj : Function.Injective fun u : Fin p.ncols ⊕ Fin a.nrows =>
      (⟨new (rowNumber u), hlt u⟩ : Fin matrix.ncols) := by
    intro u v huv
    refine rowNumber_injective ?_
    rw [← hr.old_new _ (rowNumber_lt u), Fin.mk.inj huv, hr.old_new _ (rowNumber_lt v)]
  have hcard : Fintype.card (Fin p.ncols ⊕ Fin a.nrows) = Fintype.card (Fin matrix.ncols) := by
    simp [h.ncols_eq]
  refine ⟨.ofBijective _ ((Fintype.bijective_iff_injective_and_card _).mpr ⟨hinj, hcard⟩), ?_⟩
  ext u v
  exact h.symmetricAt_eq hb (labels_of_renumbers hr) u v

/-- In any order, the positive pivots are as many as the positive squares of the condensed
matrix. -/
theorem Assembled.positive_eq (h : Assembled p a sigma lower new matrix slots)
    (hb : Blocks p a lower) (hr : Elimination.Renumbers (p.ncols + a.nrows) r old new)
    (hlower : ∀ j < a.nrows, 0 < lower.value j)
    (hinv : ∀ j < a.nrows, lower.value j * weights.value j = 1)
    (hvalid : matrix.Valid) (hupper : matrix.Upper) (hs : Analyzed matrix s)
    (hnone : (eliminate matrix s.parent).2 = none)
    (hf : Complete matrix s (eliminate matrix s.parent).1 f)
    {t : Matrix (Fin p.ncols) (Fin p.ncols) α} {e : Fin p.ncols → α}
    (ht : Diagonalizes (condensed p a sigma weights) t e) :
    f.positive = positiveSquares e := by
  obtain ⟨σ, hσ⟩ := h.exists_equiv hb hr
  obtain ⟨u, hu⟩ := hf.diagonalizes (reconstructs_eliminate hvalid hupper hs hnone).1
  have hu' := hu.submatrix σ
  rw [hσ] at hu'
  obtain ⟨t', ht'⟩ := diagonalizes_saddle ht hinv
  have hcount : positiveSquares (f.pivots matrix.ncols ∘ σ) =
      positiveSquares (f.pivots matrix.ncols) := by
    rw [positiveSquares, positiveSquares, card_filter, card_filter]
    exact Equiv.sum_comp σ fun k => if 0 < f.pivots matrix.ncols k then 1 else 0
  rw [hf.positive_eq hnone, ← hcount, hu'.positiveSquares_eq ht', positiveSquares_elim]
  exact fun j => neg_nonpos.mpr (hlower j j.isLt).le

end Reordered

/-! ## The two forms -/

/-- The condensed matrix is positive definite if `P + σI` is. -/
theorem positiveDefinite_condensed (hweights : ∀ j < a.nrows, 0 ≤ weights.value j)
    (hpd : PositiveDefinite (p.toSymmetric p.ncols + sigma • 1)) :
    PositiveDefinite (condensed p a sigma weights) := by
  intro x hx
  rw [form_condensed]
  refine add_pos_of_pos_of_nonneg (hpd x hx) (sum_nonneg fun j _ => ?_)
  exact mul_nonneg (hweights j j.isLt) (mul_self_nonneg _)

/-- And then `P + σI` is, on the vectors on which the constraints vanish. -/
theorem form_pos_of_condensed (hpd : PositiveDefinite (condensed p a sigma weights))
    {x : Fin p.ncols → α} (hx : x ≠ 0) (hax : a.toMatrix a.nrows p.ncols *ᵥ x = 0) :
    0 < x ⬝ᵥ (p.toSymmetric p.ncols + sigma • 1) *ᵥ x := by
  have hform := hpd x hx
  rw [form_condensed, hax] at hform
  simpa using hform

end Ordered

end Saddle.Kkt
