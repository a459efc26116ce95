import Saddle.Proofs.Inertia
import Saddle.Proofs.Factor.Reconstruct

/-!
# What the pivots tell

The product that a factor has been computed for is a change of coordinates in which
the form of the matrix is a sum of squares, and the pivots are the weights of these.
So the number of positive pivots, which is counted as they are computed, is the number
of positive squares of the matrix. No pivot has to be looked at in the place where it
stands for this, and the matrix need not be definite, nor anything near it.
-/

namespace Saddle.Factor

open Finset Csc

/-- The pivots that were counted are the positive ones. -/
theorem Complete.positive_eq {α : Type} [OrderedScalar α] {a : Csc α} {s : Symbolic}
    {f : Factorization α} (h : Complete a s (eliminate a s.parent).1 f)
    (hnone : (eliminate a s.parent).2 = none) :
    f.positive = positiveSquares (f.pivots a.ncols) := by
  simp only [h.positive, positive_eliminate hnone, Nat.count_eq_card_filter_range, positiveSquares,
    isPositive_eq_true, card_filter, Finset.sum_range, h.pivots_apply]

/-! ## The change of coordinates -/

section Diagonalizes

variable {α : Type} [FieldScalar α] {a : Csc α} {s : Symbolic} {st : Stage α} {f : Factorization α}

theorem Complete.isUnit_unitLower (h : Complete a s st f) : IsUnit (f.unitLower a.ncols) := by
  have hunit : f.unitLower a.ncols = .of fun i j => st.unit i j :=
    Matrix.ext fun i j => h.unitLower_apply i j
  have hle := Nat.le_refl a.ncols
  rw [Matrix.isUnit_iff_isUnit_det, hunit, det_unit (h.rows.lower hle) hle]
  exact isUnit_one

theorem Complete.diagonalizes (h : Complete a s st f) (hrec : Reconstructs a a.ncols st) :
    ∃ t, Diagonalizes (a.toSymmetric a.ncols) t (f.pivots a.ncols) :=
  ⟨_, diagonalizes_of_product h.isUnit_unitLower (h.product hrec)⟩

end Diagonalizes

end Saddle.Factor
