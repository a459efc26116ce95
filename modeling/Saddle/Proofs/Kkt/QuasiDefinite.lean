import Mathlib.Algebra.Order.BigOperators.Ring.Finset
import Saddle.Proofs.Factor.QuasiDefinite
import Saddle.Proofs.Kkt.Dense

/-!
# The saddle point matrix is quasi-definite

Multiply the rows of the constraints with minus one. In the form of the matrix the
two blocks of `A` then cancel, and what is left is the form of the upper left block
and a sum of squares. Both are positive, so that the form is, for any order of the
rows.
-/

namespace Saddle.Kkt

open Cell Csc Factor Finset Matrix

variable {α : Type} [OrderedScalar α]

/-- The form of the matrix is positive. -/
def PositiveDefinite {n : Nat} (h : Matrix (Fin n) (Fin n) α) : Prop :=
  ∀ x : Fin n → α, x ≠ 0 → 0 < x ⬝ᵥ h *ᵥ x

section Form

variable {p a : Csc α} {sigma : α} {lower : PerConstraint α}

/-- The blocks of `A` cancel. -/
theorem form_saddle (p a : Csc α) (sigma : α) (lower : PerConstraint α)
    (x : Fin p.ncols ⊕ Fin a.nrows → α) :
    (x ∘ Sum.inl) ⬝ᵥ (saddle p a sigma lower *ᵥ x) ∘ Sum.inl -
        (x ∘ Sum.inr) ⬝ᵥ (saddle p a sigma lower *ᵥ x) ∘ Sum.inr =
      (x ∘ Sum.inl) ⬝ᵥ (p.toSymmetric p.ncols + sigma • 1) *ᵥ (x ∘ Sum.inl) +
        ∑ j : Fin a.nrows, lower.value j * (x (.inr j) * x (.inr j)) := by
  have hcancel : (x ∘ Sum.inl) ⬝ᵥ (a.toMatrix a.nrows p.ncols).transpose *ᵥ (x ∘ Sum.inr) =
      (x ∘ Sum.inr) ⬝ᵥ a.toMatrix a.nrows p.ncols *ᵥ (x ∘ Sum.inl) := by
    rw [dotProduct_mulVec, vecMul_transpose, dotProduct_comm]
  have hlower : (x ∘ Sum.inr) ⬝ᵥ
      (-Matrix.diagonal fun j : Fin a.nrows => lower.value j) *ᵥ (x ∘ Sum.inr) =
        -∑ j : Fin a.nrows, lower.value j * (x (.inr j) * x (.inr j)) := by
    rw [neg_mulVec, dotProduct_neg, dotProduct]
    congr 1
    refine sum_congr rfl fun j _ => ?_
    rw [mulVec_diagonal]
    simp only [Function.comp_apply]
    ring
  rw [saddle, fromBlocks_mulVec, Sum.elim_comp_inl, Sum.elim_comp_inr, dotProduct_add,
    dotProduct_add, hcancel, hlower]
  ring

theorem form_pos (hpd : PositiveDefinite (p.toSymmetric p.ncols + sigma • 1))
    (hlower : ∀ j < a.nrows, 0 < lower.value j) {x : Fin p.ncols ⊕ Fin a.nrows → α}
    (hx : x ≠ 0) :
    0 < (x ∘ Sum.inl) ⬝ᵥ (saddle p a sigma lower *ᵥ x) ∘ Sum.inl -
      (x ∘ Sum.inr) ⬝ᵥ (saddle p a sigma lower *ᵥ x) ∘ Sum.inr := by
  rw [form_saddle]
  have hsquares : ∀ j ∈ (univ : Finset (Fin a.nrows)),
      0 ≤ lower.value j * (x (.inr j) * x (.inr j)) := fun j _ =>
    mul_nonneg (hlower j j.isLt).le (mul_self_nonneg _)
  by_cases hleft : x ∘ Sum.inl = 0
  · -- Only the constraints are left.
    obtain ⟨j, hj⟩ : ∃ j, x (.inr j) ≠ 0 := by
      by_contra hall
      rw [not_exists] at hall
      refine hx (funext fun u => ?_)
      cases u with
      | inl i => exact congrFun hleft i
      | inr j => exact not_not.mp (hall j)
    rw [hleft, zero_dotProduct, zero_add]
    refine sum_pos' hsquares ⟨j, mem_univ j, ?_⟩
    exact mul_pos (hlower j j.isLt) (mul_self_pos.mpr hj)
  · exact add_pos_of_pos_of_nonneg (hpd _ hleft) (sum_nonneg hsquares)

end Form

section Reordered

variable {p a : Csc α} {sigma : α} {lower : PerConstraint α} {old new : Nat → Nat}
  {r : Elimination.Renumbering} {matrix : Csc α} {slots : Array Nat}

/-- In whatever order, the rows of variables are positive and those of constraints
negative. -/
theorem Assembled.quasiDefinite (h : Assembled p a sigma lower new matrix slots)
    (hb : Blocks p a lower) (hr : Elimination.Renumbers (p.ncols + a.nrows) r old new)
    (hpd : PositiveDefinite (p.toSymmetric p.ncols + sigma • 1))
    (hlower : ∀ j < a.nrows, 0 < lower.value j) :
    QuasiDefinite matrix fun k => decide (old k < p.ncols) := by
  rintro v ⟨k, hk, hvk⟩
  rw [h.ncols_eq] at hk ⊢
  obtain ⟨x, hx⟩ : ∃ x : Fin p.ncols ⊕ Fin a.nrows → α, x = fun u => v (new (rowNumber u)) :=
    ⟨_, rfl⟩
  have hne : x ≠ 0 := by
    intro hzero
    have hsquares : ∑ k ∈ range (p.ncols + a.nrows), v k * v k = 0 := by
      rw [sum_rowNumber hr]
      refine sum_eq_zero fun u _ => ?_
      rw [← congrFun hx u, hzero]
      exact mul_zero 0
    rw [sum_eq_zero_iff_of_nonneg fun k _ => mul_self_nonneg (v k)] at hsquares
    exact hvk (mul_self_eq_zero.mp (hsquares k (mem_range.mpr hk)))
  have hpos := form_pos hpd hlower hne
  rw [sum_rowNumber hr, Fintype.sum_sum_type]
  simp only [h.mulVec_eq hb hr]
  refine lt_of_lt_of_eq hpos ?_
  rw [sub_eq_add_neg, dotProduct, dotProduct, ← sum_neg_distrib, ← hx]
  congr 1
  · refine sum_congr rfl fun i _ => ?_
    have hsign : old (new (rowNumber (.inl i : Fin p.ncols ⊕ Fin a.nrows))) < p.ncols := by
      rw [hr.old_new _ (rowNumber_lt _)]
      exact i.isLt
    rw [signOf, if_pos (by simpa using hsign), one_mul, ← congrFun hx (.inl i)]
    rfl
  · refine sum_congr rfl fun j _ => ?_
    have hsign : ¬ old (new (rowNumber (.inr j : Fin p.ncols ⊕ Fin a.nrows))) < p.ncols := by
      rw [hr.old_new _ (rowNumber_lt _)]
      exact Nat.not_lt.mpr (Nat.le_add_right _ _)
    rw [signOf, if_neg (by simpa using hsign), ← congrFun hx (.inr j)]
    simp only [Function.comp_apply]
    ring

end Reordered

end Saddle.Kkt
