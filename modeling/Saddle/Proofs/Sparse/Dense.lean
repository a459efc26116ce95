import Mathlib.Algebra.BigOperators.Group.List.Basic
import Mathlib.Data.Matrix.Mul
import Saddle.Proofs.Sparse.Columns

/-!
# The matrix that is stored

The entry in row `i` of a column is the sum of what the column stores for that
row, which is zero if it stores nothing. No order of the rows is needed for
this, so that it can be said of a factor under construction; where the rows
increase, the sum is the stored value itself.

A symmetric matrix stores its upper triangle, and the entry at a place below the
diagonal is read from the other side.
-/

namespace Saddle.Csc

variable {α : Type}

/-- What the entries have in row `i`. -/
def sumAt [Zero α] [Add α] (i : Nat) (es : List (Nat × α)) : α :=
  ((es.filter (·.1 = i)).map (·.2)).sum

/-- The stored matrix. -/
def toMatrix [Zero α] [Add α] (a : Csc α) (m n : Nat) : Matrix (Fin m) (Fin n) α :=
  .of fun i j => sumAt i (a.col j)

/-- The entry in row `i` and column `j` of the symmetric matrix of which the upper
triangle is stored. -/
def symmetricAt [Zero α] [Add α] (a : Csc α) (i j : Nat) : α :=
  sumAt (min i j) (a.col (max i j))

/-- The symmetric matrix of which the upper triangle is stored. -/
def toSymmetric [Zero α] [Add α] (a : Csc α) (n : Nat) : Matrix (Fin n) (Fin n) α :=
  .of fun i j => a.symmetricAt i j

theorem symmetricAt_comm [Zero α] [Add α] (a : Csc α) (i j : Nat) :
    a.symmetricAt i j = a.symmetricAt j i := by
  rw [symmetricAt, symmetricAt, min_comm, max_comm]

variable [AddCommMonoid α] {i : Nat} {es : List (Nat × α)} {e : Nat × α}

@[simp] theorem sumAt_nil (i : Nat) : sumAt i ([] : List (Nat × α)) = 0 := rfl

theorem sumAt_cons (i : Nat) (e : Nat × α) (es : List (Nat × α)) :
    sumAt i (e :: es) = (if e.1 = i then e.2 else 0) + sumAt i es := by
  by_cases h : e.1 = i <;> simp [sumAt, h]

theorem sumAt_append (i : Nat) (es fs : List (Nat × α)) :
    sumAt i (es ++ fs) = sumAt i es + sumAt i fs := by
  rw [sumAt, List.filter_append, List.map_append, List.sum_append]
  rfl

theorem sumAt_of_notMem (h : ∀ e ∈ es, e.1 ≠ i) : sumAt i es = 0 := by
  have hnil : es.filter (·.1 = i) = [] := by
    rw [List.filter_eq_nil_iff]
    intro e he
    simpa using h e he
  rw [sumAt, hnil]
  rfl

/-- A row that is stored once is the last of its number. -/
theorem sumAt_eq_lastOf (h : es.Pairwise (·.1 ≠ ·.1)) : sumAt i es = (lastOf es i).getD 0 := by
  induction es using List.reverseRecOn with
  | nil => rfl
  | append_singleton es e ih =>
      rw [List.pairwise_append] at h
      rw [sumAt_append, lastOf_snoc, sumAt_cons, sumAt_nil, add_zero]
      by_cases he : i = e.1
      · have hold : sumAt i es = 0 :=
          sumAt_of_notMem fun e' he' => he ▸ h.2.2 e' he' e (List.mem_singleton_self e)
        rw [if_pos he, if_pos he.symm, hold, zero_add]
        rfl
      · rw [if_neg he, if_neg (Ne.symm he), add_zero, ih h.1]

/-- Where rows are left out, what they had is zero, and the others have what they had. -/
theorem sumAt_filter (p : Nat → Prop) [DecidablePred p] (i : Nat) (es : List (Nat × α)) :
    sumAt i (es.filter fun e => p e.1) = if p i then sumAt i es else 0 := by
  induction es with
  | nil => simp
  | cons e es ih =>
      rw [List.filter_cons]
      by_cases he : e.1 = i
      · subst he
        split <;> simp_all [sumAt_cons]
      · split <;> simp_all [sumAt_cons]

theorem Valid.sumAt_col {a : Csc α} (h : a.Valid) {j : Nat} (hj : j < a.ncols) (i : Nat) :
    sumAt i (a.col j) = (lastOf (a.col j) i).getD 0 :=
  sumAt_eq_lastOf ((h.increasing j hj).imp Nat.ne_of_lt)

/-- A sum along a column, taken row by row. -/
theorem sum_map_mul_eq {α : Type} [NonUnitalNonAssocSemiring α] {n : Nat} {es : List (Nat × α)}
    (h : ∀ e ∈ es, e.1 < n) (v : Nat → α) :
    (es.map fun e => e.2 * v e.1).sum = ∑ i ∈ Finset.range n, sumAt i es * v i := by
  induction es with
  | nil => simp
  | cons e es ih =>
      rw [List.forall_mem_cons] at h
      rw [List.map_cons, List.sum_cons, ih h.2]
      simp only [sumAt_cons, add_mul, Finset.sum_add_distrib, ite_mul, zero_mul]
      rw [Finset.sum_ite_eq, if_pos (Finset.mem_range.mpr h.1)]

end Saddle.Csc
