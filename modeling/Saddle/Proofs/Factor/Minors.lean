import Saddle.Proofs.Factor.Reconstruct

/-!
# Where elimination breaks down

Without pivoting, elimination gets through a row if the leading part of the matrix up
to that row has a determinant other than zero. For the leading part is the product of
a unit lower triangular matrix, the pivots so far and the transpose, so that its
determinant is the product of these pivots, and the pivot of the row at hand is the
only new factor. This holds of the row that ends an elimination too: that row is
computed as any other, and it is only its pivot that cannot be divided by. Whether an
entry of the diagonal is stored does not come up, as one that is not counts as zero in
the matrix and in the row alike.
-/

namespace Saddle.Factor

open Finset Csc

variable {α : Type} [FieldScalar α] {a : Csc α} {s : Symbolic} {k : Nat} {st : Stage α}

/-- The determinant of the first `k` rows and columns of the symmetric matrix. -/
def leadingMinor (a : Csc α) (k : Nat) : α := (a.toSymmetric k).det

/-- The matrix can be eliminated up to row `k`, and no further. -/
structure BreaksAt (a : Csc α) (k : Nat) : Prop where
  lt_ncols : k < a.ncols
  minor_eq : leadingMinor a (k + 1) = 0
  minor_ne : ∀ j ≤ k, leadingMinor a j ≠ 0

theorem BreaksAt.unique {j : Nat} (h : BreaksAt a k) (h' : BreaksAt a j) : k = j := by
  rcases Nat.lt_trichotomy k j with hlt | heq | hgt
  · exact absurd h.minor_eq (h'.minor_ne (k + 1) hlt)
  · exact heq
  · exact absurd h'.minor_eq (h.minor_ne (j + 1) hgt)

theorem Reconstructs.mono (h : Reconstructs a k st) {j : Nat} (hj : j ≤ k) : Reconstructs a j st :=
  fun l hl => h l (Nat.lt_of_lt_of_le hl hj)

/-- The leading minors are the products of the pivots. -/
theorem Reconstructs.leadingMinor_eq (h : Reconstructs a k st) (hl : Lower a.ncols st.cols)
    (hk : k ≤ a.ncols) : leadingMinor a k = ∏ l ∈ range k, st.d l := by
  let u : Matrix (Fin k) (Fin k) α := .of fun i j => st.unit i j
  have hproduct :
      a.toSymmetric k = u * Matrix.diagonal (fun l : Fin k => st.d l) * u.transpose := by
    ext i j
    rw [Matrix.mul_apply, toSymmetric, Matrix.of_apply, h.sum_range hl hk i.isLt j.isLt,
      Finset.sum_range]
    refine sum_congr rfl fun l _ => ?_
    rw [Matrix.mul_diagonal, Matrix.transpose_apply]
    rfl
  have hdet : u.det = 1 := det_unit hl hk
  rw [leadingMinor, hproduct, Matrix.det_mul, Matrix.det_mul, Matrix.det_transpose, hdet,
    Matrix.det_diagonal, one_mul, mul_one, Finset.prod_range]

theorem Inverted.prod_ne_zero (h : Inverted k st) {j : Nat} (hj : j ≤ k) :
    ∏ l ∈ range j, st.d l ≠ 0 := by
  refine Finset.prod_ne_zero_iff.mpr fun l hl => ?_
  have hone := h l (Nat.lt_of_lt_of_le (mem_range.mp hl) hj)
  exact left_ne_zero_of_mul (hone ▸ one_ne_zero)

theorem Eliminated.minor_ne (h : Eliminated a s k st) (hk : k ≤ a.ncols) {j : Nat} (hj : j ≤ k) :
    leadingMinor a j ≠ 0 := by
  rw [(h.reconstructs.mono hj).leadingMinor_eq (h.rows.lower hk) (Nat.le_trans hj hk)]
  exact h.inverted.prod_ne_zero hj

/-- A row whose pivot cannot be divided by. -/
theorem Eliminated.breaksAt (h : Eliminated a s k st) (hv : a.Valid) (hu : a.Upper)
    (ha : Analyzed a s) (hk : k < a.ncols) (hstop : (st.addRow a s.parent k).2 = false) :
    BreaksAt a k := by
  have hrec := h.reconstructs.addRow hv hu ha hk h.rows h.inverted
  have hcols := hasRows_addRow hu ha hk h.rows
  have hzero : (st.addRow a s.parent k).1.d k = 0 := by
    rw [Stage.addRow_d, Function.update_self]
    by_contra hne
    rw [Stage.addRow, if_neg fun hz => hne (isZero_eq_true.mp hz)] at hstop
    cases hstop
  refine ⟨hk, ?_, fun j hj => h.minor_ne (Nat.le_of_lt hk) hj⟩
  rw [hrec.leadingMinor_eq (hcols.lower hk) hk, prod_range_succ, hzero, mul_zero]

/-- An elimination ends where the matrix breaks down, or not before its last row. -/
theorem eliminate_minors (hv : a.Valid) (hu : a.Upper) (ha : Analyzed a s) :
    ((eliminate a s.parent).2 = none → ∀ j ≤ a.ncols, leadingMinor a j ≠ 0) ∧
      ∀ k, (eliminate a s.parent).2 = some k → BreaksAt a k := by
  obtain ⟨hdone, hstopped⟩ := eliminate_rule (I := Eliminated a s) (.start a s)
    fun k st hk h hsome => h.addRow hv hu ha hk hsome
  refine ⟨fun hnone j hj => (hdone hnone).minor_ne (Nat.le_refl _) hj, fun k hk => ?_⟩
  obtain ⟨hlt, st, h, hadd⟩ := hstopped k hk
  exact h.breaksAt hv hu ha hlt (by rw [hadd])

/-- A zero pivot is reported in the column after which the leading minors vanish first, and
a factor is returned if none of them does. -/
theorem factor_eq_zeroPivot_iff (hcheck : a.check.run = some (.ok ()))
    (hs : (analyze a).run = some (.ok s)) :
    (∀ k, (factor a s).run = some (.error (.zeroPivot k)) ↔
      k < a.ncols ∧ leadingMinor a (k + 1) = 0 ∧ ∀ j ≤ k, leadingMinor a j ≠ 0) ∧
    ((∃ f, (factor a s).run = some (.ok f)) ↔ ∀ j ≤ a.ncols, leadingMinor a j ≠ 0) := by
  have hv := check_eq_ok.mp hcheck
  have ha := analyzed_of_analyze hv.toFramed hs
  have hu := (upper_of_analyze hv.toFramed hs).1
  obtain ⟨f, hrun, -⟩ := factor_spec hv.readable hu ha
  obtain ⟨hdone, hstopped⟩ := eliminate_minors hv hu ha
  rw [hrun]
  cases hstop : (eliminate a s.parent).2 with
  | none =>
      have hne := hdone hstop
      refine ⟨fun k => ⟨nofun, fun ⟨hk, hzero, _⟩ => absurd hzero (hne (k + 1) hk)⟩,
        fun _ => hne, fun _ => ⟨f, rfl⟩⟩
  | some k =>
      have hbreak := hstopped k hstop
      refine ⟨fun j => ⟨fun h => ?_, fun ⟨hj, hzero, hne⟩ => ?_⟩, nofun, fun hne => ?_⟩
      · obtain rfl : k = j := by simpa [outcome, Except.map] using h
        exact ⟨hbreak.lt_ncols, hbreak.minor_eq, hbreak.minor_ne⟩
      · rw [hbreak.unique ⟨hj, hzero, hne⟩]
        rfl
      · exact absurd hbreak.minor_eq (hne (k + 1) hbreak.lt_ncols)

/-- A matrix that stores no diagonal entry in its last column, where the fill of the columns
before it adds up to zero. -/
def cancelling : Csc ℚ := ⟨3, 3, #[0, 1, 2, 4], #[0, 1, 0, 1], #[1, -1, 1, 1]⟩

theorem factor_eq_zeroPivot_iff_cancelling :
    ∃ s, cancelling.check.run = some (.ok ()) ∧ (analyze cancelling).run = some (.ok s) ∧
      (factor cancelling s).run = some (.error (.zeroPivot 2)) ∧ leadingMinor cancelling 3 = 0 ∧
      ∀ j ≤ 2, leadingMinor cancelling j ≠ 0 := by
  have hcheck : cancelling.check.run = some (.ok ()) := by decide
  have hs : (analyze cancelling).run = some (.ok ⟨3, #[some 2, some 2, none], #[1, 1, 0], 2⟩) := by
    decide
  have hstop : (factor cancelling ⟨3, #[some 2, some 2, none], #[1, 1, 0], 2⟩).run =
      some (.error (.zeroPivot 2)) := by decide +kernel
  obtain ⟨-, hzero, hne⟩ := ((factor_eq_zeroPivot_iff hcheck hs).1 2).mp hstop
  exact ⟨_, hcheck, hs, hstop, hzero, hne⟩

end Saddle.Factor
