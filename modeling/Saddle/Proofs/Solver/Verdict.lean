import Saddle.Proofs.Kkt.Inertia
import Saddle.Proofs.Solver.Session

/-!
# What the verdict on convexity says

A setup counts the positive pivots of the whole saddle point matrix and compares their
number with that of the variables. By the law of inertia the count is one of the
problem: the number of positive squares of `P + σI + Aᵀ diag(ρ) A`, with the reciprocal
of `σ` in place of each step size for polishing. The order of elimination does not
enter, and the verdict is that this matrix is not positive definite.

Of `P + σI` by itself the verdict says less. If that is positive definite, the problem
is accepted. An accepted problem may be far from it, as the constraints add to the form
wherever they do not vanish; only on the vectors on which they do is `P + σI` positive.
-/

namespace Saddle.Solver

open Csc Kkt Factor Matrix

variable {α : Type}

/-! ## Weights -/

section Weights

variable [OrderedScalar α] {settings : Settings α} {given : Option (Array α)} {sigma : α}
  {steps : PerConstraint α} {polish : Bool} {m : Nat}

/-- The weights of the constraints: their step sizes, or what stands for these in polishing. -/
def weightsOf (sigma : α) (steps : PerConstraint α) (polish : Bool) : PerConstraint α :=
  if polish then .uniform (1 / sigma) else steps

theorem isRegular_eq_true {x : α} : Settings.isRegular x = true ↔ 0 < x := by
  have hfinite : Scalar.isFinite x = true := OrderedScalar.isFinite_eq x
  rw [Settings.isRegular, hfinite, Bool.true_and, isPositive_eq_true]

theorem positive_of_chooseSteps (h : chooseSteps settings given m = .ok steps) :
    0 < settings.sigma ∧ steps.Fits m ∧ ∀ r ∈ steps.toList, 0 < r := by
  obtain ⟨hfits, hregular⟩ := checkSteps_eq_ok.mp (checkSteps_of_chooseSteps h)
  have hsigma := (validate_eq_ok.mp (chooseSteps_eq_ok.mp h).1).1
  exact ⟨isRegular_eq_true.mp hsigma, hfits, fun r hr => isRegular_eq_true.mp (hregular r hr)⟩

theorem inverse_value (h : steps.Fits m) {j : Nat} (hj : j < m) :
    steps.inverse.value j = 1 / steps.value j := by
  cases steps with
  | uniform r => rfl
  | each values =>
      have hlt : j < values.size := by rw [show values.size = m from h]; exact hj
      simp [PerConstraint.inverse, PerConstraint.value, PerConstraint.get?, hlt]

theorem lowerOf_mul_weightsOf (hsigma : 0 < sigma) (h : steps.Fits m)
    (hpos : ∀ r ∈ steps.toList, 0 < r) {j : Nat} (hj : j < m) :
    (lowerOf sigma steps polish).value j * (weightsOf sigma steps polish).value j = 1 := by
  cases polish with
  | true => exact mul_one_div_cancel hsigma.ne'
  | false =>
      have hlower := inverse_value_pos h hpos hj
      rw [inverse_value h hj] at hlower
      show steps.inverse.value j * steps.value j = 1
      rw [inverse_value h hj]
      exact one_div_mul_cancel (one_div_pos.mp hlower).ne'

theorem weightsOf_value_pos (hsigma : 0 < sigma) (h : steps.Fits m)
    (hpos : ∀ r ∈ steps.toList, 0 < r) {j : Nat} (hj : j < m) :
    0 < (weightsOf sigma steps polish).value j := by
  have hone : (lowerOf sigma steps polish).value j * (weightsOf sigma steps polish).value j = 1 :=
    lowerOf_mul_weightsOf hsigma h hpos hj
  exact (pos_iff_pos_of_mul_pos (hone ▸ one_pos)).mp (lowerOf_value_pos hsigma h hpos hj)

end Weights

/-! ## Setups that get through their factorization -/

/-- The stages of a setup have run, and the last of them has returned this factor. -/
def Factored [Scalar α] (method : Elimination.Method) (p a : Csc α) (given : Option (Array α))
    (settings : Settings α) (polish : Bool) (f : Numeric α) : Prop :=
  ∃ steps system reordered renumbering symbolic,
    chooseSteps settings given a.nrows = .ok steps ∧
    (assemble p a settings.sigma (lowerOf settings.sigma steps polish) (!polish)).run =
      some (.ok system) ∧
    (system.reorder method).run = some (.ok (reordered, renumbering)) ∧
    (analyze reordered.matrix).run = some (.ok symbolic) ∧
    (factor reordered.matrix symbolic).run = some (.ok f)

section Factored

variable [Scalar α] {method : Elimination.Method} {p a : Csc α} {given : Option (Array α)}
  {settings : Settings α} {polish : Bool} {f : Numeric α}

theorem Factored.exists_prepared (h : Factored method p a given settings polish f) :
    ∃ old new st, chooseSteps settings given a.nrows = .ok (givenSteps settings given) ∧
      Prepared method p a settings.sigma
        (lowerOf settings.sigma (givenSteps settings given) polish) (!polish) old new st ∧
      st.symbolic.total ≤ maxSize ∧ (factor st.matrix st.symbolic).run = some (.ok f) ∧
      (eliminate st.matrix st.symbolic.parent).2 = none ∧
      Complete st.matrix st.symbolic (eliminate st.matrix st.symbolic.parent).1
        f.toFactorization := by
  obtain ⟨steps, system, reordered, r, symbolic, hsteps, hassemble, hreorder, hanalyze,
    hfactor⟩ := h
  obtain ⟨-, rfl, -⟩ := chooseSteps_eq_ok.mp hsteps
  obtain ⟨old, new, st, hst, hmatrix⟩ := exists_prepared_of_reorder hassemble hreorder
  rw [hmatrix] at hanalyze hfactor
  rw [hst.analysis, Option.some.injEq] at hanalyze
  split at hanalyze
  · next htotal =>
    obtain rfl := Except.ok.inj hanalyze
    obtain ⟨hnone, -, hcomplete⟩ :=
      factor_eq_ok hst.valid.readable hst.upper hst.analyzed hfactor
    exact ⟨old, new, st, hsteps, hst, htotal, hfactor, hnone, hcomplete⟩
  · cases hanalyze

theorem Factored.run_eq (h : Factored method p a given settings polish f) :
    ∃ s : Solver α, s.numeric = f ∧ (initWith method p a given settings polish).run =
      some ((checkConvexity f.positive p.ncols).map fun _ => s) := by
  obtain ⟨old, new, st, hsteps, hst, htotal, hfactor, hnone, hf⟩ := h.exists_prepared
  obtain ⟨numeric, hfactor', hrun, -, -⟩ := initWith_eq hsteps hst htotal
  rw [hfactor, hnone, Option.some.injEq] at hfactor'
  obtain rfl := Except.ok.inj hfactor'
  refine ⟨st.solver p a settings.sigma (givenSteps settings given) polish f, rfl, ?_⟩
  rw [hrun, Stages.verdict, hnone, Solver.verdict, hf.positive]

end Factored

section Verdict

variable [OrderedScalar α] {method method' : Elimination.Method} {p a : Csc α}
  {given : Option (Array α)} {settings : Settings α} {polish : Bool} {f f' : Numeric α}

/-- The matrix on whose definiteness a setup decides. -/
def tested (p a : Csc α) (given : Option (Array α)) (settings : Settings α) (polish : Bool) :
    Matrix (Fin p.ncols) (Fin p.ncols) α :=
  condensed p a settings.sigma (weightsOf settings.sigma (givenSteps settings given) polish)

/-- The count is the number of positive squares in any diagonalization. -/
theorem Factored.positive_eq (h : Factored method p a given settings polish f)
    {t : Matrix (Fin p.ncols) (Fin p.ncols) α} {e : Fin p.ncols → α}
    (ht : Diagonalizes (tested p a given settings polish) t e) :
    f.positive = positiveSquares e := by
  obtain ⟨old, new, st, hsteps, hst, -, -, hnone, hf⟩ := h.exists_prepared
  obtain ⟨hsigma, hfits, hpos⟩ := positive_of_chooseSteps hsteps
  exact hst.assembled.positive_eq hst.blocks hst.renumbers
    (fun j hj => lowerOf_value_pos hsigma hfits hpos hj)
    (fun j hj => lowerOf_mul_weightsOf hsigma hfits hpos hj) hst.valid hst.upper hst.analyzed hnone
    hf ht

theorem exists_diagonalizes_tested (p a : Csc α) (given : Option (Array α))
    (settings : Settings α) (polish : Bool) :
    ∃ t e, Diagonalizes (tested p a given settings polish) t e :=
  exists_diagonalizes (isSymm_condensed p a _ _)

theorem Factored.positiveDefinite_iff (h : Factored method p a given settings polish f) :
    PositiveDefinite (tested p a given settings polish) ↔ ¬ f.positive < p.ncols := by
  obtain ⟨t, e, ht⟩ := exists_diagonalizes_tested p a given settings polish
  have hle : positiveSquares e ≤ p.ncols := by
    refine (Finset.card_le_univ _).trans_eq ?_
    exact Fintype.card_fin p.ncols
  have hpos := ht.form_pos_iff
  rw [Fintype.card_fin] at hpos
  rw [PositiveDefinite, hpos, h.positive_eq ht]
  omega

theorem Factored.run_of_tested (h : Factored method p a given settings polish f) :
    (PositiveDefinite (tested p a given settings polish) →
      ∃ s : Solver α, s.numeric = f ∧
        (initWith method p a given settings polish).run = some (.ok s)) ∧
    (¬ PositiveDefinite (tested p a given settings polish) →
      (initWith method p a given settings polish).run =
        some (.error (.nonConvex f.positive p.ncols))) := by
  obtain ⟨s, hs, hrun⟩ := h.run_eq
  rw [h.positiveDefinite_iff, hrun, checkConvexity]
  constructor
  · intro hcount
    rw [if_neg hcount]
    exact ⟨s, hs, rfl⟩
  · intro hcount
    rw [if_pos (not_not.mp hcount)]
    rfl

/-- A setup that gets through its factorization finds the problem not convex exactly if the matrix
that is tested is not positive definite, and counts its positive squares, in whatever coordinates
and in whatever order. -/
theorem verdict_of_factored (h : Factored method p a given settings polish f) :
    ((∃ positive required, (initWith method p a given settings polish).run =
        some (.error (.nonConvex positive required))) ↔
      ¬ PositiveDefinite (tested p a given settings polish)) ∧
    (¬ PositiveDefinite (tested p a given settings polish) →
      (initWith method p a given settings polish).run =
        some (.error (.nonConvex f.positive p.ncols))) ∧
    (PositiveDefinite (tested p a given settings polish) →
      ∃ s : Solver α, s.numeric = f ∧
        (initWith method p a given settings polish).run = some (.ok s)) ∧
    (∃ t e, Diagonalizes (tested p a given settings polish) t e) ∧
    (∀ t e, Diagonalizes (tested p a given settings polish) t e →
      f.positive = positiveSquares e) ∧
    ∀ method' f', Factored method' p a given settings polish f' → f'.positive = f.positive := by
  obtain ⟨haccepted, hrefused⟩ := h.run_of_tested
  obtain ⟨t, e, ht⟩ := exists_diagonalizes_tested p a given settings polish
  refine ⟨⟨?_, fun hpd => ⟨_, _, hrefused hpd⟩⟩, hrefused, haccepted, ⟨t, e, ht⟩,
    fun t e ht => h.positive_eq ht, fun method' f' h' => ?_⟩
  · rintro ⟨positive, required, hrun⟩ hpd
    obtain ⟨s, -, hs⟩ := haccepted hpd
    rw [hrun] at hs
    cases hs
  · rw [h'.positive_eq ht, h.positive_eq ht]

/-- A form that falls in one direction. -/
def ridge : Csc ℚ := ⟨2, 2, #[0, 1, 2], #[0, 1], #[2, -3]⟩

/-- A constraint on the other one. -/
def rail : Csc ℚ := ⟨1, 2, #[0, 1, 1], #[0], #[1]⟩

/-- The factor of their matrix, with the constraint in front. -/
def ridgeFactor : Numeric ℚ where
  l := ⟨3, 3, #[0, 1, 1, 1], #[1], #[-2]⟩
  d := #[-1 / 2, 5, -2]
  dInv := #[-2, 1 / 5, -1 / 2]
  positive := 1
  work := { Workspace.blank 3 with next := #[1, 1, 1] }

theorem factored_ridge : Factored (fixedOrder #[2, 0, 1]) ridge rail (some #[2])
    ⟨1, 5, .natural, 10⟩ false ridgeFactor := by
  refine ⟨.each #[2], ⟨⟨3, 3, #[0, 1, 2, 4], #[0, 1, 0, 2], #[3, -2, 1, -1 / 2]⟩,
    some ⟨#[0, 1], #[2], #[3]⟩⟩, ⟨⟨3, 3, #[0, 1, 3, 4], #[0, 0, 1, 2], #[-1 / 2, 1, 3, -2]⟩,
    some ⟨#[2, 3], #[1], #[0]⟩⟩, ⟨#[2, 0, 1], #[1, 2, 0]⟩,
    ⟨3, #[some 1, none, none], #[1, 0, 0], 1⟩, by rfl, ?_, ?_, by decide +kernel,
    by decide +kernel⟩
  · simp only [assemble, Triplets.build, Cell.sortNumbered_eq_insertionSort]
    decide +kernel
  · simp only [System.reorder, permuteSymmetric, moveEntries, sortColumn_eq_insertionSort]
    decide +kernel

theorem diagonalizes_ridge :
    Diagonalizes (tested ridge rail (some #[2]) ⟨1, 5, .natural, 10⟩ false) 1 ![5, -2] where
  isUnit := isUnit_one
  form_eq := by
    rw [transpose_one, Matrix.one_mul, Matrix.mul_one]
    ext i j
    fin_cases i <;> fin_cases j <;> decide +kernel

theorem verdict_of_factored_ridge :
    (initWith (fixedOrder #[2, 0, 1]) ridge rail (some #[2]) ⟨1, 5, .natural, 10⟩ false).run =
      some (.error (.nonConvex 1 2)) := by
  obtain ⟨-, hrefused, -, -, hcount, -⟩ := verdict_of_factored factored_ridge
  refine hrefused fun hpd => ?_
  have hall := diagonalizes_ridge.form_pos_iff.mp hpd
  rw [← hcount 1 ![5, -2] diagonalizes_ridge] at hall
  exact absurd hall (by decide)

/-! ## The verdict and the form alone -/

/-- A positive definite form is accepted. A form that is accepted is positive on the vectors on
which the constraints vanish. If they vanish on all vectors, nothing else is accepted. -/
theorem verdict_on_form (h : Factored method p a given settings polish f) :
    (PositiveDefinite (p.toSymmetric p.ncols + settings.sigma • 1) →
      ∃ s : Solver α, s.numeric = f ∧
        (initWith method p a given settings polish).run = some (.ok s)) ∧
    (∀ s, (initWith method p a given settings polish).run = some (.ok s) →
      ∀ x : Fin p.ncols → α, x ≠ 0 → a.toMatrix a.nrows p.ncols *ᵥ x = 0 →
        0 < x ⬝ᵥ (p.toSymmetric p.ncols + settings.sigma • 1) *ᵥ x) ∧
    ((∀ x : Fin p.ncols → α, a.toMatrix a.nrows p.ncols *ᵥ x = 0) →
      ((∃ positive required, (initWith method p a given settings polish).run =
          some (.error (.nonConvex positive required))) ↔
        ¬ PositiveDefinite (p.toSymmetric p.ncols + settings.sigma • 1))) := by
  obtain ⟨haccepted, hrefused⟩ := h.run_of_tested
  obtain ⟨old, new, st, hsteps, -⟩ := h.exists_prepared
  obtain ⟨hsigma, hfits, hpos⟩ := positive_of_chooseSteps hsteps
  have hdefinite : PositiveDefinite (p.toSymmetric p.ncols + settings.sigma • 1) →
      PositiveDefinite (tested p a given settings polish) :=
    positiveDefinite_condensed fun j hj => (weightsOf_value_pos hsigma hfits hpos hj).le
  have hform : ∀ s, (initWith method p a given settings polish).run = some (.ok s) →
      ∀ x : Fin p.ncols → α, x ≠ 0 → a.toMatrix a.nrows p.ncols *ᵥ x = 0 →
        0 < x ⬝ᵥ (p.toSymmetric p.ncols + settings.sigma • 1) *ᵥ x := by
    intro s hs x hx hax
    have htested : PositiveDefinite (tested p a given settings polish) := by
      by_contra hpd
      rw [hrefused hpd] at hs
      cases hs
    exact form_pos_of_condensed htested hx hax
  refine ⟨fun hpd => haccepted (hdefinite hpd), hform, fun hzero => ⟨?_, fun hpd => ?_⟩⟩
  · rintro ⟨positive, required, hrun⟩ hpd
    obtain ⟨s, -, hs⟩ := haccepted (hdefinite hpd)
    rw [hrun] at hs
    cases hs
  · refine ⟨f.positive, p.ncols, hrefused fun htested => hpd ?_⟩
    obtain ⟨s, -, hs⟩ := haccepted htested
    exact fun x hx => hform s hs x hx (hzero x)

/-- A form that falls. -/
def dip : Csc ℚ := ⟨1, 1, #[0, 1], #[0], #[-2]⟩

/-- A constraint that outweighs it. -/
def stiff : Csc ℚ := ⟨1, 1, #[0, 1], #[0], #[10]⟩

/-- The factor of their matrix. -/
def dipFactor : Numeric ℚ where
  l := ⟨2, 2, #[0, 1, 1], #[1], #[-10]⟩
  d := #[-1, 99]
  dInv := #[-1, 1 / 99]
  positive := 1
  work := { Workspace.blank 2 with next := #[1, 1] }

theorem factored_dip :
    Factored Elimination.natural dip stiff none ⟨1, 1, .natural, 10⟩ false dipFactor := by
  refine ⟨.uniform 1, ⟨⟨2, 2, #[0, 1, 3], #[0, 0, 1], #[-1, 10, -1]⟩, some ⟨#[0], #[1], #[2]⟩⟩,
    ⟨⟨2, 2, #[0, 1, 3], #[0, 0, 1], #[-1, 10, -1]⟩, some ⟨#[0], #[1], #[2]⟩⟩,
    ⟨#[0, 1], #[0, 1]⟩, ⟨2, #[some 1, none], #[1, 0], 1⟩, by rfl, ?_, ?_, by decide +kernel,
    by decide +kernel⟩
  · simp only [assemble, Triplets.build, Cell.sortNumbered_eq_insertionSort]
    decide +kernel
  · simp only [System.reorder, permuteSymmetric, moveEntries, sortColumn_eq_insertionSort]
    decide +kernel

/-- The verdict is not on `P + σI`: here is a solver for a form that is not positive definite. -/
theorem accepted_dip :
    (∃ s, (initWith Elimination.natural dip stiff none ⟨1, 1, .natural, 10⟩ false).run =
      some (.ok s)) ∧ ¬ PositiveDefinite (dip.toSymmetric 1 + (1 : ℚ) • 1) := by
  constructor
  · obtain ⟨s, -, hrun⟩ := factored_dip.run_eq
    exact ⟨s, hrun⟩
  · intro hpd
    have hform := hpd ![1] (by decide)
    revert hform
    decide +kernel

/-- A form that falls in its second direction only. -/
def trough : Csc ℚ := ⟨2, 2, #[0, 1, 2], #[0, 1], #[2, -2]⟩

/-- A constraint that outweighs it there, and leaves the first direction free. -/
def wall : Csc ℚ := ⟨1, 2, #[0, 0, 1], #[0], #[10]⟩

/-- The factor of their matrix. -/
def troughFactor : Numeric ℚ where
  l := ⟨3, 3, #[0, 0, 1, 1], #[2], #[-10]⟩
  d := #[3, -1, 99]
  dInv := #[1 / 3, -1, 1 / 99]
  positive := 2
  work := ⟨#[false, false, false], #[1, 0, 0], #[1, 0, 0], #[0, 1, 1], #[0, 0, 0]⟩

theorem factored_trough :
    Factored Elimination.natural trough wall none ⟨1, 1, .natural, 10⟩ false troughFactor := by
  refine ⟨.uniform 1, ⟨⟨3, 3, #[0, 1, 2, 4], #[0, 1, 1, 2], #[3, -1, 10, -1]⟩,
    some ⟨#[0, 1], #[2], #[3]⟩⟩, ⟨⟨3, 3, #[0, 1, 2, 4], #[0, 1, 1, 2], #[3, -1, 10, -1]⟩,
    some ⟨#[0, 1], #[2], #[3]⟩⟩, ⟨#[0, 1, 2], #[0, 1, 2]⟩,
    ⟨3, #[none, some 2, none], #[0, 1, 0], 1⟩, by rfl, ?_, ?_, by decide +kernel,
    by decide +kernel⟩
  · simp only [assemble, Triplets.build, Cell.sortNumbered_eq_insertionSort]
    decide +kernel
  · simp only [System.reorder, permuteSymmetric, moveEntries, sortColumn_eq_insertionSort]
    decide +kernel

theorem verdict_on_form_trough :
    ∃ s, (initWith Elimination.natural trough wall none ⟨1, 1, .natural, 10⟩ false).run =
        some (.ok s) ∧
      wall.toMatrix 1 2 *ᵥ ![1, 0] = 0 ∧
      0 < ![1, 0] ⬝ᵥ (trough.toSymmetric 2 + (1 : ℚ) • 1) *ᵥ ![1, 0] ∧
      ![0, 1] ⬝ᵥ (trough.toSymmetric 2 + (1 : ℚ) • 1) *ᵥ ![0, 1] < 0 := by
  obtain ⟨s, -, hrun⟩ := factored_trough.run_eq
  have hfree : wall.toMatrix 1 2 *ᵥ ![1, 0] = 0 := by
    ext i
    fin_cases i
    decide +kernel
  have hne : (![1, 0] : Fin 2 → ℚ) ≠ 0 := by decide
  refine ⟨s, hrun, hfree, ?_, by decide +kernel⟩
  exact (verdict_on_form factored_trough).2.1 s hrun ![1, 0] hne hfree

end Verdict

end Saddle.Solver
