import Saddle.Proofs.Solver.Session

/-!
# The answer is the one that the problem determines

In exact arithmetic a solver whose last update got through its factorization solves
the saddle point system of the current problem, for every right-hand side. The
system has then no second solution. What is answered is the solution itself or, for
an iteration, a number for each constraint that depends on it: the product of the
constraint with the variables, found without a look at the constraints. So the
answer is determined by the problem and the right-hand side, and the order of
elimination, which neither of them knows of, cannot show in it.
-/

namespace Saddle.Solver

open Csc Kkt Factor Access

variable {α : Type}

section Exact

variable [FieldScalar α]

/-- The matrix of the saddle point system. -/
def Problem.saddle (q : Problem α) (sigma : α) (polish : Bool) :
    Matrix (Fin q.p.ncols ⊕ Fin q.a.nrows) (Fin q.p.ncols ⊕ Fin q.a.nrows) α :=
  Kkt.saddle q.p q.a sigma (lowerOf sigma q.steps polish)

/-- The array `x` answers the right-hand side `b`, and `z` is the one solution of the system. -/
structure Answers (q : Problem α) (sigma : α) (polish : Bool) (b x : Array α)
    (z : Fin q.p.ncols ⊕ Fin q.a.nrows → α) : Prop where
  size_eq : x.size = q.p.ncols + q.a.nrows
  solution_iff : ∀ y, (q.saddle sigma polish).mulVec y = (fun u => b.getD (rowNumber u) 0) ↔ y = z
  of_variable : ∀ i : Fin q.p.ncols, x[(i : Nat)]? = some (z (.inl i))
  of_constraint_polished : polish = true → ∀ j : Fin q.a.nrows,
    x[q.p.ncols + j]? = some (z (.inr j))
  of_constraint : polish = false → ∀ j : Fin q.a.nrows, x[q.p.ncols + j]? =
    some (b.getD (q.p.ncols + j) 0 + q.steps.inverse.value j * z (.inr j))
  of_constraint_mulVec : polish = false → ∀ j : Fin q.a.nrows, x[q.p.ncols + j]? =
    some ((q.a.toMatrix q.a.nrows q.p.ncols).mulVec (fun i => z (.inl i)) j)

variable {q : Problem α} {sigma : α} {polish : Bool} {b x x' : Array α}
  {z z' : Fin q.p.ncols ⊕ Fin q.a.nrows → α}

theorem Answers.unique (h : Answers q sigma polish b x z) (h' : Answers q sigma polish b x' z') :
    x = x' := by
  obtain rfl : z = z' := (h'.solution_iff z).mp ((h.solution_iff z).mpr rfl)
  refine Array.ext_getElem? fun i => ?_
  rcases Nat.lt_or_ge i q.p.ncols with hi | hi
  · exact (h.of_variable ⟨i, hi⟩).trans (h'.of_variable ⟨i, hi⟩).symm
  obtain ⟨j, rfl⟩ := Nat.exists_eq_add_of_le hi
  rcases Nat.lt_or_ge j q.a.nrows with hj | hj
  · cases polish with
    | true =>
        exact (h.of_constraint_polished rfl ⟨j, hj⟩).trans
          (h'.of_constraint_polished rfl ⟨j, hj⟩).symm
    | false => exact (h.of_constraint rfl ⟨j, hj⟩).trans (h'.of_constraint rfl ⟨j, hj⟩).symm
  · rw [Array.getElem?_eq_none (by rw [h.size_eq]; omega),
      Array.getElem?_eq_none (by rw [h'.size_eq]; omega)]

theorem saddle_mulVec_inr (p a : Csc α) (sigma : α) (lower : PerConstraint α)
    (y : Fin p.ncols ⊕ Fin a.nrows → α) (j : Fin a.nrows) :
    (saddle p a sigma lower).mulVec y (.inr j) =
      (a.toMatrix a.nrows p.ncols).mulVec (fun i => y (.inl i)) j -
        lower.value j * y (.inr j) := by
  rw [saddle, Matrix.fromBlocks_mulVec, Sum.elim_inr, Pi.add_apply, Matrix.neg_mulVec,
    Pi.neg_apply, Matrix.mulVec_diagonal, sub_eq_add_neg]
  rfl

section Current

variable {method : Elimination.Method} {s : Solver α} {last : Except (Error α) Unit}

/-- Unless the last update met a zero pivot, every right-hand side has its answer. -/
theorem Current.exists_answer (h : Current method sigma polish q s last)
    (hlast : ∀ column, last ≠ .error (.factor (.zeroPivot column)))
    (hb : b.size = q.p.ncols + q.a.nrows) :
    ∃ x z, (s.solve b).run = some (.ok x) ∧ Answers q sigma polish b x z := by
  obtain ⟨old, new, st, numeric, hst, -, hsteps, -, hcomplete, rfl, rfl⟩ := h
  have hstop := Stages.stop_eq_none hlast
  have hf := hcomplete hstop
  obtain ⟨x, hrun, hx⟩ := hst.solve_spec polish hf.fits hsteps (hb ▸ Tabulates.self b 0)
  have hsolves := hst.mulVec_solutionAt hstop hf (b.getD · 0)
  have hconstraint : polish = false → ∀ j : Fin q.a.nrows, x[q.p.ncols + j]? =
      some (b.getD (q.p.ncols + j) 0 + q.steps.inverse.value j *
        solutionAt numeric.toFactorization (q.p.ncols + q.a.nrows) old new (b.getD · 0)
          (q.p.ncols + j)) := by
    intro hpolish j
    rw [hx.get _ (Nat.add_lt_add_left j.isLt _), answerAt, Nat.add_sub_cancel_left,
      if_neg (by rw [hpolish]; simp)]
  refine ⟨x, fun u => solutionAt numeric.toFactorization (q.p.ncols + q.a.nrows) old new
    (b.getD · 0) (rowNumber u), hrun, hx.size_eq, fun y => ⟨fun hy => ?_, fun hy => ?_⟩,
    fun i => ?_, fun hpolish j => ?_, hconstraint, fun hpolish j => ?_⟩
  · exact hst.eq_of_mulVec_eq hstop hf (hy.trans (funext hsolves).symm)
  · rw [hy]
    exact funext hsolves
  · rw [hx.get _ (Nat.lt_add_right _ i.isLt), answerAt, if_pos (Or.inr i.isLt)]
    rfl
  · rw [hx.get _ (Nat.add_lt_add_left j.isLt _), answerAt, if_pos (Or.inl hpolish)]
    rfl
  · -- The row of the constraint says what the entry amounts to.
    have hrow := hsolves (.inr j)
    rw [saddle_mulVec_inr, sub_eq_iff_eq_add, hpolish] at hrow
    rw [hrow]
    exact hconstraint hpolish j

end Current

/-- After any calls the last of whose updates met no zero pivot, every right-hand side of as many
entries as the system has rows is answered, and in the same way by a solver that was set up in
another order and got the same calls. -/
theorem answers_of_session {method : Elimination.Method} {p a : Csc α} {settings : Settings α}
    {given : Option (Array α)} {polish : Bool} {s : Solver α}
    (hinit : (initWith method p a given settings polish).run = some (.ok s))
    {calls : List (Call α)} (hkeep : ∀ c ∈ calls, c.Keeps p a) :
    ∃ t, (Session.start p a (givenSteps settings given) s).run calls = some t ∧
      SamePattern t.problem.p p ∧ SamePattern t.problem.a a ∧
      ((∀ column, t.last ≠ .error (.factor (.zeroPivot column))) →
        ∀ b : Array α, b.size = p.ncols + a.nrows →
          ∃ x z, (t.solver.solve b).run = some (.ok x) ∧
            Answers t.problem settings.sigma polish b x z ∧
            ∀ method' s' t', (initWith method' p a given settings polish).run = some (.ok s') →
              (Session.start p a (givenSteps settings given) s').run calls = some t' →
              (∀ column, t'.last ≠ .error (.factor (.zeroPivot column))) →
              (t'.solver.solve b).run = some (.ok x)) := by
  obtain ⟨t, hrun, ht, hproblem⟩ := (ongoing_start hinit).run add_comm hkeep
  refine ⟨t, hrun, ht.pPattern, ht.aPattern, fun hlast b hb => ?_⟩
  have hsize : b.size = t.problem.p.ncols + t.problem.a.nrows := by
    rw [ht.pPattern.ncols_eq, ht.aPattern.nrows_eq, hb]
  obtain ⟨x, z, hsolve, hx⟩ := ht.current.exists_answer hlast hsize
  refine ⟨x, z, hsolve, hx, fun method' s' t' hinit' hrun' hlast' => ?_⟩
  obtain ⟨t'', hrun'', ht', hproblem'⟩ := (ongoing_start hinit').run add_comm hkeep
  obtain rfl := Option.some.inj (hrun'.symm.trans hrun'')
  -- What the calls have left of the problem does not depend on the solver.
  have hsame : t'.problem = t.problem := hproblem'.trans hproblem.symm
  obtain ⟨solver', problem', last'⟩ := t'
  obtain rfl : problem' = t.problem := hsame
  obtain ⟨x', z', hsolve', hx'⟩ := ht'.current.exists_answer hlast' hsize
  rw [hx.unique hx']
  exact hsolve'

end Exact

/-! ## Convex problems -/

section Ordered

variable [OrderedScalar α] {method : Elimination.Method} {q : Problem α} {sigma : α}
  {polish : Bool} {s : Solver α} {last : Except (Error α) Unit}

/-- The last update of a problem that is convex has succeeded. -/
theorem Current.last_of_positiveDefinite (h : Current method sigma polish q s last)
    (hpd : PositiveDefinite (q.p.toSymmetric q.p.ncols + sigma • 1)) (hsigma : 0 < sigma)
    (hpos : ∀ r ∈ q.steps.toList, 0 < r) : last = .ok () := by
  obtain ⟨old, new, st, numeric, hst, -, hsteps, -, -, -, rfl⟩ := h
  obtain ⟨hstop, hcount, -⟩ := hst.eliminate_of_positiveDefinite hpd fun j hj =>
    lowerOf_value_pos hsigma hsteps hpos hj
  rw [Stages.verdict, hstop, hcount, verdict, checkConvexity, if_neg (Nat.lt_irrefl _)]

end Ordered

theorem positiveDefinite_steep : PositiveDefinite (steep.toSymmetric 2 + (1 : ℚ) • 1) := by
  have hsteep : steep.toSymmetric 2 + (1 : ℚ) • 1 = !![6, 1; 1, 4] := by
    ext i j
    fin_cases i <;> fin_cases j <;> decide +kernel
  rw [hsteep]
  exact positiveDefinite_of_one_lt (by norm_num) (by norm_num)

/-- The solution of the steeper problem for the right-hand side `7, 5, 2/3`. -/
def steepSolution : Fin 2 ⊕ Fin 1 → ℚ := Sum.elim ![1, 0] ![1]

theorem saddle_steep : (steepProblem.saddle 1 false).mulVec steepSolution =
    fun u => #[(7 : ℚ), 5, 2 / 3].getD (rowNumber u) 0 :=
  funext fun u => by
    revert u
    decide +kernel

theorem eq_of_answers_steep {x : Array ℚ} {z : Fin 2 ⊕ Fin 1 → ℚ}
    (h : Answers steepProblem 1 false #[7, 5, 2 / 3] x z) : x = #[1, 0, 1] := by
  obtain rfl : steepSolution = z := (h.solution_iff steepSolution).mp saddle_steep
  have hfirst : x[0]? = some 1 := h.of_variable (0 : Fin 2)
  have hsecond : x[1]? = some 0 := h.of_variable (1 : Fin 2)
  have hthird := h.of_constraint rfl (0 : Fin 1)
  have hvalue : #[(7 : ℚ), 5, 2 / 3].getD 2 0 +
      steepProblem.steps.inverse.value 0 * steepSolution (.inr 0) = 1 := by decide +kernel
  refine Array.ext_getElem? fun i => ?_
  match i with
  | 0 => exact hfirst
  | 1 => exact hsecond
  | 2 => exact hthird.trans (congrArg some hvalue)
  | i + 3 => rw [Array.getElem?_eq_none (by rw [h.size_eq]; exact Nat.le_add_left 3 i)]; rfl

theorem answers_of_session_steepening :
    ∃ s t, (initWith (fixedOrder #[2, 0, 1]) bowl plane (some #[2]) ⟨1, 5, .natural, 10⟩
        false).run = some (.ok s) ∧
      (Session.start bowl plane (.each #[2]) s).run steepening = some t ∧
      (t.solver.solve #[7, 5, 2 / 3]).run = some (.ok #[1, 0, 1]) := by
  obtain ⟨s, hs⟩ := exists_solver_bowl
  obtain ⟨t, hrun, -, -, hanswer⟩ := answers_of_session hs keeps_steepening
  obtain ⟨t', hrun', ht, hproblem⟩ := (ongoing_start hs).run add_comm keeps_steepening
  obtain rfl := Option.some.inj (hrun.symm.trans hrun')
  obtain ⟨solver, problem, last⟩ := t
  obtain rfl : problem = steepProblem := hproblem.trans after_steepening
  have hpositive : ∀ r ∈ steepProblem.steps.toList, 0 < r := by decide
  have hlast : last = .ok () :=
    ht.current.last_of_positiveDefinite positiveDefinite_steep one_pos hpositive
  obtain ⟨x, z, hsolve, hx, -⟩ := hanswer (fun column h => by rw [hlast] at h; cases h)
    #[7, 5, 2 / 3] rfl
  rw [eq_of_answers_steep hx] at hsolve
  exact ⟨s, _, hs, hrun, hsolve⟩

end Saddle.Solver
