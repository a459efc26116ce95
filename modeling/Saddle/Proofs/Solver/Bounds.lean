import Saddle.Proofs.Kkt.Bounds
import Saddle.Proofs.Solver.Session

/-!
# No setup and no call leaves its arrays

A setup is handed raw arrays and any values. Its stages are in bounds for different
reasons: the checks, because each makes the next one safe; what follows them up to the
analysis, because it is known in full what they come to on blocks that fit together;
the elimination, because the analysis has counted the entries of the factor exactly.
None of this looks at values, so it holds of numbers that are infinite or undefined. The
count itself is all that an analysis can fail for, and it is out of reach of problems of
moderate size.

A solver is then called, with matrices of any pattern, and a call may fail halfway.
What it keeps is less than what `Current` says: the values that it holds need not be
those of any problem. But the pattern of its matrix is still the one that has been
analyzed, the slots are still places of it, the factor still has the room that was
counted, and its workspace a place for every column. This is all that the next call
needs, whatever it is.
-/

namespace Saddle.Solver

open Csc Kkt Factor Checked

variable {α : Type} [Scalar α]

/-! ## Setting up -/

/-- The errors of a factorization, which come after all that is stored. -/
inductive FactorFailure : Error α → Prop where
  | zeroPivot (column : Nat) : FactorFailure (.factor (.zeroPivot column))
  | nonConvex (positive required : Nat) : FactorFailure (.nonConvex positive required)

omit [Scalar α] in
theorem failsWith_checkConvexity {P : Error α → Prop} {positive n : Nat}
    (h : P (.nonConvex positive n)) :
    FailsWith P (checkConvexity positive n : Except (Error α) Unit) := by
  intro e he
  rw [checkConvexity] at he
  split at he
  · exact Except.error.inj he ▸ h
  · cases he

/-- What is kept for updates has the pattern of the matrix, and its slots are places of it. -/
def Mode.Follows (matrix : Csc α) : Mode α → Prop
  | .updatable current maps => SamePattern current matrix ∧ maps.Inside matrix.vals.size
  | .polishing => True

/-- The solver has been prepared on the given blocks, and what it holds by now still fits. -/
def Operable (method : Elimination.Method) (p a : Csc α) (s : Solver α) : Prop :=
  ∃ sigma lower track old new st steps numeric mode,
    Prepared method p a sigma lower track old new st ∧ st.symbolic.total ≤ maxSize ∧
      steps.Fits a.nrows ∧ Ready st.symbolic numeric ∧ mode.Follows st.matrix ∧
        s = { st.solver p a sigma steps false numeric with mode }

section Prepared

variable {method : Elimination.Method} {p a : Csc α} {sigma : α} {lower steps : PerConstraint α}
  {track : Bool} {old new : Nat → Nat} {st : Stages α} {numeric : Numeric α} {mode : Mode α}

theorem Prepared.operable (h : Prepared method p a sigma lower track old new st)
    (htotal : st.symbolic.total ≤ maxSize) (hsteps : steps.Fits a.nrows)
    (hf : Ready st.symbolic numeric) (polish : Bool) :
    Operable method p a (st.solver p a sigma steps polish numeric) := by
  refine ⟨sigma, lower, track, old, new, st, steps, numeric, _, h, htotal, hsteps, hf, ?_, rfl⟩
  cases polish with
  | true => trivial
  | false => exact ⟨.refl _, h.assembled.inside⟩

/-- What is solved for is answered or refused, whatever the factor holds. -/
theorem Prepared.solve_total (h : Prepared method p a sigma lower track old new st)
    (hsteps : steps.Fits a.nrows) (hf : Fits st.symbolic numeric.toFactorization) (mode : Mode α)
    (b : Array α) :
    ∃ result, (solve { st.solver p a sigma steps false numeric with mode } b).run =
      some result := by
  have hmode : ∃ polish, solve { st.solver p a sigma steps false numeric with mode } b =
      (st.solver p a sigma steps polish numeric).solve b := by
    cases mode with
    | updatable matrix maps => exact ⟨false, rfl⟩
    | polishing => exact ⟨true, rfl⟩
  obtain ⟨polish, hsolve⟩ := hmode
  rw [hsolve]
  by_cases hb : b.size = p.ncols + a.nrows
  · obtain ⟨xs, hrun, -⟩ := h.solve_spec polish hf hsteps (hb ▸ Access.Tabulates.self b 0)
    exact ⟨_, hrun⟩
  · exact ⟨_, solve_of_size_ne hb⟩

/-- Any values on the pattern of the matrix can be factored. -/
theorem Prepared.withMatrix_total (h : Prepared method p a sigma lower track old new st)
    (htotal : st.symbolic.total ≤ maxSize) (hf : Ready st.symbolic numeric) {matrix : Csc α}
    (hpattern : SamePattern matrix st.matrix) (maps : SlotMaps) :
    ∃ g outcome, withMatrix { st.solver p a sigma steps false numeric with mode } matrix maps =
        some ({ st.solver p a sigma steps false g with mode := .updatable matrix maps }, outcome) ∧
      Ready st.symbolic g ∧ FailsWith FactorFailure outcome := by
  obtain ⟨hr, hu, hanalyzed⟩ := analyzed_of_samePattern (h.analyze_eq_ok.mpr htotal) hpattern
  obtain ⟨g, hrun, hg, -⟩ := refactor_spec hr hu hanalyzed hf
  refine ⟨g, _, congrArg (Option.map _) hrun, hg, ?_⟩
  cases (eliminate matrix st.symbolic.parent).2 with
  | some column =>
      intro e he
      exact Except.error.inj he ▸ .zeroPivot column
  | none => exact failsWith_checkConvexity (FactorFailure.nonConvex _ _)

theorem Prepared.withMatrix_operable (h : Prepared method p a sigma lower track old new st)
    (htotal : st.symbolic.total ≤ maxSize) (hsteps : steps.Fits a.nrows)
    (hf : Ready st.symbolic numeric) {matrix : Csc α} {maps : SlotMaps}
    (hmode : (Mode.updatable matrix maps).Follows st.matrix) :
    ∃ s' outcome, withMatrix { st.solver p a sigma steps false numeric with mode } matrix maps =
      some (s', outcome) ∧ Operable method p a s' := by
  obtain ⟨g, outcome, hrun, hg, -⟩ := h.withMatrix_total htotal hf hmode.1 maps
  exact ⟨_, outcome, hrun, sigma, lower, track, old, new, st, steps, g, .updatable matrix maps, h,
    htotal, hsteps, hg, hmode, rfl⟩

end Prepared

section Setup

variable {method : Elimination.Method} {p a : Csc α} {sigma : α} {lower : PerConstraint α}
  {track : Bool} {given : Option (Array α)} {settings : Settings α} {polish : Bool}

end Setup

/-! ## Calls -/

/-- The matrices that come with the call pass the check, whatever their patterns are. -/
def Call.Sound : Call α → Prop
  | .updateMatrices p _ a _ => p.check.run = some (.ok ()) ∧ a.check.run = some (.ok ())
  | _ => True

/-- The solver after a list of calls, however they ended. -/
def performAll (s : Solver α) (calls : List (Call α)) : Option (Solver α) :=
  calls.foldlM (fun s c => (c.perform s).map (·.1)) s

section Calls

variable {method : Elimination.Method} {p a : Csc α} {s : Solver α}

omit [Scalar α] in
theorem attempt_total {β : Type} {result : Checked (Error α) β} {P : β → Prop}
    {Q : Solver α → Prop} {next : β → Outcome α} (hresult : result.InBounds P) (hs : Q s)
    (hnext : ∀ x, P x → ∃ s' outcome, next x = some (s', outcome) ∧ Q s') :
    ∃ s' outcome, s.attempt result next = some (s', outcome) ∧ Q s' := by
  obtain ⟨r, hr, hP⟩ := hresult
  rw [attempt, hr]
  cases r with
  | error e => exact ⟨s, .error e, rfl, hs⟩
  | ok x => exact hnext x (hP x rfl)

theorem inBounds_replaceRho {matrix : Csc α} {maps : SlotMaps}
    (hmaps : maps.Inside matrix.vals.size) (steps : PerConstraint α) :
    (s.replaceRho matrix maps steps).InBounds fun b =>
      steps.Fits s.m ∧ SamePattern b matrix := by
  refine (inBounds_except (P := fun _ => checkSteps steps s.m = .ok ()) fun _ h => h).bind
    fun _ hcheck => ?_
  refine ((inBounds_updateRho hmaps.rho).adapt Error.kkt).mono fun b hb => ?_
  exact ⟨(checkSteps_eq_ok.mp hcheck).1, hb⟩

theorem inBounds_replaceMatrices {matrix p' a' : Csc α} {maps : SlotMaps}
    {pChanged aChanged : Option (List Nat)} (hmaps : maps.Inside matrix.vals.size)
    (hp : p'.Framed) (ha : a'.Framed) :
    (s.replaceMatrices matrix maps p' a' pChanged aChanged).InBounds fun b =>
      SamePattern b matrix := by
  refine (inBounds_except (P := fun _ => True) fun _ _ => trivial).bind fun _ _ => ?_
  refine ((inBounds_updateP hmaps.p hp).adapt Error.kkt).bind fun b hb => ?_
  have hmap : ∀ q ∈ maps.a.toList, q < b.vals.size := by
    rw [hb.size_vals]
    exact hmaps.a
  exact ((inBounds_updateA hmap ha).adapt Error.kkt).mono fun b' hb' => hb'.trans hb

/-- Each call is in bounds, and leaves a solver for the next. -/
theorem Operable.perform (h : Operable method p a s) {c : Call α} (hc : c.Sound) :
    ∃ s' outcome, c.perform s = some (s', outcome) ∧ Operable method p a s' := by
  cases c with
  | updateSettings settings => exact ⟨s, _, rfl, h⟩
  | warmStart x => exact ⟨s, _, rfl, h⟩
  | solve b =>
      have hs := h
      obtain ⟨sigma, lower, track, old, new, st, steps, numeric, mode, hst, -, hsteps, hf, -,
        rfl⟩ := h
      obtain ⟨result, hrun⟩ := hst.solve_total hsteps hf.fits mode b
      exact ⟨_, result.map fun _ => (), by rw [Call.perform, hrun]; rfl, hs⟩
  | updateRho steps' =>
      have hs := h
      obtain ⟨sigma, lower, track, old, new, st, steps, numeric, mode, hst, htotal, -, hf, hmode,
        rfl⟩ := h
      cases mode with
      | polishing => exact ⟨_, _, rfl, hs⟩
      | updatable matrix maps =>
          -- If the factorization stops, the new values stay, and with them the old pattern.
          have hinside : maps.Inside matrix.vals.size := hmode.1.size_vals ▸ hmode.2
          refine attempt_total (inBounds_replaceRho hinside steps') hs fun b hb => ?_
          exact hst.withMatrix_operable htotal hb.1 hf ⟨hb.2.trans hmode.1, hmode.2⟩
  | updateMatrices p' pChanged a' aChanged =>
      have hs := h
      obtain ⟨sigma, lower, track, old, new, st, steps, numeric, mode, hst, htotal, hsteps, hf,
        hmode, rfl⟩ := h
      cases mode with
      | polishing => exact ⟨_, _, rfl, hs⟩
      | updatable matrix maps =>
          have hinside : maps.Inside matrix.vals.size := hmode.1.size_vals ▸ hmode.2
          refine attempt_total (inBounds_replaceMatrices hinside (check_eq_ok.mp hc.1).toFramed
            (check_eq_ok.mp hc.2).toFramed) hs fun b hb => ?_
          exact hst.withMatrix_operable htotal hsteps hf ⟨hb.trans hmode.1, hmode.2⟩

theorem Operable.performAll (h : Operable method p a s) {calls : List (Call α)}
    (hcalls : ∀ c ∈ calls, c.Sound) :
    ∃ s', s.performAll calls = some s' ∧ Operable method p a s' := by
  induction calls generalizing s with
  | nil => exact ⟨s, rfl, h⟩
  | cons c calls ih =>
      rw [List.forall_mem_cons] at hcalls
      obtain ⟨s₁, outcome, hrun, hs₁⟩ := h.perform hcalls.1
      obtain ⟨s', hrest, hs'⟩ := ih hs₁ hcalls.2
      refine ⟨s', ?_, hs'⟩
      rw [Solver.performAll, List.foldlM_cons, hrun]
      exact hrest

end Calls

/-! ## From raw arrays to the last call -/

end Saddle.Solver
