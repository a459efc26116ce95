import Saddle.Proofs.Kkt.Write
import Saddle.Proofs.Solver.Bounds

/-!
# A refused call changes nothing

An update checks, writes the values of one block, checks and writes those of another,
takes over the inverse step sizes and factors. Were one of the later stages to refuse,
it would leave behind what the stages before it have written. So here the stages are put
together in place, on the solver, where nothing is taken back.

No stage after the first write refuses. The checks of the writing stages are among those
made at the start, or cannot fail because a solver has one slot for each constraint; and
the factorization finds the pattern that was analyzed and the room that was counted, so
that nothing is left that it might object to but the values themselves. When it does, all
values have been stored: the slots of the blocks are apart, so that none of them has been
written over by a later stage.

All this holds of any solver that has been set up, after any calls that came back.
-/

namespace Saddle.Solver

open Csc Kkt Factor

variable {α : Type} [Scalar α]

/-! ## Updates in place -/

/-- A change of the matrix that is kept. -/
def onMatrix (x : InPlace Kkt.Error (Csc α)) : InPlace (Error α) (Solver α) := fun s =>
  match s.mode with
  | .polishing => none
  | .updatable matrix maps => (x matrix).map fun (matrix, outcome) =>
      ({ s with mode := .updatable matrix maps }, outcome.mapError Error.kkt)

/-- The factorization of the matrix that is kept. -/
def refactorKept : InPlace (Error α) (Solver α) := fun s =>
  match s.mode with
  | .polishing => none
  | .updatable matrix maps => s.withMatrix matrix maps

/-- The update of the values of `P` and `A` in place. -/
def storeMatrices (p : Csc α) (pChanged : Option (List Nat)) (a : Csc α)
    (aChanged : Option (List Nat)) : InPlace (Error α) (Solver α) := fun s =>
  match s.mode with
  | .polishing => some (s, .error (.unavailable .matrices))
  | .updatable _ maps =>
      ((InPlace.check (s.checkMatrices maps p a pChanged aChanged)).andThen
        ((onMatrix ((Change.quadratic p pChanged).store s.sigma maps)).andThen
          ((onMatrix ((Change.constraints a aChanged).store s.sigma maps)).andThen
            refactorKept))) s

/-- The update of the step sizes in place. -/
def storeRho (steps : PerConstraint α) : InPlace (Error α) (Solver α) := fun s =>
  match s.mode with
  | .polishing => some (s, .error (.unavailable .rho))
  | .updatable _ maps =>
      ((InPlace.check (checkSteps steps s.m)).andThen
        ((onMatrix ((Change.diagonal steps.inverse).store s.sigma maps)).andThen
          ((InPlace.change fun s => some { s with stepInverse := steps.inverse }).andThen
            refactorKept))) s

/-- Solving in place: the right-hand side becomes the answer. -/
def solveInPlace : InPlace (Error α) (Solver α × Array α) := fun t =>
  ((InPlace.check (checkLength .rightHandSide t.2.size (t.1.n + t.1.m))).andThen
    (InPlace.change fun t => (t.1.answer t.2).map (t.1, ·))) t

/-- The matrix has received exactly the given changes. -/
def Received (sigma : α) (maps : SlotMaps) (matrix : Csc α) (changes : List (Change α))
    (matrix' : Csc α) : Prop :=
  ∃ writes, changes.mapM (Change.writes? sigma maps) = some writes ∧
    Stored matrix writes.flatten matrix'

/-- An update has been refused and has changed nothing, or it has stored all of its changes and
at most failed to factor the matrix. -/
inductive Settled (s : Solver α) (changes : List (Change α)) (stepInverse : PerConstraint α)
    (s' : Solver α) (outcome : Except (Error α) Unit) : Prop where
  | refused {e : Error α} : s' = s → outcome = .error e → ¬ FactorFailure e →
      Settled s changes stepInverse s' outcome
  | stored {matrix matrix' : Csc α} {maps : SlotMaps} {numeric : Numeric α} :
      s.mode = .updatable matrix maps → Received s.sigma maps matrix changes matrix' →
      s' = { s with stepInverse, numeric, mode := .updatable matrix' maps } →
      FailsWith FactorFailure outcome → Settled s changes stepInverse s' outcome

/-! ## What every solver retains -/

/-- The solver can be operated, and the slots of its maps are apart. -/
structure Retains (method : Elimination.Method) (p a : Csc α) (s : Solver α) : Prop where
  operable : Operable method p a s
  apart : ∀ maps, s.maps? = some maps → maps.Apart
  size_rho : ∀ maps, s.maps? = some maps → maps.rho.size = a.nrows

section Retains

variable {method : Elimination.Method} {p a : Csc α} {s s' : Solver α} {matrix matrix' : Csc α}
  {maps : SlotMaps} {outcome : Except (Error α) Unit} {c : Call α}

theorem Operable.m_eq (h : Operable method p a s) : s.m = a.nrows := by
  obtain ⟨_, _, _, _, _, _, _, _, _, -, -, -, -, -, rfl⟩ := h
  rfl

theorem Operable.inside (h : Operable method p a s) (hmode : s.mode = .updatable matrix maps) :
    maps.Inside matrix.vals.size := by
  obtain ⟨_, _, _, _, _, _, _, _, _, -, -, -, -, hfollows, rfl⟩ := h
  obtain rfl := hmode
  exact hfollows.1.size_vals ▸ hfollows.2

/-- Other values on the pattern are factored, and what comes out can be operated. -/
theorem Operable.withMatrix (h : Operable method p a s) (hmode : s.mode = .updatable matrix maps)
    (hpattern : SamePattern matrix' matrix) :
    ∃ numeric outcome, s.withMatrix matrix' maps =
        some ({ s with numeric, mode := .updatable matrix' maps }, outcome) ∧
      FailsWith FactorFailure outcome ∧
      Operable method p a { s with numeric, mode := .updatable matrix' maps } := by
  obtain ⟨sigma, lower, track, old, new, st, steps, numeric, mode, hst, htotal, hsteps, hf,
    hfollows, rfl⟩ := h
  obtain rfl := hmode
  have hfollows' : (Mode.updatable matrix' maps).Follows st.matrix :=
    ⟨hpattern.trans hfollows.1, hfollows.2⟩
  obtain ⟨g, outcome, hrun, hg, hfails⟩ := hst.withMatrix_total htotal hf hfollows'.1 maps
  exact ⟨g, outcome, hrun, hfails, sigma, lower, track, old, new, st, steps, g, _, hst, htotal,
    hsteps, hg, hfollows', rfl⟩

theorem Operable.withSteps (h : Operable method p a s) {steps : PerConstraint α}
    (hsteps : steps.Fits s.m) : Operable method p a { s with stepInverse := steps.inverse } := by
  have hm := h.m_eq
  obtain ⟨sigma, lower, track, old, new, st, steps', numeric, mode, hst, htotal, -, hf, hfollows,
    rfl⟩ := h
  exact ⟨sigma, lower, track, old, new, st, steps, numeric, mode, hst, htotal, hm ▸ hsteps, hf,
    hfollows, rfl⟩

omit [Scalar α] in
theorem attempt_eq_some {β : Type} {result : Checked (Error α) β} {next : β → Outcome α}
    (h : s.attempt result next = some (s', outcome)) :
    s' = s ∨ ∃ x, result.run = some (.ok x) ∧ next x = some (s', outcome) := by
  rw [attempt] at h
  split at h
  · cases h
  · exact Or.inl (Prod.mk.inj (Option.some.inj h)).1.symm
  · next x hx => exact Or.inr ⟨x, hx, h⟩

theorem samePattern_of_replaceMatrices {p' a' : Csc α} {pChanged aChanged : Option (List Nat)}
    (h : (s.replaceMatrices matrix maps p' a' pChanged aChanged).run = some (.ok matrix')) :
    SamePattern matrix' matrix := by
  rw [replaceMatrices, Checked.run_bind_eq_ok] at h
  obtain ⟨_, -, h⟩ := h
  rw [Checked.run_bind_eq_ok] at h
  obtain ⟨matrix₁, hp, ha⟩ := h
  rw [Checked.run_adapt_eq_ok] at hp ha
  have hp' := Change.samePattern_of_update s.sigma (.quadratic p' pChanged) hp
  have ha' := Change.samePattern_of_update s.sigma (.constraints a' aChanged) ha
  exact ha'.trans hp'

theorem fits_of_replaceRho {steps : PerConstraint α}
    (h : (s.replaceRho matrix maps steps).run = some (.ok matrix')) :
    steps.Fits s.m ∧ SamePattern matrix' matrix := by
  rw [replaceRho, Checked.run_bind_eq_ok] at h
  obtain ⟨_, hcheck, h⟩ := h
  rw [Checked.run_adapt_eq_ok] at h
  refine ⟨(checkSteps_eq_ok.mp (by simpa using hcheck)).1, ?_⟩
  exact Change.samePattern_of_update s.sigma (.diagonal steps.inverse) h

/-- A call that comes back leaves a solver of the same kind, whatever it was handed. -/
theorem Retains.perform (h : Retains method p a s) (hrun : c.perform s = some (s', outcome)) :
    Retains method p a s' := by
  have hwith : ∀ {t : Solver α} {matrix matrix' maps}, Operable method p a t →
      t.mode = .updatable matrix maps → s.maps? = some maps → SamePattern matrix' matrix →
        t.withMatrix matrix' maps = some (s', outcome) → Retains method p a s' := by
    intro t matrix matrix' maps ht hmode hmaps hpattern hnext
    obtain ⟨numeric, outcome', hrun', -, hoperable⟩ := ht.withMatrix hmode hpattern
    obtain ⟨rfl, -⟩ := Prod.mk.inj (Option.some.inj (hrun'.symm.trans hnext))
    refine ⟨hoperable, fun maps' hmaps' => ?_, fun maps' hmaps' => ?_⟩
    · exact Option.some.inj hmaps' ▸ h.apart maps hmaps
    · exact Option.some.inj hmaps' ▸ h.size_rho maps hmaps
  cases c with
  | solve b =>
      rw [Call.perform, Option.map_eq_some_iff] at hrun
      obtain ⟨_, -, heq⟩ := hrun
      exact (Prod.mk.inj heq).1 ▸ h
  | updateSettings settings => exact (Prod.mk.inj (Option.some.inj hrun)).1 ▸ h
  | warmStart x => exact (Prod.mk.inj (Option.some.inj hrun)).1 ▸ h
  | updateRho steps =>
      rw [Call.perform] at hrun
      cases hmode : s.mode with
      | polishing =>
          rw [updateRho, hmode] at hrun
          exact (Prod.mk.inj (Option.some.inj hrun)).1 ▸ h
      | updatable matrix maps =>
          rw [updateRho_of_updatable hmode] at hrun
          obtain rfl | ⟨matrix', hreplace, hnext⟩ := attempt_eq_some hrun
          · exact h
          obtain ⟨hfits, hpattern⟩ := fits_of_replaceRho hreplace
          exact hwith (h.operable.withSteps hfits) hmode (by rw [maps?, hmode]) hpattern hnext
  | updateMatrices p' pChanged a' aChanged =>
      rw [Call.perform] at hrun
      cases hmode : s.mode with
      | polishing =>
          rw [updateMatrices, hmode] at hrun
          exact (Prod.mk.inj (Option.some.inj hrun)).1 ▸ h
      | updatable matrix maps =>
          rw [updateMatrices_of_updatable hmode] at hrun
          obtain rfl | ⟨matrix', hreplace, hnext⟩ := attempt_eq_some hrun
          · exact h
          exact hwith h.operable hmode (by rw [maps?, hmode])
            (samePattern_of_replaceMatrices hreplace) hnext

theorem Retains.performAll (h : Retains method p a s) {calls : List (Call α)}
    (hrun : s.performAll calls = some s') : Retains method p a s' := by
  induction calls generalizing s with
  | nil =>
      obtain rfl : s = s' := by simpa [Solver.performAll] using hrun
      exact h
  | cons c calls ih =>
      rw [Solver.performAll, List.foldlM_cons, Option.bind_eq_bind, Option.bind_eq_some_iff] at hrun
      obtain ⟨s₁, hstep, hrun⟩ := hrun
      rw [Option.map_eq_some_iff] at hstep
      obtain ⟨⟨s₂, outcome⟩, hperform, rfl⟩ := hstep
      exact ih (h.perform hperform) hrun

theorem retains_of_initWith {given : Option (Array α)} {settings : Settings α} {polish : Bool}
    (h : (initWith method p a given settings polish).run = some (.ok s)) :
    Retains method p a s := by
  obtain ⟨-, hcurrent⟩ := current_of_initWith h
  obtain ⟨old, new, st, numeric, hst, htotal, hsteps, hf, -, rfl, -⟩ := hcurrent
  refine ⟨hst.operable htotal hsteps hf polish, fun maps hmaps => ?_, fun maps hmaps => ?_⟩
  · cases polish with
    | true => cases hmaps
    | false =>
        exact Option.some.inj hmaps ▸
          hst.assembled.apart hst.blocks (labels_of_renumbers hst.renumbers)
  · cases polish with
    | true => cases hmaps
    | false => exact Option.some.inj hmaps ▸ (hst.assembled.size_mapsOf hst.blocks).2.2

end Retains

/-! ## The stages -/

section Stages

variable {method : Elimination.Method} {p a : Csc α} {s : Solver α} {matrix matrix' : Csc α}
  {maps : SlotMaps} {sigma : α} {e : Error α}

omit [Scalar α] in
theorem onMatrix_of_ok {x : InPlace Kkt.Error (Csc α)} (hmode : s.mode = .updatable matrix maps)
    (hx : x matrix = some (matrix', .ok ())) :
    onMatrix x s = some ({ s with mode := .updatable matrix' maps }, .ok ()) := by
  rw [onMatrix, hmode]
  simp only [hx]
  rfl

theorem update_of_store {c : Change α} (h : c.store sigma maps matrix = some (matrix', .ok ())) :
    (c.update sigma maps matrix).run = some (.ok matrix') :=
  InPlace.settle_eq_ok.mp (Change.store_eq_settle.symm.trans h)

omit [Scalar α] in
theorem not_factorFailure_of_refuses {check : Except (Error α) Unit} (h : Refuses check)
    (he : check = .error e) : ¬ FactorFailure e := by
  rintro ⟨⟩
  · exact nomatch h _ he
  · exact nomatch h _ he

omit [Scalar α] in
theorem attempt_of_error {β : Type} {check : Except (Error α) Unit} (he : check = .error e)
    (rest : Checked (Error α) β) (next : β → Outcome α) :
    s.attempt (do check; rest) next = some (s, .error e) := by
  rw [he]
  rfl

/-- In place or apart, new values of `P` and `A` are refused at once or all stored. -/
theorem Retains.storeMatrices (h : Retains method p a s) {p' a' : Csc α} (hp : p'.Framed)
    (ha : a'.Framed) (pChanged aChanged : Option (List Nat)) :
    ∃ s' outcome, storeMatrices p' pChanged a' aChanged s = some (s', outcome) ∧
      s.updateMatrices p' pChanged a' aChanged = some (s', outcome) ∧
      Settled s [.quadratic p' pChanged, .constraints a' aChanged] s.stepInverse s' outcome := by
  cases hmode : s.mode with
  | polishing =>
      refine ⟨s, .error (.unavailable .matrices), by rw [Solver.storeMatrices, hmode],
        by rw [updateMatrices, hmode], .refused rfl rfl ?_⟩
      rintro ⟨⟩
  | updatable matrix maps =>
      rw [updateMatrices_of_updatable hmode, Solver.storeMatrices, hmode]
      dsimp only
      cases hcheck : s.checkMatrices maps p' a' pChanged aChanged with
      | error e =>
          exact ⟨s, .error e, rfl, attempt_of_error hcheck _ _, .refused rfl rfl
            (not_factorFailure_of_refuses (refuses_checkMatrices s maps _ _ _ _) hcheck)⟩
      | ok _ =>
          obtain ⟨-, -, -, hpcheck, hacheck⟩ := checkMatrices_eq_ok.mp hcheck
          have hinside := h.operable.inside hmode
          have hapart := h.apart maps (by rw [maps?, hmode])
          obtain ⟨ws, matrix₁, hws, hstore, hstored⟩ := (Change.store_spec s.sigma
            (c := .quadratic p' pChanged) hp hinside hapart).2 hpcheck
          obtain ⟨ws', matrix₂, hws', hstore', hstored'⟩ := (Change.store_spec s.sigma
            (c := .constraints a' aChanged) ha (hstored.pattern.size_vals ▸ hinside) hapart).2
              hacheck
          obtain ⟨numeric, outcome, hfactor, hfails, -⟩ :=
            h.operable.withMatrix hmode (hstored'.pattern.trans hstored.pattern)
          have hreplace : (s.replaceMatrices matrix maps p' a' pChanged aChanged).run =
              some (.ok matrix₂) := by
            have hupdate : (updateP matrix p' pChanged maps.p s.sigma).run = some (.ok matrix₁) :=
              update_of_store hstore
            rw [replaceMatrices, hcheck, Checked.run_ok_bind,
              Checked.run_bind_ok (Checked.run_adapt_eq_ok.mpr hupdate)]
            exact Checked.run_adapt_eq_ok.mpr (update_of_store hstore')
          have hreceived : Received s.sigma maps matrix
              [.quadratic p' pChanged, .constraints a' aChanged] matrix₂ := by
            refine ⟨[ws, ws'], by simp [hws, hws'], ?_⟩
            rw [List.flatten_cons, List.flatten_cons, List.flatten_nil, List.append_nil]
            -- The values of `A` are not written over those of `P`.
            refine hstored.append hstored' fun w hw w' hw' heq => ?_
            rw [SlotMaps.Apart, List.nodup_append, List.nodup_append] at hapart
            exact absurd heq (hapart.1.2.2 _ (Change.mem_map_of_mem_writes hws hw) _
              (Change.mem_map_of_mem_writes hws' hw'))
          refine ⟨{ s with numeric, mode := .updatable matrix₂ maps }, outcome, ?_, ?_,
            .stored hmode hreceived rfl hfails⟩
          · rw [InPlace.andThen_of_ok rfl, InPlace.andThen_of_ok (onMatrix_of_ok hmode hstore),
              InPlace.andThen_of_ok (onMatrix_of_ok rfl hstore')]
            exact hfactor
          · rw [attempt_of_ok hreplace]
            exact hfactor

/-- So are new step sizes, and with them their inverses. -/
theorem Retains.storeRho (h : Retains method p a s) (steps : PerConstraint α) :
    ∃ s' outcome, storeRho steps s = some (s', outcome) ∧
      s.updateRho steps = some (s', outcome) ∧
      Settled s [.diagonal steps.inverse] steps.inverse s' outcome := by
  cases hmode : s.mode with
  | polishing =>
      refine ⟨s, .error (.unavailable .rho), by rw [Solver.storeRho, hmode],
        by rw [updateRho, hmode], .refused rfl rfl ?_⟩
      rintro ⟨⟩
  | updatable matrix maps =>
      rw [updateRho_of_updatable hmode, Solver.storeRho, hmode]
      dsimp only
      cases hcheck : checkSteps steps s.m with
      | error e =>
          exact ⟨s, .error e, rfl, attempt_of_error hcheck _ _, .refused rfl rfl
            (not_factorFailure_of_refuses (refuses_checkSteps steps s.m) hcheck)⟩
      | ok _ =>
          have hfits := (checkSteps_eq_ok.mp hcheck).1
          have hmaps : s.maps? = some maps := by rw [maps?, hmode]
          have hslots : (Change.diagonal steps.inverse).check maps = .ok () := by
            rw [Change.check, h.size_rho maps hmaps, ← h.operable.m_eq]
            exact Kkt.checkLength_eq_ok.mpr (fits_inverse.mpr hfits)
          obtain ⟨ws, matrix', hws, hstore, hstored⟩ := (Change.store_spec s.sigma
            (c := .diagonal steps.inverse) trivial (h.operable.inside hmode)
              (h.apart maps hmaps)).2 hslots
          obtain ⟨numeric, outcome, hfactor, hfails, -⟩ :=
            (h.operable.withSteps hfits).withMatrix hmode hstored.pattern
          have hreplace : (s.replaceRho matrix maps steps).run = some (.ok matrix') := by
            rw [replaceRho, hcheck, Checked.run_ok_bind]
            exact Checked.run_adapt_eq_ok.mpr (update_of_store hstore)
          have hreceived : Received s.sigma maps matrix [.diagonal steps.inverse] matrix' := by
            refine ⟨[ws], by simp [hws], ?_⟩
            rw [List.flatten_cons, List.flatten_nil, List.append_nil]
            exact hstored
          refine ⟨{ s with stepInverse := steps.inverse, numeric, mode := .updatable matrix' maps },
            outcome, ?_, ?_, .stored hmode hreceived rfl hfails⟩
          · rw [InPlace.andThen_of_ok rfl, InPlace.andThen_of_ok (onMatrix_of_ok hmode hstore),
              InPlace.andThen_of_ok rfl]
            exact hfactor
          · rw [attempt_of_ok hreplace]
            exact hfactor

theorem solveInPlace_of_size_ne {b : Array α} (hb : b.size ≠ s.n + s.m) :
    solveInPlace (s, b) = some ((s, b), .error (.dimension .rightHandSide (s.n + s.m) b.size)) := by
  rw [solveInPlace, checkLength, if_pos hb]
  rfl

/-- In place as apart, a right-hand side becomes its answer. -/
theorem solveInPlace_eq (s : Solver α) (b : Array α) :
    solveInPlace (s, b) = (s.solve b).run.map fun
      | .error e => ((s, b), .error e)
      | .ok x => ((s, x), .ok ()) := by
  rw [solveInPlace, solve]
  dsimp only
  cases checkLength .rightHandSide b.size (s.n + s.m) with
  | error e => rfl
  | ok _ =>
      rw [InPlace.andThen_of_ok rfl, InPlace.change, Checked.run_ok_bind]
      cases s.answer b <;> rfl

/-- Carried out in place, the updates do what they do apart. On any solver that has been set up,
after any calls that came back, an update with matrices whose pointers are in order is either
refused, and then nothing of the solver has changed, or it has stored all its values and at most
failed to factor them; and a right-hand side of the wrong length is left as it is, and so is the
solver. -/
theorem calls_atomic {given : Option (Array α)} {settings : Settings α} {polish : Bool}
    {s₀ : Solver α} (hinit : (initWith method p a given settings polish).run = some (.ok s₀))
    {calls : List (Call α)} (hcalls : s₀.performAll calls = some s) :
    (∀ (p' a' : Csc α) (pChanged aChanged : Option (List Nat)), p'.Framed → a'.Framed →
      ∃ s' outcome, storeMatrices p' pChanged a' aChanged s = some (s', outcome) ∧
        s.updateMatrices p' pChanged a' aChanged = some (s', outcome) ∧
        Settled s [.quadratic p' pChanged, .constraints a' aChanged] s.stepInverse s' outcome) ∧
    (∀ steps : PerConstraint α,
      ∃ s' outcome, storeRho steps s = some (s', outcome) ∧
        s.updateRho steps = some (s', outcome) ∧
        Settled s [.diagonal steps.inverse] steps.inverse s' outcome) ∧
    ∀ b : Array α,
      (solveInPlace (s, b) = (s.solve b).run.map fun
        | .error e => ((s, b), .error e)
        | .ok x => ((s, x), .ok ())) ∧
      (b.size ≠ s.n + s.m → solveInPlace (s, b) =
        some ((s, b), .error (.dimension .rightHandSide (s.n + s.m) b.size))) := by
  have h := (retains_of_initWith hinit).performAll hcalls
  exact ⟨fun p' a' pChanged aChanged hp ha => h.storeMatrices hp ha pChanged aChanged, h.storeRho,
    fun b => ⟨solveInPlace_eq s b, solveInPlace_of_size_ne⟩⟩

/-- A form that vanishes in one direction once it is regularized. -/
def slump : Csc ℚ := ⟨2, 2, #[0, 1, 3], #[0, 0, 1], #[-1, 0, 3]⟩

/-- A constraint that has become void. -/
def loose : Csc ℚ := ⟨1, 2, #[0, 1, 2], #[0, 0], #[0, 0]⟩

/-- Calls of which the second stops at a zero pivot. -/
def slumping : List (Call ℚ) := [.updateRho (.uniform 4), .updateMatrices slump none loose none]

/-- The solver before them. -/
def upright : Solver ℚ where
  n := 2
  m := 1
  sigma := 1
  stepInverse := .each #[1 / 2]
  oldOf := #[2, 0, 1]
  symbolic := ⟨3, #[some 1, some 2, none], #[2, 1, 0], 3⟩
  numeric := {
    l := ⟨3, 3, #[0, 2, 3, 3], #[1, 2, 2], #[-2, -8, 9 / 5]⟩
    d := #[-1 / 2, 5, 99 / 5]
    dInv := #[-2, 1 / 5, 5 / 99]
    positive := 2
    work := ⟨#[false, false, false], #[1, 0, 0], #[0, 1, 0], #[2, 3, 3], #[0, 0, 0]⟩ }
  mode := .updatable ⟨3, 3, #[0, 1, 3, 6], #[0, 0, 1, 0, 1, 2], #[-1 / 2, 1, 3, 4, 1, 4]⟩
    ⟨#[2, 4, 5], #[1, 3], #[0]⟩

/-- The solver that they leave. -/
def slumped : Solver ℚ where
  __ := upright
  stepInverse := .uniform (1 / 4)
  numeric := {
    l := ⟨3, 3, #[0, 2, 3, 3], #[1, 2, 2], #[0, -16, 17 / 7]⟩
    d := #[-1 / 4, 0, 187 / 7]
    dInv := #[-4, 1 / 7, 7 / 187]
    positive := 0
    work := ⟨#[false, false, false], #[0, 0, 0], #[0, 1, 0], #[1, 2, 3], #[0, 0, 0]⟩ }
  mode := .updatable ⟨3, 3, #[0, 1, 3, 6], #[0, 0, 1, 0, 1, 2], #[-1 / 4, 0, 0, 0, 0, 4]⟩
    ⟨#[2, 4, 5], #[1, 3], #[0]⟩

/-- The solver after another update that stops there. -/
def slumpedAgain : Solver ℚ where
  __ := slumped
  stepInverse := .each #[1 / 2]
  numeric := { slumped.numeric with d := #[-1 / 2, 0, 187 / 7], dInv := #[-2, 1 / 7, 7 / 187] }
  mode := .updatable ⟨3, 3, #[0, 1, 3, 6], #[0, 0, 1, 0, 1, 2], #[-1 / 2, 0, 0, 0, 0, 4]⟩
    ⟨#[2, 4, 5], #[1, 3], #[0]⟩

theorem calls_atomic_slumped :
    (initWith (fixedOrder #[2, 0, 1]) bowl plane (some #[2]) ⟨1, 5, .natural, 10⟩ false).run =
        some (.ok upright) ∧
      upright.performAll slumping = some slumped ∧
      storeMatrices bowl none plane (some [0, 7]) slumped =
        some (slumped, .error (.kkt (.changedIndex .a 7 2))) ∧
      storeRho (.each #[0]) slumped = some (slumped, .error (.settings (.rho 0))) ∧
      storeRho (.each #[2]) slumped = some (slumpedAgain, .error (.factor (.zeroPivot 1))) ∧
      solveInPlace (slumped, #[1]) =
        some ((slumped, #[1]), .error (.dimension .rightHandSide 3 1)) := by
  have hinit : (initWith (fixedOrder #[2, 0, 1]) bowl plane (some #[2]) ⟨1, 5, .natural, 10⟩
      false).run = some (.ok upright) := by
    simp only [initWith, assemble, Triplets.build, System.reorder, permuteSymmetric, moveEntries,
      Cell.sortNumbered_eq_insertionSort, sortColumn_eq_insertionSort]
    decide +kernel
  have hcalls : upright.performAll slumping = some slumped := by
    decide +kernel
  obtain ⟨hmatrices, hrho, hsolve⟩ := calls_atomic hinit hcalls
  have hbowl : bowl.Framed := (check_eq_ok.mp (by decide)).toFramed
  have hplane : plane.Framed := (check_eq_ok.mp (by decide)).toFramed
  refine ⟨hinit, hcalls, ?_, ?_, ?_, (hsolve #[1]).2 (by decide)⟩
  · obtain ⟨s', outcome, hstore, hupdate, -⟩ :=
      hmatrices bowl plane none (some [0, 7]) hbowl hplane
    exact hstore.trans (hupdate.symm.trans (by decide +kernel))
  · obtain ⟨s', outcome, hstore, hupdate, -⟩ := hrho (.each #[0])
    exact hstore.trans (hupdate.symm.trans (by decide +kernel))
  · obtain ⟨s', outcome, hstore, hupdate, -⟩ := hrho (.each #[2])
    exact hstore.trans (hupdate.symm.trans (by decide +kernel))

end Stages

end Saddle.Solver
