import Saddle.Proofs.Kkt.Update
import Saddle.Proofs.Solver.Solve
import Saddle.Solver.Update

/-!
# An update is a setup with the values it leaves

A solver is current for a problem if it is the one that a setup of the problem would
have prepared, with any factor that fits as long as the elimination of the matrix
does not run through, and with its factor if it does. Nothing else of a factor is
ever read again: the next refactoring overwrites all of it, and a factor that has
been completed is determined by the matrix. So an update that is accepted makes the
solver current for the new values, however the one before it ended, and reports what
a setup would report. A refused one leaves the solver as it is. Only the arrays that the
eliminations have worked in may hold something else than they would after a setup.
-/

namespace Saddle.Solver

open Csc Kkt Factor

variable {α : Type} [Scalar α]

/-- What a solver is set up for. -/
structure Problem (α : Type) where
  /-- The upper triangle of the quadratic form. -/
  p : Csc α
  /-- The constraints. -/
  a : Csc α
  /-- The step sizes. -/
  steps : PerConstraint α

/-- The solver is the one prepared for the problem, up to a factor of no use and to the arrays it
was computed in, and the verdict on the problem is the given one. -/
def Current (method : Elimination.Method) (sigma : α) (polish : Bool) (q : Problem α)
    (s : Solver α) (last : Except (Error α) Unit) : Prop :=
  ∃ old new st numeric,
    Prepared method q.p q.a sigma (lowerOf sigma q.steps polish) (!polish) old new st ∧
      st.symbolic.total ≤ maxSize ∧ q.steps.Fits q.a.nrows ∧ Ready st.symbolic numeric ∧
        ((eliminate st.matrix st.symbolic.parent).2 = none →
          Complete st.matrix st.symbolic (eliminate st.matrix st.symbolic.parent).1
            numeric.toFactorization) ∧
          s = st.solver q.p q.a sigma q.steps polish numeric ∧ last = st.verdict q.p.ncols

/-! ## Other values on the same patterns -/

section Prepared

variable {method : Elimination.Method} {p a p' a' : Csc α} {sigma : α}
  {lower lower' : PerConstraint α} {track : Bool} {old new : Nat → Nat} {st : Stages α}
  {numeric : Numeric α}

/-- The order, the analysis and the slots do not depend on values. -/
theorem Prepared.update (h : Prepared method p a sigma lower track old new st)
    (htotal : st.symbolic.total ≤ maxSize) (hp : SamePattern p' p) (ha : SamePattern a' a)
    (hlower : lower'.Fits a.nrows) :
    ∃ st', Prepared method p' a' sigma lower' track old new st' ∧
      st'.renumbering = st.renumbering ∧ st'.symbolic = st.symbolic ∧ st'.slots = st.slots := by
  have hb := h.blocks
  have hb' : Blocks p' a' lower' :=
    ⟨hp.valid hb.pValid, hp.upper hb.pUpper, ha.valid hb.aValid,
      by rw [ha.ncols_eq, hp.ncols_eq, hb.columns], by rw [ha.nrows_eq]; exact hlower⟩
  have hsize : p'.ncols + a'.nrows = p.ncols + a.nrows := by rw [hp.ncols_eq, ha.nrows_eq]
  obtain ⟨cells, slots, hrun, hbuilt⟩ := assemble_spec hb sigma track
  obtain ⟨cells', slots', hrun', hbuilt'⟩ := assemble_spec hb' sigma track
  -- The assembled matrices have one pattern, and the method sees nothing else.
  obtain ⟨hcells, -⟩ := hbuilt'.congr hbuilt (places_entryList hp ha)
  have hpattern := samePattern_ofCells (p.ncols + a.nrows) (p.ncols + a.nrows) hcells
  obtain ⟨system, hsystem, hr⟩ := h.renumbering_eq
  rw [hrun, Option.some.injEq, Except.ok.injEq] at hsystem
  subst hsystem
  rw [← Elimination.renumbering_congr method hpattern.ncols_eq hpattern.colPtr_eq
    hpattern.rowIdx_eq, ← hsize] at hr
  have hnew := h.renumbers
  rw [← hsize] at hnew
  obtain ⟨matrix, slots'', hreorder, hassembled⟩ := reorder_spec hb' hbuilt' hr hnew
  obtain ⟨hmatrix, hslots⟩ := h.assembled.samePattern hassembled hp ha
  obtain ⟨-, -, hanalyzed⟩ := analyzed_of_samePattern (h.analyze_eq_ok.mpr htotal) hmatrix
  refine ⟨⟨matrix, slots'', st.renumbering, st.symbolic⟩,
    ⟨hb', hnew, hassembled, ⟨_, hrun', hreorder⟩, hanalyzed, ?_⟩, rfl, rfl, hslots⟩
  rw [analyze_congr hmatrix h.valid.readable]
  exact h.analysis

/-- Factoring again comes to the verdict on the matrix. -/
theorem Prepared.withMatrix_spec (h : Prepared method p a sigma lower track old new st)
    (steps : PerConstraint α) (hf : Ready st.symbolic numeric) (mode : Mode α) :
    ∃ g, ({ st.solver p a sigma steps false numeric with mode } : Solver α).withMatrix st.matrix
        (mapsOf p a st.slots) =
          some (st.solver p a sigma steps false g, st.verdict p.ncols) ∧
      Ready st.symbolic g ∧
      ((eliminate st.matrix st.symbolic.parent).2 = none →
        Complete st.matrix st.symbolic (eliminate st.matrix st.symbolic.parent).1
          g.toFactorization) := by
  obtain ⟨g, hrun, hready, hcomplete⟩ := refactor_spec h.valid.readable h.upper h.analyzed hf
  refine ⟨g, ?_, hready, hcomplete⟩
  have hrun' : refactor st.matrix ({ st.solver p a sigma steps false numeric with mode } :
      Solver α).symbolic ({ st.solver p a sigma steps false numeric with mode } :
        Solver α).numeric = _ := hrun
  rw [withMatrix, hrun', Stages.verdict]
  cases hstop : (eliminate st.matrix st.symbolic.parent).2 with
  | some column => rfl
  | none =>
      rw [← (hcomplete hstop).positive]
      rfl

end Prepared

/-! ## The updates -/

omit [Scalar α] in
theorem checkMatrices_eq_ok {s : Solver α} {maps : SlotMaps} {p a : Csc α}
    {pChanged aChanged : Option (List Nat)} :
    s.checkMatrices maps p a pChanged aChanged = .ok () ↔
      p.ncols = s.n ∧ a.ncols = s.n ∧ a.nrows = s.m ∧
        checkUpdate .p pChanged maps.p p.nnz = .ok () ∧
          checkUpdate .a aChanged maps.a a.nnz = .ok () := by
  rw [checkMatrices, check_bind_eq_ok, check_bind_eq_ok, check_bind_eq_ok, check_bind_eq_ok,
    checkLength_eq_ok, checkLength_eq_ok, checkLength_eq_ok, mapError_eq_ok, mapError_eq_ok]

section Attempt

variable {β : Type} {s : Solver α} {matrix : Csc α} {maps : SlotMaps}

omit [Scalar α] in
theorem attempt_of_ok {result : Checked (Error α) β} {x : β} (h : result.run = some (.ok x))
    (next : β → Outcome α) : s.attempt result next = next x := by
  rw [attempt, h]

theorem updateRho_of_updatable (h : s.mode = .updatable matrix maps) (steps : PerConstraint α) :
    s.updateRho steps = s.attempt (s.replaceRho matrix maps steps) fun matrix =>
      { s with stepInverse := steps.inverse }.withMatrix matrix maps := by
  rw [updateRho, h]

theorem updateMatrices_of_updatable (h : s.mode = .updatable matrix maps) (p a : Csc α)
    (pChanged aChanged : Option (List Nat)) :
    s.updateMatrices p pChanged a aChanged =
      s.attempt (s.replaceMatrices matrix maps p a pChanged aChanged) fun matrix =>
        s.withMatrix matrix maps := by
  rw [updateMatrices, h]

end Attempt

/-! ## Refusals -/

/-- Whether a call that sets values ended after it had set them. -/
def accepted (outcome : Except (Error α) Unit) : Bool := statusOf outcome != .initError

omit [Scalar α] in
theorem accepted_verdict (stopped : Option Nat) (positive n : Nat) :
    accepted (verdict stopped positive n : Except (Error α) Unit) = true := by
  cases stopped with
  | some column => rfl
  | none =>
      rw [verdict, checkConvexity]
      split <;> rfl

/-- What fails of a check is not accepted. -/
def Refuses (check : Except (Error α) Unit) : Prop :=
  ∀ e, check = .error e → accepted (.error e) = false

theorem refuses_checkSteps (steps : PerConstraint α) (m : Nat) : Refuses (checkSteps steps m) :=
  failsWith_checkSteps (fun _ => rfl) fun _ => rfl

omit [Scalar α] in
theorem refuses_checkMatrices (s : Solver α) (maps : SlotMaps) (p a : Csc α)
    (pChanged aChanged : Option (List Nat)) :
    Refuses (s.checkMatrices maps p a pChanged aChanged) := by
  have hlength : ∀ operand actual expected,
      Refuses (checkLength operand actual expected : Except (Error α) Unit) :=
    fun _ _ _ => failsWith_checkLength rfl
  have hkkt : ∀ x : Except Kkt.Error Unit, Refuses (x.mapError (@Error.kkt α)) :=
    failsWith_mapError fun _ => rfl
  exact failsWith_bind (hlength _ _ _) fun _ => failsWith_bind (hlength _ _ _) fun _ =>
    failsWith_bind (hlength _ _ _) fun _ => failsWith_bind (hkkt _) fun _ => hkkt _

omit [Scalar α] in
/-- A check that fails leaves the solver as it is. -/
theorem attempt_of_refuses {β : Type} {s : Solver α} {check : Except (Error α) Unit}
    {rest : Checked (Error α) β} (h : Refuses check) (hne : check ≠ .ok ()) (next : β → Outcome α) :
    ∃ outcome, s.attempt (do check; rest) next = some (s, outcome) ∧ accepted outcome = false := by
  cases check with
  | ok y => exact absurd rfl hne
  | error e => exact ⟨.error e, rfl, h e rfl⟩

/-! ## Setting up and updating -/

section Current

variable {method : Elimination.Method} {sigma : α} {polish : Bool} {q : Problem α} {s : Solver α}
  {last : Except (Error α) Unit} {settings : Settings α} {given : Option (Array α)}

/-- A setup that succeeds leaves a solver that is current. -/
theorem current_of_initWith {p a : Csc α}
    (h : (initWith method p a given settings polish).run = some (.ok s)) :
    chooseSteps settings given a.nrows = .ok (givenSteps settings given) ∧
      Current method settings.sigma polish ⟨p, a, givenSteps settings given⟩ s (.ok ()) := by
  obtain ⟨chosen, old, new, st, hsteps, hst, htotal⟩ := prepared_of_initWith h
  obtain ⟨-, rfl, -⟩ := chooseSteps_eq_ok.mp hsteps
  refine ⟨hsteps, ?_⟩
  obtain ⟨numeric, -, hrun, hready, hcomplete⟩ := initWith_eq hsteps hst htotal
  rw [h, Option.some.injEq] at hrun
  cases hverdict : st.verdict p.ncols with
  | error e =>
      rw [hverdict] at hrun
      cases hrun
  | ok u =>
      rw [hverdict] at hrun
      obtain rfl := Except.ok.inj hrun
      exact ⟨old, new, st, numeric, hst, htotal, fits_of_chooseSteps hsteps, hready, hcomplete,
        rfl, hverdict.symm⟩

/-- A setup of the problem comes to the verdict, and to the solver if there is one. -/
theorem Current.initWith_eq (h : Current method settings.sigma polish q s last)
    (hsteps : chooseSteps settings given q.a.nrows = .ok q.steps) :
    ∃ work, (initWith method q.p q.a given settings polish).run =
      some (last.map fun _ => { s with numeric := { s.numeric with work } }) := by
  obtain ⟨old, new, st, numeric, hst, htotal, -, -, hcomplete, rfl, rfl⟩ := h
  obtain ⟨numeric', -, hrun, -, hcomplete'⟩ := Solver.initWith_eq hsteps hst htotal
  refine ⟨numeric'.work, ?_⟩
  rw [hrun]
  cases hstop : (eliminate st.matrix st.symbolic.parent).2 with
  | some column =>
      rw [Stages.verdict, hstop]
      rfl
  | none =>
      -- A factor that has been completed is the same in any arrays.
      have hsame := (hcomplete hstop).unique hst.analyzed (hcomplete' hstop)
      have hnumeric : numeric' = { numeric with work := numeric'.work } := by rw [hsame]
      conv_lhs => rw [hnumeric]
      rfl

theorem Current.blocks (h : Current method sigma polish q s last) :
    Blocks q.p q.a (lowerOf sigma q.steps polish) := by
  obtain ⟨_, _, _, _, hst, -⟩ := h
  exact hst.blocks

theorem Current.stepsFit (h : Current method sigma polish q s last) : q.steps.Fits q.a.nrows := by
  obtain ⟨_, _, _, _, -, -, hsteps, -⟩ := h
  exact hsteps

theorem Current.accepted_last (h : Current method sigma polish q s last) :
    accepted last = true := by
  obtain ⟨_, _, _, _, -, -, -, -, -, -, rfl⟩ := h
  exact accepted_verdict _ _ _

/-- Whatever is solved for, the solver stays inside its arrays. -/
theorem Current.solve_total (h : Current method sigma polish q s last) (b : Array α) :
    ∃ result, (s.solve b).run = some result := by
  obtain ⟨old, new, st, numeric, hst, -, hsteps, hf, -, rfl, -⟩ := h
  by_cases hb : b.size = q.p.ncols + q.a.nrows
  · obtain ⟨xs, hrun, -⟩ := hst.solve_spec polish hf.fits hsteps (hb ▸ Access.Tabulates.self b 0)
    exact ⟨_, hrun⟩
  · exact ⟨_, solve_of_size_ne hb⟩

/-- A solver for polishing is never updated. -/
theorem Current.mode_eq (h : Current method sigma true q s last) : s.mode = .polishing := by
  obtain ⟨_, _, _, _, -, -, -, -, -, rfl, -⟩ := h
  rfl

/-- New step sizes, if they are in order. -/
theorem Current.updateRho (h : Current method sigma false q s last) {steps : PerConstraint α}
    (hcheck : checkSteps steps q.a.nrows = .ok ()) :
    ∃ s' last', s.updateRho steps = some (s', last') ∧
      Current method sigma false { q with steps } s' last' := by
  obtain ⟨old, new, st, numeric, hst, htotal, -, hf, -, rfl, -⟩ := h
  have hfits := (checkSteps_eq_ok.mp hcheck).1
  have hinverse := fits_inverse.mpr hfits
  obtain ⟨st', hst', hr, hs, hslots⟩ := hst.update htotal (.refl q.p) (.refl q.a) hinverse
  rw [← hs] at hf htotal
  obtain ⟨g, hrun, hg, hcomplete⟩ := hst'.withMatrix_spec steps hf
    (.updatable st.matrix (mapsOf q.p q.a st.slots))
  refine ⟨_, _, ?_, old, new, st', g, hst', htotal, hfits, hg, hcomplete, rfl, rfl⟩
  have hwrite := updateRho_spec hst.assembled (hslots ▸ hst'.assembled) hst.blocks hinverse
  have hreplace : ((st.solver q.p q.a sigma q.steps false numeric).replaceRho st.matrix
      (mapsOf q.p q.a st.slots) steps).run = some (.ok st'.matrix) := by
    have hm : (st.solver q.p q.a sigma q.steps false numeric).m = q.a.nrows := rfl
    rw [replaceRho, hm, hcheck, Checked.run_ok_bind]
    exact Checked.run_adapt_eq_ok.mpr hwrite
  rw [← hrun, hslots, updateRho_of_updatable rfl, attempt_of_ok hreplace, Stages.solver,
    Stages.solver, hr, hs]
  rfl

/-- Step sizes that are not in order. -/
theorem Current.updateRho_refused (h : Current method sigma false q s last)
    {steps : PerConstraint α} (hcheck : checkSteps steps q.a.nrows ≠ .ok ()) :
    ∃ outcome, s.updateRho steps = some (s, outcome) ∧ accepted outcome = false := by
  obtain ⟨old, new, st, numeric, -, -, -, -, -, rfl, -⟩ := h
  rw [updateRho_of_updatable rfl]
  exact attempt_of_refuses (refuses_checkSteps _ _) hcheck _

/-- The positions that are listed are those of values. -/
def InRange (q : Problem α) (pChanged aChanged : Option (List Nat)) : Prop :=
  (∀ i ∈ pChanged.getD [], i < q.p.nnz) ∧ ∀ i ∈ aChanged.getD [], i < q.a.nnz

/-- Matrices of the old patterns are refused for their positions only. -/
theorem Prepared.checkMatrices_eq_ok {old new : Nat → Nat} {st : Stages α}
    {lower : PerConstraint α} {track : Bool}
    (h : Prepared method q.p q.a sigma lower track old new st) (polish : Bool)
    (numeric : Numeric α) {p a : Csc α} {pChanged aChanged : Option (List Nat)}
    (hp : SamePattern p q.p) (ha : SamePattern a q.a) :
    (st.solver q.p q.a sigma q.steps polish numeric).checkMatrices (mapsOf q.p q.a st.slots) p a
        pChanged aChanged = .ok () ↔ InRange q pChanged aChanged := by
  obtain ⟨hpsize, hasize, -⟩ := h.assembled.size_mapsOf h.blocks
  rw [Solver.checkMatrices_eq_ok, checkUpdate_eq_ok, checkUpdate_eq_ok, hpsize, hasize, hp.nnz_eq,
    ha.nnz_eq, hp.ncols_eq, ha.ncols_eq, ha.nrows_eq, InRange]
  constructor
  · rintro ⟨-, -, -, hpc, hac⟩
    exact ⟨hpc.2, hac.2⟩
  · rintro ⟨hpc, hac⟩
    exact ⟨rfl, h.blocks.columns, rfl, ⟨rfl, hpc⟩, rfl, hac⟩

/-- New values, if their positions are in order. -/
theorem Current.updateMatrices (hcomm : ∀ x y : α, x + y = y + x)
    (h : Current method sigma false q s last) {p a : Csc α} {pChanged aChanged : Option (List Nat)}
    (hp : SamePattern p q.p) (ha : SamePattern a q.a) (hrange : InRange q pChanged aChanged) :
    ∃ s' last', s.updateMatrices p pChanged a aChanged = some (s', last') ∧
      Current method sigma false { q with
        p := q.p.overwrite p pChanged, a := q.a.overwrite a aChanged } s' last' := by
  obtain ⟨old, new, st, numeric, hst, htotal, hsteps, hf, -, rfl, -⟩ := h
  have hcheck := (hst.checkMatrices_eq_ok false numeric hp ha).mpr hrange
  obtain ⟨-, -, -, hpcheck, hacheck⟩ := Solver.checkMatrices_eq_ok.mp hcheck
  -- First the values of `P`, then those of `A`.
  obtain ⟨st₁, hst₁, hr₁, hs₁, hslots₁⟩ :=
    hst.update htotal (samePattern_overwrite q.p p pChanged) (.refl q.a) hst.blocks.lower
  obtain ⟨st', hst', hr', hs', hslots'⟩ :=
    hst₁.update (hs₁ ▸ htotal) (.refl _) (samePattern_overwrite q.a a aChanged) hst.blocks.lower
  have hmaps : mapsOf (q.p.overwrite p pChanged) q.a st₁.slots = mapsOf q.p q.a st.slots := by
    rw [hslots₁]
    rfl
  have hmaps' : mapsOf (q.p.overwrite p pChanged) (q.a.overwrite a aChanged) st'.slots =
      mapsOf q.p q.a st.slots := by
    rw [hslots', hslots₁]
    rfl
  rw [← hs₁, ← hs'] at hf htotal
  obtain ⟨g, hrun, hg, hcomplete⟩ := hst'.withMatrix_spec q.steps hf
    (.updatable st.matrix (mapsOf q.p q.a st.slots))
  refine ⟨_, _, ?_, old, new, st', g, hst', htotal, hsteps, hg, hcomplete, rfl, rfl⟩
  have hwriteP := updateP_spec hcomm hst.assembled (hslots₁ ▸ hst₁.assembled) hst.blocks hp hpcheck
  have hwriteA := updateA_spec hst₁.assembled (hslots' ▸ hst'.assembled) hst₁.blocks ha
    (hmaps ▸ hacheck)
  rw [hmaps] at hwriteA
  have hreplace : ((st.solver q.p q.a sigma q.steps false numeric).replaceMatrices st.matrix
      (mapsOf q.p q.a st.slots) p a pChanged aChanged).run = some (.ok st'.matrix) := by
    have hsigma : (st.solver q.p q.a sigma q.steps false numeric).sigma = sigma := rfl
    rw [replaceMatrices, hcheck, Checked.run_ok_bind, hsigma,
      Checked.run_bind_ok (Checked.run_adapt_eq_ok.mpr hwriteP)]
    exact Checked.run_adapt_eq_ok.mpr hwriteA
  rw [← hrun, hmaps', updateMatrices_of_updatable rfl, attempt_of_ok hreplace, Stages.solver,
    Stages.solver, hr', hr₁, hs', hs₁]
  rfl

/-- Positions that are not in order. -/
theorem Current.updateMatrices_refused (h : Current method sigma false q s last) {p a : Csc α}
    {pChanged aChanged : Option (List Nat)} (hp : SamePattern p q.p) (ha : SamePattern a q.a)
    (hrange : ¬ InRange q pChanged aChanged) :
    ∃ outcome, s.updateMatrices p pChanged a aChanged = some (s, outcome) ∧
      accepted outcome = false := by
  obtain ⟨old, new, st, numeric, hst, -, -, -, -, rfl, -⟩ := h
  rw [updateMatrices_of_updatable rfl]
  exact attempt_of_refuses (refuses_checkMatrices _ _ _ _ _ _)
    (mt (hst.checkMatrices_eq_ok false numeric hp ha).mp hrange) _

end Current

end Saddle.Solver
