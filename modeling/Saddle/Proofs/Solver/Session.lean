import Saddle.Proofs.Solver.Convex
import Saddle.Proofs.Solver.Update

/-!
# A solver has no memory but for its problem

A session is a solver together with what its caller knows: the problem as the
accepted updates have left it, and how the last of them ended. Whether an update is
accepted is decided by the problem and the call, and each step keeps the solver
current. So after any calls, with failed factorizations and refusals among them, the
solver is the one that a setup of the problem would have made, and where the setup
would have failed, the last update has failed like it. Nothing tells the two solvers
apart but what their workspaces hold, which no call reads before it has written it.
-/

namespace Saddle

variable {α : Type}

/-- The step sizes that a setup is given, if they do not come with its settings. -/
def PerConstraint.given? (steps : PerConstraint α) : Option (Array α) :=
  match steps with
  | .uniform _ => none
  | .each values => some values

/-- The settings of a setup with the step sizes. -/
def Settings.withSteps (settings : Settings α) (steps : PerConstraint α) : Settings α :=
  match steps with
  | .uniform value => { settings with rho := value }
  | .each _ => settings

namespace Solver

open Csc Kkt Factor

variable [Scalar α]

theorem validate_eq_ok {settings : Settings α} :
    settings.validate = .ok () ↔ Settings.isRegular settings.sigma = true ∧
      Settings.isRegular settings.rho = true ∧ settings.denseRowFactor.isNaN = false := by
  rw [Settings.validate]
  cases Settings.isRegular settings.sigma <;> cases Settings.isRegular settings.rho <;>
    cases settings.denseRowFactor.isNaN <;> simp

theorem checkSteps_of_chooseSteps {settings : Settings α} {given : Option (Array α)} {m : Nat}
    {chosen : PerConstraint α} (h : chooseSteps settings given m = .ok chosen) :
    checkSteps chosen m = .ok () := by
  obtain ⟨hvalid, rfl, hgiven⟩ := chooseSteps_eq_ok.mp h
  cases given with
  | none =>
      refine checkSteps_eq_ok.mpr ⟨trivial, fun r hr => ?_⟩
      rw [List.mem_singleton.mp hr]
      exact (validate_eq_ok.mp hvalid).2.1
  | some values => exact hgiven values rfl

theorem chooseSteps_withSteps {settings : Settings α} {steps : PerConstraint α} {m : Nat}
    (hvalid : settings.validate = .ok ()) (hsteps : checkSteps steps m = .ok ()) :
    chooseSteps (settings.withSteps steps) steps.given? m = .ok steps := by
  rw [chooseSteps_eq_ok]
  cases steps with
  | uniform value =>
      obtain ⟨hsigma, -, hfactor⟩ := validate_eq_ok.mp hvalid
      have hvalue := (checkSteps_eq_ok.mp hsteps).2 value (List.mem_singleton_self value)
      exact ⟨validate_eq_ok.mpr ⟨hsigma, hvalue, hfactor⟩, rfl, fun _ h => nomatch h⟩
  | each values =>
      refine ⟨hvalid, rfl, fun _ h => ?_⟩
      obtain rfl := Option.some.inj h
      exact hsteps

/-! ## Calls -/

/-- A call to a solver. -/
inductive Call (α : Type) where
  | solve (b : Array α)
  | updateRho (steps : PerConstraint α)
  | updateMatrices (p : Csc α) (pChanged : Option (List Nat)) (a : Csc α)
      (aChanged : Option (List Nat))
  | updateSettings (settings : Settings α)
  | warmStart (x : Array α)

namespace Call

/-- The solver after the call, and how the call ended. -/
def perform (s : Solver α) : Call α → Outcome α
  | .solve b => (s.solve b).run.map fun result => (s, result.map fun _ => ())
  | .updateRho steps => s.updateRho steps
  | .updateMatrices p pChanged a aChanged => s.updateMatrices p pChanged a aChanged
  | .updateSettings settings => s.updateSettings settings
  | .warmStart x => s.warmStart x

/-- Whether the call is one that sets values. -/
def isUpdate : Call α → Bool
  | .updateRho _ | .updateMatrices _ _ _ _ => true
  | _ => false

/-- The problem with the values that the call sets. -/
def set (q : Problem α) : Call α → Problem α
  | .updateRho steps => { q with steps }
  | .updateMatrices p pChanged a aChanged =>
      { q with p := q.p.overwrite p pChanged, a := q.a.overwrite a aChanged }
  | _ => q

/-- The matrices that come with the call have the given patterns. -/
def Keeps (p a : Csc α) : Call α → Prop
  | .updateMatrices p' _ a' _ => SamePattern p' p ∧ SamePattern a' a
  | _ => True

/-- The call sets values, and nothing is wrong with them. -/
def InOrder (q : Problem α) : Call α → Prop
  | .updateRho steps => checkSteps steps q.a.nrows = .ok ()
  | .updateMatrices _ pChanged _ aChanged => InRange q pChanged aChanged
  | _ => False

end Call

section Current

variable {method : Elimination.Method} {sigma : α} {polish : Bool} {q : Problem α} {s : Solver α}
  {last : Except (Error α) Unit} {c : Call α}

/-- A call in order makes the solver current for the values it sets. -/
theorem Current.perform_inOrder (hcomm : ∀ x y : α, x + y = y + x)
    (h : Current method sigma false q s last) (hkeep : c.Keeps q.p q.a) (hc : c.InOrder q) :
    ∃ s' outcome, c.perform s = some (s', outcome) ∧ c.isUpdate = true ∧
      Current method sigma false (c.set q) s' outcome := by
  cases c with
  | updateRho steps =>
      obtain ⟨s', outcome, hrun, h'⟩ := h.updateRho hc
      exact ⟨s', outcome, hrun, rfl, h'⟩
  | updateMatrices p pChanged a aChanged =>
      obtain ⟨s', outcome, hrun, h'⟩ := h.updateMatrices hcomm hkeep.1 hkeep.2 hc
      exact ⟨s', outcome, hrun, rfl, h'⟩
  | solve b => exact hc.elim
  | updateSettings settings => exact hc.elim
  | warmStart x => exact hc.elim

theorem Current.perform_refused (h : Current method sigma polish q s last)
    (hkeep : c.Keeps q.p q.a) (hc : ¬ (polish = false ∧ c.InOrder q)) :
    ∃ outcome, c.perform s = some (s, outcome) ∧ (c.isUpdate && accepted outcome) = false := by
  cases c with
  | solve b =>
      obtain ⟨result, hrun⟩ := h.solve_total b
      exact ⟨_, by rw [Call.perform, hrun]; rfl, rfl⟩
  | updateSettings settings => exact ⟨_, rfl, rfl⟩
  | warmStart x => exact ⟨_, rfl, rfl⟩
  | updateRho steps =>
      cases polish with
      | true => exact ⟨_, by rw [Call.perform, Solver.updateRho, h.mode_eq], rfl⟩
      | false =>
          obtain ⟨outcome, hrun, hrefused⟩ := h.updateRho_refused fun hsteps => hc ⟨rfl, hsteps⟩
          exact ⟨outcome, hrun, hrefused⟩
  | updateMatrices p pChanged a aChanged =>
      cases polish with
      | true => exact ⟨_, by rw [Call.perform, Solver.updateMatrices, h.mode_eq], rfl⟩
      | false =>
          obtain ⟨outcome, hrun, hrefused⟩ :=
            h.updateMatrices_refused hkeep.1 hkeep.2 fun hrange => hc ⟨rfl, hrange⟩
          exact ⟨outcome, hrun, hrefused⟩

end Current

/-! ## Sessions -/

/-- A solver, and what its caller knows of it. -/
structure Session (α : Type) where
  /-- The solver. -/
  solver : Solver α
  /-- The problem with the values of all accepted updates. -/
  problem : Problem α
  /-- How the last accepted update ended, or the setup if there was none. -/
  last : Except (Error α) Unit

namespace Session

/-- A session starts when a setup succeeds. -/
def start (p a : Csc α) (steps : PerConstraint α) (s : Solver α) : Session α :=
  ⟨s, ⟨p, a, steps⟩, .ok ()⟩

/-- The session after a call. -/
def step (t : Session α) (c : Call α) : Option (Session α) :=
  (c.perform t.solver).map fun (solver, outcome) =>
    if c.isUpdate && accepted outcome then ⟨solver, c.set t.problem, outcome⟩
    else { t with solver }

/-- The session after a list of calls. -/
def run (t : Session α) (calls : List (Call α)) : Option (Session α) := calls.foldlM step t

end Session

open Classical in
/-- What a call leaves of a problem. -/
noncomputable def Problem.after (polish : Bool) (q : Problem α) (c : Call α) : Problem α :=
  if polish = false ∧ c.InOrder q then c.set q else q

/-- The problem of the session has the given patterns and step sizes in order, and its solver is
current. -/
structure Ongoing (method : Elimination.Method) (p a : Csc α) (sigma : α) (polish : Bool)
    (t : Session α) : Prop where
  pPattern : SamePattern t.problem.p p
  aPattern : SamePattern t.problem.a a
  steps : checkSteps t.problem.steps a.nrows = .ok ()
  current : Current method sigma polish t.problem t.solver t.last

section Ongoing

variable {method : Elimination.Method} {p a : Csc α} {sigma : α} {polish : Bool} {t : Session α}
  {c : Call α}

omit [Scalar α] in
theorem Call.Keeps.trans {p' a' : Csc α} (h : c.Keeps p a) (hp : SamePattern p p')
    (ha : SamePattern a a') : c.Keeps p' a' := by
  cases c with
  | updateMatrices => exact ⟨h.1.trans hp, h.2.trans ha⟩
  | _ => trivial

omit [Scalar α] in
theorem samePattern_set (c : Call α) (q : Problem α) :
    SamePattern (c.set q).p q.p ∧ SamePattern (c.set q).a q.a := by
  cases c with
  | updateMatrices p pChanged a aChanged =>
      exact ⟨samePattern_overwrite q.p p pChanged, samePattern_overwrite q.a a aChanged⟩
  | _ => exact ⟨.refl q.p, .refl q.a⟩

theorem checkSteps_set {q : Problem α} {m : Nat} (hm : q.a.nrows = m)
    (hq : checkSteps q.steps m = .ok ()) (hc : c.InOrder q) :
    checkSteps (c.set q).steps m = .ok () := by
  cases c with
  | updateRho steps => exact hm ▸ hc
  | _ => exact hq

/-- A call is answered, and leaves of the problem what is left of any equal one. -/
theorem Ongoing.step (hcomm : ∀ x y : α, x + y = y + x)
    (h : Ongoing method p a sigma polish t) (hkeep : c.Keeps p a) :
    ∃ t', t.step c = some t' ∧ Ongoing method p a sigma polish t' ∧
      t'.problem = t.problem.after polish c := by
  have hkeep' := hkeep.trans h.pPattern.symm h.aPattern.symm
  by_cases hc : polish = false ∧ c.InOrder t.problem
  · obtain ⟨rfl, horder⟩ := hc
    obtain ⟨s', outcome, hrun, hupdate, hcurrent⟩ :=
      h.current.perform_inOrder hcomm hkeep' horder
    obtain ⟨hp, ha⟩ := samePattern_set c t.problem
    refine ⟨⟨s', c.set t.problem, outcome⟩, ?_, ⟨hp.trans h.pPattern, ha.trans h.aPattern,
      checkSteps_set h.aPattern.nrows_eq h.steps horder, hcurrent⟩, ?_⟩
    · simp only [Session.step, hrun, Option.map_some, hupdate, hcurrent.accepted_last,
        Bool.and_self, if_true]
    · rw [Problem.after, if_pos ⟨rfl, horder⟩]
  · obtain ⟨outcome, hrun, hrefused⟩ := h.current.perform_refused hkeep' hc
    refine ⟨t, ?_, h, ?_⟩
    · simp only [Session.step, hrun, Option.map_some, hrefused, Bool.false_eq_true, if_false]
    · rw [Problem.after, if_neg hc]

/-- So are the calls of a list. -/
theorem Ongoing.run (hcomm : ∀ x y : α, x + y = y + x)
    (h : Ongoing method p a sigma polish t) {calls : List (Call α)}
    (hkeep : ∀ c ∈ calls, c.Keeps p a) :
    ∃ t', t.run calls = some t' ∧ Ongoing method p a sigma polish t' ∧
      t'.problem = calls.foldl (Problem.after polish) t.problem := by
  induction calls generalizing t with
  | nil => exact ⟨t, rfl, h, rfl⟩
  | cons c calls ih =>
      rw [List.forall_mem_cons] at hkeep
      obtain ⟨t₁, hstep, h₁, hproblem₁⟩ := h.step hcomm hkeep.1
      obtain ⟨t', hrun, h', hproblem'⟩ := ih h₁ hkeep.2
      refine ⟨t', ?_, h', ?_⟩
      · rw [Session.run, List.foldlM_cons, hstep]
        exact hrun
      · rw [hproblem', hproblem₁, List.foldl_cons]

theorem ongoing_start {settings : Settings α} {given : Option (Array α)} {s : Solver α}
    (h : (initWith method p a given settings polish).run = some (.ok s)) :
    Ongoing method p a settings.sigma polish
      (Session.start p a (givenSteps settings given) s) := by
  obtain ⟨hsteps, hcurrent⟩ := current_of_initWith h
  exact ⟨.refl p, .refl a, checkSteps_of_chooseSteps hsteps, hcurrent⟩

/-- What does not depend on values is as a setup of the problem has it. -/
theorem Current.stages {sigma : α} {q : Problem α} {s : Solver α}
    {last : Except (Error α) Unit} (h : Current method sigma false q s last) :
    ∃ system renumbering symbolic matrix maps,
      (assemble q.p q.a sigma q.steps.inverse true).run = some (.ok system) ∧
        (system.reorder method).run = some (.ok (⟨matrix, some maps⟩, renumbering)) ∧
        (analyze matrix).run = some (.ok symbolic) ∧ s.oldOf = renumbering.oldOf ∧
        s.symbolic = symbolic ∧ s.stepInverse = q.steps.inverse ∧
        s.mode = .updatable matrix maps := by
  obtain ⟨old, new, st, numeric, hst, htotal, -, -, -, rfl, -⟩ := h
  obtain ⟨system, hassemble, hreorder⟩ := hst.system
  exact ⟨system, st.renumbering, st.symbolic, st.matrix, mapsOf q.p q.a st.slots, hassemble,
    hreorder, hst.analyze_eq_ok.mpr htotal, rfl, rfl, rfl, rfl⟩

/-- After any calls the order, the analysis, the maps, the inverse step sizes and the matrix are
those that the stages of a setup produce for the current problem, and a setup of it with the same
`sigma` ends as the last accepted update has ended, with the same solver if there is one, but for
what its workspace holds. -/
theorem session_eq_setup (hcomm : ∀ x y : α, x + y = y + x) {settings : Settings α}
    {given : Option (Array α)} {s : Solver α}
    (hinit : (initWith method p a given settings false).run = some (.ok s))
    {calls : List (Call α)} (hkeep : ∀ c ∈ calls, c.Keeps p a) :
    ∃ t, (Session.start p a (givenSteps settings given) s).run calls = some t ∧
      (∃ system renumbering symbolic matrix maps,
        (assemble t.problem.p t.problem.a settings.sigma t.problem.steps.inverse true).run =
            some (.ok system) ∧
          (system.reorder method).run = some (.ok (⟨matrix, some maps⟩, renumbering)) ∧
          (analyze matrix).run = some (.ok symbolic) ∧
          t.solver.oldOf = renumbering.oldOf ∧ t.solver.symbolic = symbolic ∧
          t.solver.stepInverse = t.problem.steps.inverse ∧
          t.solver.mode = .updatable matrix maps) ∧
      ∃ work, (initWith method t.problem.p t.problem.a t.problem.steps.given?
          (settings.withSteps t.problem.steps) false).run =
        some (t.last.map fun _ => { t.solver with numeric := { t.solver.numeric with work } }) := by
  obtain ⟨hchosen, -⟩ := current_of_initWith hinit
  obtain ⟨hvalid, -, -⟩ := chooseSteps_eq_ok.mp hchosen
  obtain ⟨t, hrun, ht, -⟩ := (ongoing_start hinit).run hcomm hkeep
  refine ⟨t, hrun, ht.current.stages, ?_⟩
  have hsigma : (settings.withSteps t.problem.steps).sigma = settings.sigma := by
    cases t.problem.steps <;> rfl
  refine Current.initWith_eq (hsigma.symm ▸ ht.current) ?_
  rw [ht.aPattern.nrows_eq]
  exact chooseSteps_withSteps hvalid ht.steps

/-- A steeper form. -/
def steep : Csc ℚ := ⟨2, 2, #[0, 1, 3], #[0, 0, 1], #[5, 1, 3]⟩

/-- Calls of every kind, one of them refused. -/
def steepening : List (Call ℚ) :=
  [.solve #[1, 2, 3], .updateRho (.uniform 3), .updateRho (.uniform 0),
    .updateMatrices steep (some [0]) plane none, .updateSettings ⟨2, 5, .natural, 10⟩,
    .warmStart #[1]]

theorem keeps_steepening : ∀ c ∈ steepening, c.Keeps bowl plane := by
  simp only [steepening, List.forall_mem_cons, Call.Keeps]
  exact ⟨trivial, trivial, trivial, ⟨⟨rfl, rfl, rfl, rfl, rfl⟩, .refl plane⟩, trivial, trivial,
    fun _ h => nomatch h⟩

/-- The problem that they leave. -/
def steepProblem : Problem ℚ := ⟨steep, plane, .uniform 3⟩

theorem after_steepening :
    steepening.foldl (Problem.after false) ⟨bowl, plane, .each #[2]⟩ = steepProblem := by
  have hset : checkSteps (.uniform (3 : ℚ)) plane.nrows = .ok () := by decide
  have hrefused : checkSteps (.uniform (0 : ℚ)) plane.nrows ≠ .ok () := by decide
  have hrange : InRange ⟨bowl, plane, .uniform 3⟩ (some [0]) none := ⟨by decide, by decide⟩
  have hsteep : bowl.overwrite steep (some [0]) = steep := by decide
  have hplane : plane.overwrite plane none = plane := by decide
  simp [steepening, steepProblem, Problem.after, Call.InOrder, Call.set, hset, hrefused, hrange,
    hsteep, hplane]

theorem session_eq_setup_steepening :
    ∃ s t work, (initWith (fixedOrder #[2, 0, 1]) bowl plane (some #[2]) ⟨1, 5, .natural, 10⟩
        false).run = some (.ok s) ∧
      (Session.start bowl plane (.each #[2]) s).run steepening = some t ∧
      t.problem = steepProblem ∧
      (initWith (fixedOrder #[2, 0, 1]) steep plane none ⟨1, 3, .natural, 10⟩ false).run =
        some (t.last.map fun _ => { t.solver with numeric := { t.solver.numeric with work } }) := by
  obtain ⟨s, hs⟩ := exists_solver_bowl
  obtain ⟨t, hrun, -, work, hsetup⟩ := session_eq_setup add_comm hs keeps_steepening
  obtain ⟨t', hrun', -, hproblem⟩ := (ongoing_start hs).run add_comm keeps_steepening
  obtain rfl := Option.some.inj (hrun.symm.trans hrun')
  have ht := hproblem.trans after_steepening
  rw [ht] at hsetup
  exact ⟨s, t, work, hs, hrun, ht, hsetup⟩

end Ongoing

end Solver

end Saddle
