import Saddle.Proofs.Bounds
import Saddle.Proofs.Factor.Fill
import Saddle.Proofs.Factor.Kernel
import Saddle.Proofs.Kkt.Assembly
import Saddle.Solver.Basic

/-!
# Setting up a solver

A setup goes through stages, and only the last two of them look at values: the
elimination, which may stop at a zero pivot, and the count of positive pivots. What
comes before, the matrix apart, follows from the patterns and from the method. So a
setup is split here in two. `Prepared` holds what the stages up to the analysis have
produced, and `initWith_eq` says that the rest is the verdict on an elimination, unless
the factor has more entries than a number can say.
-/

namespace Saddle.Solver

open Csc Kkt Factor

variable {α : Type} [Scalar α]

/-! ## Checks -/

section Checks

variable {ε ε' β : Type}

theorem check_bind_eq_ok {x : Except ε Unit} {f : Unit → Except ε β} {y : β} :
    x >>= f = .ok y ↔ x = .ok () ∧ f () = .ok y := by
  rw [bind_eq_ok]
  exact ⟨fun ⟨_, h⟩ => h, fun h => ⟨(), h⟩⟩

theorem forM_eq_ok {f : β → Except ε Unit} {l : List β} :
    l.forM f = .ok () ↔ ∀ x ∈ l, f x = .ok () := by
  induction l with
  | nil => exact iff_of_true rfl (by simp)
  | cons x l ih =>
      have hcons : (x :: l).forM f = (f x >>= fun _ => l.forM f) := rfl
      rw [hcons, check_bind_eq_ok, List.forall_mem_cons, ih]

/-- If the computation fails, then with an error of the given kind. -/
def FailsWith (P : ε → Prop) (x : Except ε β) : Prop := ∀ e, x = .error e → P e

section FailsWith

variable {P : ε → Prop}

theorem failsWith_ok (y : β) : FailsWith P (.ok y) := fun _ h => nomatch h

theorem failsWith_bind {γ : Type} {x : Except ε β} {f : β → Except ε γ} (hx : FailsWith P x)
    (hf : ∀ y, FailsWith P (f y)) : FailsWith P (x >>= f) := by
  intro e he
  cases x with
  | error e' => exact hx e (congrArg Except.error (Except.error.inj he))
  | ok y => exact hf y e he

theorem failsWith_mapError {f : ε' → ε} (hf : ∀ e, P (f e)) (x : Except ε' β) :
    FailsWith P (x.mapError f) := by
  intro e he
  cases x with
  | error e' =>
      obtain rfl := Except.error.inj he
      exact hf e'
  | ok y => cases he

theorem failsWith_forM {f : β → Except ε Unit} {l : List β} (h : ∀ x ∈ l, FailsWith P (f x)) :
    FailsWith P (l.forM f) := by
  induction l with
  | nil => exact failsWith_ok ()
  | cons x l ih =>
      rw [List.forall_mem_cons] at h
      exact failsWith_bind h.1 fun _ => ih h.2

end FailsWith

omit [Scalar α] in
theorem failsWith_checkLength {P : Error α → Prop} {operand : Operand} {actual expected : Nat}
    (h : P (.dimension operand expected actual)) :
    FailsWith P (checkLength operand actual expected) := by
  intro e he
  rw [checkLength] at he
  split at he
  · obtain rfl := Except.error.inj he
    exact h
  · cases he

omit [Scalar α] in
theorem checkLength_eq_ok {operand : Operand} {actual expected : Nat} :
    (checkLength operand actual expected : Except (Error α) Unit) = .ok () ↔
      actual = expected := by
  rw [checkLength]
  by_cases h : actual = expected <;> simp [h]

end Checks

/-! ## Step sizes -/

/-- The step sizes that are used: those that are given, or the one that is set. -/
def givenSteps (settings : Settings α) (steps : Option (Array α)) : PerConstraint α :=
  match steps with
  | none => .uniform settings.rho
  | some values => .each values

/-- What the lower diagonal is regularized by. -/
def lowerOf (sigma : α) (steps : PerConstraint α) (polish : Bool) : PerConstraint α :=
  if polish then .uniform sigma else steps.inverse

theorem fits_inverse {steps : PerConstraint α} {m : Nat} :
    steps.inverse.Fits m ↔ steps.Fits m := by
  cases steps with
  | uniform value => exact Iff.rfl
  | each values => simp [PerConstraint.inverse, PerConstraint.Fits]

theorem checkRho_eq_ok {r : α} : Settings.checkRho r = .ok () ↔ Settings.isRegular r = true := by
  rw [Settings.checkRho]
  cases Settings.isRegular r <;> simp

theorem checkSteps_eq_ok {steps : PerConstraint α} {m : Nat} :
    checkSteps steps m = .ok () ↔
      steps.Fits m ∧ ∀ r ∈ steps.toList, Settings.isRegular r = true := by
  have hall := forM_eq_ok (l := steps.toList)
    (f := fun r => (Settings.checkRho r).mapError (@Error.settings α))
  simp only [mapError_eq_ok, checkRho_eq_ok] at hall
  rw [← hall]
  cases steps with
  | uniform value => exact (and_iff_right trivial).symm
  | each values => exact check_bind_eq_ok.trans (and_congr_left' checkLength_eq_ok)

theorem failsWith_checkSteps {P : Error α → Prop} (hsettings : ∀ cause, P (.settings cause))
    {steps : PerConstraint α} {m : Nat}
    (hlength : ∀ actual, P (.dimension .steps m actual)) : FailsWith P (checkSteps steps m) := by
  have hall : FailsWith P (steps.toList.forM fun r =>
      (Settings.checkRho r).mapError (@Error.settings α)) :=
    failsWith_forM fun r _ => failsWith_mapError hsettings _
  cases steps with
  | uniform value => exact hall
  | each values => exact failsWith_bind (failsWith_checkLength (hlength _)) fun _ => hall

theorem chooseSteps_eq_ok {settings : Settings α} {steps : Option (Array α)} {m : Nat}
    {chosen : PerConstraint α} :
    chooseSteps settings steps m = .ok chosen ↔
      settings.validate = .ok () ∧ chosen = givenSteps settings steps ∧
        ∀ values, steps = some values → checkSteps (.each values) m = .ok () := by
  have hopen : chooseSteps settings steps m =
      (settings.validate.mapError Error.settings >>= fun _ => match steps with
        | none => return .uniform settings.rho
        | some values => checkSteps (.each values) m >>= fun _ => return .each values) := rfl
  rw [hopen, check_bind_eq_ok, mapError_eq_ok]
  refine and_congr_right fun _ => ?_
  cases steps with
  | none => simp [givenSteps, eq_comm, pure, Except.pure]
  | some values =>
      dsimp only
      rw [check_bind_eq_ok, and_comm]
      simp [givenSteps, eq_comm, pure, Except.pure]

theorem fits_of_chooseSteps {settings : Settings α} {steps : Option (Array α)} {m : Nat}
    {chosen : PerConstraint α} (h : chooseSteps settings steps m = .ok chosen) :
    chosen.Fits m := by
  obtain ⟨-, rfl, hsteps⟩ := chooseSteps_eq_ok.mp h
  cases steps with
  | none => trivial
  | some values => exact (checkSteps_eq_ok.mp (hsteps values rfl)).1

/-! ## Up to the analysis -/

/-- What the stages before the elimination produce. -/
structure Stages (α : Type) where
  /-- The reordered matrix. -/
  matrix : Csc α
  /-- The slots of its entries. -/
  slots : Array Nat
  /-- The order. -/
  renumbering : Elimination.Renumbering
  /-- The analysis. -/
  symbolic : Symbolic

/-- The stages have run on the given blocks, and have produced this. The analysis has counted the
entries of the factor, and has failed if they are too many. -/
structure Prepared (method : Elimination.Method) (p a : Csc α) (sigma : α)
    (lower : PerConstraint α) (track : Bool) (old new : Nat → Nat) (st : Stages α) : Prop where
  blocks : Blocks p a lower
  renumbers : Elimination.Renumbers (p.ncols + a.nrows) st.renumbering old new
  assembled : Assembled p a sigma lower new st.matrix st.slots
  system : ∃ system, (assemble p a sigma lower track).run = some (.ok system) ∧
    (system.reorder method).run =
      some (.ok (⟨st.matrix, keptMaps track p a st.slots⟩, st.renumbering))
  analyzed : Analyzed st.matrix st.symbolic
  analysis : (analyze st.matrix).run =
    some (if st.symbolic.total ≤ maxSize then .ok st.symbolic else .error .countOverflow)

section Prepared

variable {method : Elimination.Method} {p a : Csc α} {sigma : α} {lower : PerConstraint α}
  {track : Bool} {old new : Nat → Nat} {st : Stages α}

theorem Prepared.valid (h : Prepared method p a sigma lower track old new st) :
    st.matrix.Valid :=
  h.assembled.valid h.blocks (labels_of_renumbers h.renumbers)

theorem Prepared.upper (h : Prepared method p a sigma lower track old new st) :
    st.matrix.Upper :=
  h.assembled.upper h.blocks (labels_of_renumbers h.renumbers)

theorem Prepared.analyze_eq_ok (h : Prepared method p a sigma lower track old new st) :
    (analyze st.matrix).run = some (.ok st.symbolic) ↔ st.symbolic.total ≤ maxSize := by
  rw [h.analysis]
  split <;> simp_all

theorem Prepared.total_eq (h : Prepared method p a sigma lower track old new st) :
    st.symbolic.total = fillCount st.matrix :=
  (h.analyzed.describes h.upper).total_eq

/-- Problems of moderate size do not have too much fill. -/
theorem Prepared.fillCount_le (h : Prepared method p a sigma lower track old new st)
    (hsize : p.ncols + a.nrows ≤ 2 ^ 32) : fillCount st.matrix ≤ maxSize :=
  fillCount_le_maxSize h.upper (h.assembled.ncols_eq ▸ hsize)

/-- The order is the one that the method chooses for the assembled matrix. -/
theorem Prepared.renumbering_eq (h : Prepared method p a sigma lower track old new st) :
    ∃ system, (assemble p a sigma lower track).run = some (.ok system) ∧
      (Elimination.renumbering method system.matrix).run = some (.ok st.renumbering) := by
  obtain ⟨system, hassemble, hreorder⟩ := h.system
  exact ⟨system, hassemble, renumbering_of_reorder hreorder⟩

/-- Blocks that fit together are prepared as soon as there is an order. -/
theorem exists_prepared (hb : Blocks p a lower) (sigma : α) (track : Bool)
    (hmethod : ∀ system, (assemble p a sigma lower track).run = some (.ok system) →
      ∃ r, (Elimination.renumbering method system.matrix).run = some (.ok r)) :
    ∃ old new st, Prepared method p a sigma lower track old new st := by
  obtain ⟨cells, slots, hrun, hbuilt⟩ := assemble_spec hb sigma track
  obtain ⟨r, hr⟩ := hmethod _ hrun
  obtain ⟨old, new, hnew⟩ := Elimination.renumbering_eq_ok hr
  obtain ⟨matrix, slots', hreorder, hassembled⟩ := reorder_spec hb hbuilt hr hnew
  have hlabels := labels_of_renumbers hnew
  obtain ⟨symbolic, hanalyzed, hanalysis⟩ := analyze_spec
    (hassembled.valid hb hlabels).readable (hassembled.upper hb hlabels)
    fun j hj => hassembled.col_ne_nil hnew (hassembled.ncols_eq ▸ hj)
  exact ⟨old, new, ⟨matrix, slots', r, symbolic⟩, hb, hnew, hassembled, ⟨_, hrun, hreorder⟩,
    hanalyzed, hanalysis⟩

/-- So is a system that has been assembled and reordered. -/
theorem exists_prepared_of_reorder {system system' : System α} {r : Elimination.Renumbering}
    (hassemble : (assemble p a sigma lower track).run = some (.ok system))
    (hreorder : (system.reorder method).run = some (.ok (system', r))) :
    ∃ old new st, Prepared method p a sigma lower track old new st ∧
      system'.matrix = st.matrix := by
  obtain ⟨old, new, st, hst⟩ := exists_prepared (blocks_of_assemble hassemble) sigma track
    fun system₁ hsystem₁ => by
      rw [hassemble, Option.some.injEq, Except.ok.injEq] at hsystem₁
      exact ⟨r, hsystem₁ ▸ renumbering_of_reorder hreorder⟩
  obtain ⟨system₁, hassemble₁, hreorder₁⟩ := hst.system
  rw [hassemble, Option.some.injEq, Except.ok.injEq] at hassemble₁
  rw [← hassemble₁, hreorder, Option.some.injEq, Except.ok.injEq, Prod.mk.injEq] at hreorder₁
  exact ⟨old, new, st, hst, by rw [hreorder₁.1]⟩

end Prepared

/-! ## The verdict on an elimination -/

/-- How an elimination is judged, by the column of a zero pivot at which it stopped, or
by the number of positive pivots. -/
def verdict (stopped : Option Nat) (positive n : Nat) : Except (Error α) Unit :=
  match stopped with
  | some column => .error (.factor (.zeroPivot column))
  | none => checkConvexity positive n

/-- The verdict on the matrix that has been prepared. -/
def Stages.verdict (st : Stages α) (n : Nat) : Except (Error α) Unit :=
  Solver.verdict (eliminate st.matrix st.symbolic.parent).2
    (eliminate st.matrix st.symbolic.parent).1.positive n

theorem Stages.stop_eq_none {st : Stages α} {n : Nat}
    (h : ∀ column, st.verdict n ≠ .error (.factor (.zeroPivot column))) :
    (eliminate st.matrix st.symbolic.parent).2 = none := by
  cases hstop : (eliminate st.matrix st.symbolic.parent).2 with
  | none => rfl
  | some column => exact absurd (by rw [Stages.verdict, hstop, Solver.verdict]) (h column)

/-- The solver for what has been prepared, with the given factor. -/
def Stages.solver (st : Stages α) (p a : Csc α) (sigma : α) (steps : PerConstraint α)
    (polish : Bool) (numeric : Numeric α) : Solver α where
  n := p.ncols
  m := a.nrows
  sigma := sigma
  stepInverse := steps.inverse
  oldOf := st.renumbering.oldOf
  symbolic := st.symbolic
  numeric := numeric
  mode := if polish then .polishing else .updatable st.matrix (mapsOf p a st.slots)

section Setup

variable {method : Elimination.Method} {p a : Csc α} {steps : Option (Array α)}
  {settings : Settings α} {polish : Bool} {old new : Nat → Nat} {st : Stages α}
  {chosen : PerConstraint α}

/-- The stages after the reordering are those that are left. -/
theorem run_initWith_of_prepared (hsteps : chooseSteps settings steps a.nrows = .ok chosen)
    (h : Prepared method p a settings.sigma (lowerOf settings.sigma chosen polish) (!polish)
      old new st) :
    (initWith method p a steps settings polish).run =
      (ofSystem p.ncols a.nrows settings.sigma chosen.inverse
        ⟨st.matrix, keptMaps (!polish) p a st.slots⟩ st.renumbering.oldOf).run := by
  obtain ⟨system, hassemble, hreorder⟩ := h.system
  rw [initWith, hsteps, Checked.run_ok_bind]
  dsimp only
  rw [← lowerOf, Checked.run_bind_ok (Checked.run_adapt_eq_ok.mpr hassemble),
    Checked.run_bind_ok (Checked.run_adapt_eq_ok.mpr hreorder)]

/-- A factor with too many entries is not computed. -/
theorem initWith_of_many (hsteps : chooseSteps settings steps a.nrows = .ok chosen)
    (h : Prepared method p a settings.sigma (lowerOf settings.sigma chosen polish) (!polish)
      old new st) (hmany : maxSize < st.symbolic.total) :
    (initWith method p a steps settings polish).run = some (.error (.factor .countOverflow)) := by
  have hanalysis := h.analysis
  rw [if_neg (Nat.not_le.mpr hmany)] at hanalysis
  rw [run_initWith_of_prepared hsteps h, ofSystem]
  exact Checked.run_bind_error (Checked.run_adapt_error hanalysis)

/-- A setup that gets as far as the elimination ends with the verdict on it. -/
theorem initWith_eq (hsteps : chooseSteps settings steps a.nrows = .ok chosen)
    (h : Prepared method p a settings.sigma (lowerOf settings.sigma chosen polish) (!polish)
      old new st) (htotal : st.symbolic.total ≤ maxSize) :
    ∃ numeric, (factor st.matrix st.symbolic).run =
        some ((outcome (eliminate st.matrix st.symbolic.parent).2).map fun _ => numeric) ∧
      (initWith method p a steps settings polish).run =
        some ((st.verdict p.ncols).map fun _ =>
          st.solver p a settings.sigma chosen polish numeric) ∧
      Ready st.symbolic numeric ∧
      ((eliminate st.matrix st.symbolic.parent).2 = none →
        Complete st.matrix st.symbolic (eliminate st.matrix st.symbolic.parent).1
          numeric.toFactorization) := by
  obtain ⟨numeric, hfactor, hready, hcomplete⟩ :=
    factor_spec h.valid.readable h.upper h.analyzed
  refine ⟨numeric, hfactor, ?_, hready, hcomplete⟩
  rw [run_initWith_of_prepared hsteps h]
  simp only [ofSystem]
  rw [Checked.run_bind_ok (Checked.run_adapt_eq_ok.mpr (h.analyze_eq_ok.mpr htotal)),
    Stages.verdict]
  cases hstop : (eliminate st.matrix st.symbolic.parent).2 with
  | some column =>
      rw [hstop] at hfactor
      rw [Checked.run_bind_error (by rw [Checked.run_adapt, hfactor]; rfl)]
      rfl
  | none =>
      rw [hstop] at hfactor
      have hpositive := (hcomplete hstop).positive
      rw [Checked.run_bind_ok (Checked.run_adapt_eq_ok.mpr hfactor), hpositive, Solver.verdict]
      cases polish <;>
        cases checkConvexity (eliminate st.matrix st.symbolic.parent).1.positive p.ncols <;> rfl

/-- A setup that succeeds has been prepared. -/
theorem prepared_of_initWith {s : Solver α}
    (h : (initWith method p a steps settings polish).run = some (.ok s)) :
    ∃ chosen old new st, chooseSteps settings steps a.nrows = .ok chosen ∧
      Prepared method p a settings.sigma (lowerOf settings.sigma chosen polish) (!polish)
        old new st ∧ st.symbolic.total ≤ maxSize := by
  have hrun := h
  rw [initWith, Checked.run_bind_eq_ok] at h
  obtain ⟨chosen, hsteps, h⟩ := h
  rw [Checked.run_except, Option.some.injEq] at hsteps
  rw [Checked.run_bind_eq_ok] at h
  obtain ⟨system, hassemble, h⟩ := h
  rw [Checked.run_adapt_eq_ok] at hassemble
  rw [Checked.run_bind_eq_ok] at h
  obtain ⟨⟨system', r⟩, hreorder, -⟩ := h
  rw [Checked.run_adapt_eq_ok] at hreorder
  obtain ⟨old, new, st, hst, -⟩ := exists_prepared_of_reorder hassemble hreorder
  refine ⟨chosen, old, new, st, hsteps, hst, ?_⟩
  by_contra hmany
  rw [initWith_of_many hsteps hst (Nat.lt_of_not_le hmany)] at hrun
  cases hrun

end Setup

end Saddle.Solver
