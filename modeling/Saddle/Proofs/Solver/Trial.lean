import Mathlib.Algebra.Order.Field.Basic
import Saddle.Proofs.Kkt.Bounds
import Saddle.Proofs.Solver.Answer
import Saddle.Proofs.Solver.Verdict
import Saddle.Proofs.Sparse.Product
import Saddle.Solver.Demo

/-!
# A trial leaves nothing unsolved

A trial does not look into the solver. It undoes what the answer does to the solution of
the system, by the same regularization that it then assembles the matrix with, and the
product it checks is that of a triangle, in the order in which the rows came. So it has
to agree with the solver in three places: in what is added to the lower diagonal, in what
the answer gives the constraints, and in the numbers of the rows. In exact arithmetic it
does, and the difference it reports, which is that of the row where most is left, is zero.
-/

namespace Saddle

open Csc Kkt Factor Access

/-! ## The system in its own order -/

namespace Kkt

section Rows

variable {α : Type} [Zero α] {n m : Nat}

theorem exists_rowNumber {i : Nat} (hi : i < n + m) : ∃ u : Fin n ⊕ Fin m, rowNumber u = i := by
  rcases Nat.lt_or_ge i n with hin | hin
  · exact ⟨.inl ⟨i, hin⟩, rfl⟩
  · exact ⟨.inr ⟨i - n, by omega⟩, Nat.add_sub_cancel' hin⟩

/-- The entries of a vector, by the numbers of their rows. -/
noncomputable def byNumber (z : Fin n ⊕ Fin m → α) : Nat → α := Function.extend rowNumber z 0

theorem byNumber_rowNumber (z : Fin n ⊕ Fin m → α) (u : Fin n ⊕ Fin m) :
    byNumber z (rowNumber u) = z u :=
  rowNumber_injective.extend_apply z 0 u

theorem tabulates_byNumber {xs : Array α} {z : Fin n ⊕ Fin m → α} (hsize : xs.size = n + m)
    (h : ∀ u, xs[rowNumber u]? = some (z u)) : Tabulates xs (n + m) (byNumber z) := by
  refine ⟨hsize, fun i hi => ?_⟩
  obtain ⟨u, rfl⟩ := exists_rowNumber (n := n) (m := m) hi
  rw [h, byNumber_rowNumber]

theorem renumbers_id (N : Nat) :
    Elimination.Renumbers N ⟨Array.range N, Array.range N⟩ id id where
  oldOf := .range N
  newOf := .range N
  old_lt _ hk := hk
  new_lt _ hi := hi
  new_old _ _ := rfl
  old_new _ _ := rfl

end Rows

variable {α : Type} [FieldScalar α]

/-- The product with the assembled triangle is that with the saddle point matrix. -/
theorem Assembled.symmetricMulVec_spec {p a matrix : Csc α} {sigma : α} {lower : PerConstraint α}
    {slots : Array Nat} {x : Array α} {z : Fin p.ncols ⊕ Fin a.nrows → α}
    (h : Assembled p a sigma lower id matrix slots) (hb : Blocks p a lower)
    (hx : Tabulates x (p.ncols + a.nrows) (byNumber z)) :
    ∃ y, matrix.symmetricMulVec x = some y ∧
      Tabulates y (p.ncols + a.nrows) (byNumber ((saddle p a sigma lower).mulVec z)) := by
  have hupper := h.upper hb (.id _)
  have hncols := h.ncols_eq
  obtain ⟨y, hrun, hy⟩ := symmetricMulVecInto_spec (h.valid hb (.id _)) hupper (hncols ▸ hx)
    (Array.size_replicate.trans hupper.square)
  rw [hncols] at hy
  refine ⟨y, hrun, hy.congr fun i hi => ?_⟩
  obtain ⟨u, rfl⟩ := exists_rowNumber hi
  have hrow := h.mulVec_eq hb (renumbers_id _) (byNumber z) u
  simp only [id_eq, byNumber_rowNumber] at hrow
  rw [byNumber_rowNumber, ← hrow]

end Kkt

namespace Solver

/-! ## The solution behind an answer -/

section Recovery

variable {α : Type} [FieldScalar α] {method : Elimination.Method} {q : Problem α} {sigma : α}
  {polish : Bool} {s : Solver α} {last : Except (Error α) Unit} {b x : Array α}
  {z : Fin q.p.ncols ⊕ Fin q.a.nrows → α}

/-- What a trial reads of the solver is what the solver was set up with. -/
theorem Current.fields (h : Current method sigma polish q s last) :
    s.n = q.p.ncols ∧ s.m = q.a.nrows ∧ s.sigma = sigma ∧ s.isPolishing = polish ∧
      s.lower = lowerOf sigma q.steps polish := by
  obtain ⟨_, _, _, _, -, -, -, -, -, rfl, -⟩ := h
  cases polish <;> exact ⟨rfl, rfl, rfl, rfl, rfl⟩

theorem Answers.tabulates_of_polished (h : Answers q sigma true b x z) :
    Tabulates x (q.p.ncols + q.a.nrows) (byNumber z) := by
  refine tabulates_byNumber h.size_eq fun u => ?_
  rcases u with i | j
  · exact h.of_variable i
  · exact h.of_constraint_polished rfl j

/-- The step from the right-hand side to the answer, divided by the regularization, is the
solution. -/
theorem Current.recoverEntry_eq (h : Current method sigma false q s last)
    (hlower : ∀ j < q.a.nrows, q.steps.inverse.value j ≠ 0)
    (hb : b.size = q.p.ncols + q.a.nrows) (hx : Answers q sigma false b x z)
    (u : Fin q.p.ncols ⊕ Fin q.a.nrows) : s.recoverEntry b x (rowNumber u) = some (z u) := by
  obtain ⟨hn, -, -, -, hlow⟩ := h.fields
  rw [recoverEntry, hn, hlow]
  rcases u with i | j
  · rw [if_pos (show rowNumber (Sum.inl i) < q.p.ncols from i.isLt)]
    exact hx.of_variable i
  · have hentry := (hb ▸ Tabulates.self b 0).get _ (Nat.add_lt_add_left j.isLt q.p.ncols)
    have hget := (fits_inverse.mpr h.stepsFit).get?_eq j.isLt
    rw [rowNumber, if_neg (Nat.not_lt.mpr (Nat.le_add_right _ _)), Nat.add_sub_cancel_left]
    simp only [Option.bind_eq_bind, Option.bind_some, hx.of_constraint rfl j, hentry]
    change ((q.steps.inverse.get? j).bind fun r => some (_ / r)) = _
    rw [hget, Option.bind_some, add_sub_cancel_left, mul_div_cancel_left₀ _ (hlower j j.isLt)]

theorem Current.recover_spec (h : Current method sigma polish q s last)
    (hlower : ∀ j < q.a.nrows, (lowerOf sigma q.steps polish).value j ≠ 0)
    (hb : b.size = q.p.ncols + q.a.nrows) (hx : Answers q sigma polish b x z) :
    ∃ y, s.recover b x = some y ∧ Tabulates y (q.p.ncols + q.a.nrows) (byNumber z) := by
  obtain ⟨hn, hm, -, hpolish, -⟩ := h.fields
  rw [recover, hpolish]
  cases polish with
  | true => exact ⟨x, rfl, hx.tabulates_of_polished⟩
  | false =>
      have hentries : (List.range (s.n + s.m)).mapM (s.recoverEntry b x) =
          some ((List.range (q.p.ncols + q.a.nrows)).map (byNumber z)) := by
        rw [hn, hm, mapM_eq_some, List.map_map]
        refine List.map_congr_left fun i hi => ?_
        obtain ⟨u, rfl⟩ := exists_rowNumber (List.mem_range.mp hi)
        rw [h.recoverEntry_eq hlower hb hx, Function.comp_apply, byNumber_rowNumber]
      refine ⟨_, ?_, .ofRange _ _⟩
      rw [if_neg (by decide), hentries]
      rfl

end Recovery

/-! ## The difference -/

section Difference

variable {α : Type} [MeasuredScalar α]

/-- The sizes of the entries of a vector, zero among them. -/
def sizes (xs : List α) : Set α := insert 0 {y | ∃ x ∈ xs, |x| = y}

/-- Nothing is larger than the norm, and some entry is as large. -/
theorem isGreatest_infNorm (xs : Array α) : IsGreatest (sizes xs.toList) (infNorm xs) := by
  have hfold : ∀ (entries : List α) (norm : α),
      IsGreatest (insert norm {y | ∃ x ∈ entries, |x| = y})
      (entries.foldl (fun norm x => Scalar.larger norm (Scalar.abs x)) norm) := by
    intro entries
    induction entries with
    | nil =>
        intro norm
        refine ⟨Set.mem_insert norm _, ?_⟩
        rintro y (rfl | ⟨x, hx, -⟩)
        · exact le_rfl
        · cases hx
    | cons x entries ih =>
        intro norm
        rw [List.foldl_cons, abs_eq_abs, larger_eq_max]
        obtain ⟨hmem, hupper⟩ := ih (max norm |x|)
        have hmax := hupper (Set.mem_insert _ _)
        constructor
        · rcases hmem with heq | ⟨x', hx', heq⟩
          · rcases max_choice norm |x| with hnorm | hentry
            · exact Or.inl (heq.trans hnorm)
            · exact Or.inr ⟨x, List.mem_cons_self, (heq.trans hentry).symm⟩
          · exact Or.inr ⟨x', List.mem_cons_of_mem _ hx', heq⟩
        · rintro y (rfl | ⟨x', hx', rfl⟩)
          · exact (le_max_left _ _).trans hmax
          · rcases List.mem_cons.mp hx' with rfl | hx'
            · exact (le_max_right _ _).trans hmax
            · exact hupper (Or.inr ⟨x', hx', rfl⟩)
  rw [infNorm, ← Array.foldl_toList]
  exact hfold xs.toList 0

/-- What is left of `b` in each row. -/
def difference (b product : Array α) : List α := (product.zipWith (fun y z => z - y) b).toList

theorem residualNorm_spec {matrix : Csc α} {x product : Array α}
    (h : matrix.symmetricMulVec x = some product) (b : Array α) :
    ∃ norm, residualNorm matrix b x = some norm ∧ IsGreatest (sizes (difference b product)) norm :=
  ⟨_, by rw [residualNorm, h]; rfl, isGreatest_infNorm _⟩

theorem residualNorm_eq_zero {matrix : Csc α} {b x : Array α}
    (h : matrix.symmetricMulVec x = some b) : residualNorm matrix b x = some 0 := by
  obtain ⟨norm, hnorm, hmem, -⟩ := residualNorm_spec h b
  rw [hnorm]
  rcases hmem with heq | ⟨y, hy, rfl⟩
  · exact congrArg some heq
  · rw [difference, Array.mem_toList_iff] at hy
    obtain ⟨i, hi, rfl⟩ := Array.mem_iff_getElem.mp hy
    rw [Array.getElem_zipWith, sub_self, abs_zero]

/-- A solver in order passes its trial. -/
theorem Current.trial_spec {method : Elimination.Method} {q : Problem α} {sigma : α}
    {polish : Bool} {s : Solver α} (h : Current method sigma polish q s (.ok ()))
    (hsigma : 0 < sigma) (hpos : ∀ r ∈ q.steps.toList, 0 < r) :
    ∃ x system t, (s.solve (demoRightHandSide (q.p.ncols + q.a.nrows))).run = some (.ok x) ∧
      (assemble q.p q.a sigma (lowerOf sigma q.steps polish) false).run = some (.ok system) ∧
      (s.trial q.p q.a).run = some (.ok t) ∧
      t.rightHandSide = demoRightHandSide (q.p.ncols + q.a.nrows) ∧
      s.recover t.rightHandSide x = some t.solution ∧
      system.matrix.symmetricMulVec t.solution = some t.rightHandSide ∧
      residualNorm system.matrix t.rightHandSide t.solution = some t.residual ∧
      t.residual = 0 := by
  obtain ⟨hn, hm, hs, -, hlow⟩ := h.fields
  obtain ⟨b, hb⟩ : ∃ b : Array α, b = demoRightHandSide (q.p.ncols + q.a.nrows) := ⟨_, rfl⟩
  have hsize : b.size = q.p.ncols + q.a.nrows := by simp [hb, demoRightHandSide]
  obtain ⟨x, z, hsolve, hx⟩ := h.exists_answer (fun _ h => nomatch h) hsize
  obtain ⟨y, hrecover, hy⟩ := h.recover_spec
    (fun j hj => (lowerOf_value_pos hsigma h.stepsFit hpos hj).ne') hsize hx
  obtain ⟨cells, slots, hassemble, hbuilt⟩ := assemble_spec h.blocks sigma false
  obtain ⟨product, hproduct, hvalue⟩ :=
    (assembled_of_built h.blocks hbuilt).symmetricMulVec_spec h.blocks hy
  -- The recovered vector is the solution, and the product with it the right-hand side.
  obtain rfl : product = b := by
    refine hvalue.ext (hsize ▸ Tabulates.self b 0) fun i hi => ?_
    obtain ⟨u, rfl⟩ := exists_rowNumber hi
    rw [byNumber_rowNumber]
    exact congrFun ((hx.solution_iff z).mpr rfl) u
  have hresidual := residualNorm_eq_zero hproduct
  refine ⟨x, _, ⟨product, y, 0⟩, hb ▸ hsolve, hassemble, ?_, hb, hrecover, hproduct, hresidual, rfl⟩
  rw [trial, hn, hm, hs, hlow, ← hb, Checked.run_bind_ok hsolve, hrecover, Checked.run_some_bind,
    Checked.run_bind_ok (Checked.run_adapt_eq_ok.mpr hassemble), hresidual]
  rfl

/-- A solver that has been set up for the triangle of a matrix solves the right-hand side of its
trial, and the system assembled anew confirms it: what is reported is, for any vector, how much its
product with the matrix misses where it misses most, and for the solution it is zero. -/
theorem trial_exact {method : Elimination.Method} {p a : Csc α} {given : Option (Array α)}
    {settings : Settings α} {polish : Bool} {s : Solver α}
    (h : (p.upperTriangle.bind fun upper => (initWith method upper a given settings polish).run) =
      some (.ok s)) :
    ∃ upper x system t, p.upperTriangle = some upper ∧
      (s.solve (demoRightHandSide (upper.ncols + a.nrows))).run = some (.ok x) ∧
      (assemble upper a settings.sigma (lowerOf settings.sigma (givenSteps settings given) polish)
        false).run = some (.ok system) ∧
      (s.trial upper a).run = some (.ok t) ∧
      t.rightHandSide = demoRightHandSide (upper.ncols + a.nrows) ∧
      s.recover t.rightHandSide x = some t.solution ∧
      system.matrix.symmetricMulVec t.solution = some t.rightHandSide ∧
      residualNorm system.matrix t.rightHandSide t.solution = some t.residual ∧
      (∀ b y product, system.matrix.symmetricMulVec y = some product →
        ∃ norm, residualNorm system.matrix b y = some norm ∧
          IsGreatest (sizes (difference b product)) norm) ∧
      t.residual = 0 := by
  obtain ⟨upper, hupper, hinit⟩ := Option.bind_eq_some_iff.mp h
  obtain ⟨hsteps, hcurrent⟩ := current_of_initWith hinit
  obtain ⟨hsigma, -, hpos⟩ := positive_of_chooseSteps hsteps
  obtain ⟨x, system, t, hsolve, hassemble, hrun, hright, hrecover, hproduct, hresidual, hzero⟩ :=
    hcurrent.trial_spec hsigma hpos
  exact ⟨upper, x, system, t, hupper, hsolve, hassemble, hrun, hright, hrecover, hproduct,
    hresidual, fun b y product hy => residualNorm_spec hy b, hzero⟩

end Difference

/-- The form of `bowl` with both of its triangles. -/
def wholeBowl : Csc ℚ := ⟨2, 2, #[0, 2, 4], #[0, 1, 0, 1], #[2, 1, 1, 3]⟩

theorem upperTriangle_wholeBowl : wholeBowl.upperTriangle = some bowl := by rfl

/-- It is accepted with the constraint `plane`, in either mode. -/
theorem exists_solver_wholeBowl (amd : Elimination.Routine) (polish : Bool) :
    ∃ s, (init amd bowl plane none ⟨1, 5, .natural, 10⟩ polish).run = some (.ok s) := by
  have hbowl : bowl.Valid := check_eq_ok.mp (by decide)
  have hb : Blocks bowl plane (.uniform (5 : ℚ)) :=
    ⟨hbowl, (checkUpper_eq_ok hbowl).mp (by decide), check_eq_ok.mp (by decide), rfl, trivial⟩
  have horder : ∀ system,
      (assemble bowl plane 1 (lowerOf 1 (.uniform 5) polish) (!polish)).run = some (.ok system) →
        (Elimination.natural.order (.ofMatrix system.matrix)).run = some (.ok #[0, 1, 2]) := by
    intro system hsystem
    have hn : (Elimination.Pattern.ofMatrix system.matrix).n = 3 :=
      (layout_of_assemble hsystem).ncols_eq
    rw [Elimination.natural, Checked.run_bind_ok (checks_ofMatrix_assemble hsystem).1, hn]
    rfl
  obtain ⟨_, _, _, _, hst, -, -, -, -, hinit⟩ :=
    setup_of_positiveDefinite hb positiveDefinite_bowl one_pos (by decide) horder (by decide)
  have hrun := hinit ⟨1, 5, .natural, 10⟩ none rfl (by rfl)
  rw [if_pos (hst.fillCount_le (by decide))] at hrun
  exact ⟨_, hrun⟩

theorem trial_exact_wholeBowl :
    wholeBowl.upperTriangle = some bowl ∧
      ∀ amd polish, ∃ s t,
        (init amd bowl plane none ⟨1, 5, .natural, 10⟩ polish).run = some (.ok s) ∧
        (s.trial bowl plane).run = some (.ok t) ∧ t.rightHandSide = demoRightHandSide 3 ∧
        t.residual = 0 := by
  refine ⟨upperTriangle_wholeBowl, fun amd polish => ?_⟩
  obtain ⟨s, hs⟩ := exists_solver_wholeBowl amd polish
  obtain ⟨upper, x, system, t, hupper, -, -, hrun, hright, -, -, -, -, hzero⟩ :=
    trial_exact (p := wholeBowl) (by rw [upperTriangle_wholeBowl]; exact hs)
  obtain rfl := Option.some.inj (upperTriangle_wholeBowl.symm.trans hupper)
  exact ⟨s, t, hs, hrun, hright, hzero⟩

end Solver

end Saddle
