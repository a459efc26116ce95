import Saddle.Proofs.Kkt.QuasiDefinite
import Saddle.Proofs.Solver.Setup

/-!
# A convex problem gets a solver

There is no pivoting, so nothing but the signs of the matrix keeps a pivot away from
zero. If the regularized form is positive definite and all step sizes are positive,
the matrix is quasi-definite in any order, and its pivots have the signs of the rows
they belong to. As many of them are then positive as there are variables, and
neither of the two verdicts that stop a setup can fall. What is left is a factor that
has more entries than a number can say, which no problem of moderate size has.
-/

namespace Saddle.Solver

open Csc Kkt Factor

variable {α : Type} [OrderedScalar α]

section Lower

variable {steps : PerConstraint α} {sigma : α} {polish : Bool} {m : Nat}

theorem fits_lowerOf (h : steps.Fits m) : (lowerOf sigma steps polish).Fits m := by
  cases polish with
  | false => exact fits_inverse.mpr h
  | true => trivial

theorem inverse_value_pos (h : steps.Fits m) (hpos : ∀ r ∈ steps.toList, 0 < r) {j : Nat}
    (hj : j < m) : 0 < steps.inverse.value j := by
  cases steps with
  | uniform r => exact one_div_pos.mpr (hpos r (List.mem_singleton_self r))
  | each values =>
      have hlt : j < values.size := by rw [show values.size = m from h]; exact hj
      have hmem : values[j] ∈ values.toList := Array.mem_toList_iff.mpr (Array.getElem_mem hlt)
      simpa [PerConstraint.inverse, PerConstraint.value, PerConstraint.get?, hlt] using
        hpos _ hmem

theorem lowerOf_value_pos (hsigma : 0 < sigma) (h : steps.Fits m)
    (hpos : ∀ r ∈ steps.toList, 0 < r) {j : Nat} (hj : j < m) :
    0 < (lowerOf sigma steps polish).value j := by
  cases polish with
  | false => exact inverse_value_pos h hpos hj
  | true => exact hsigma

end Lower

/-! ## The signs of the pivots -/

theorem countP_old {n m : Nat} {r : Elimination.Renumbering} {old new : Nat → Nat}
    (hr : Elimination.Renumbers (n + m) r old new) :
    (List.range (n + m)).countP (fun k => decide (old k < n)) = n := by
  have hnodup : ((List.range (n + m)).map old).Nodup := by
    refine List.nodup_range.map_on fun j hj k hk hjk => ?_
    rw [← hr.new_old j (List.mem_range.mp hj), hjk, hr.new_old k (List.mem_range.mp hk)]
  have hperm : ((List.range (n + m)).map old).Perm (List.range (n + m)) := by
    refine perm_range_of_nodup hnodup (fun i hi => ?_) (by simp)
    obtain ⟨k, hk, rfl⟩ := List.mem_map.mp hi
    exact hr.old_lt k (List.mem_range.mp hk)
  have hcount := hperm.countP_eq fun i => decide (i < n)
  rw [List.countP_map] at hcount
  refine hcount.trans ?_
  rw [List.range_add, List.countP_append, List.countP_eq_length.mpr (by simp),
    List.countP_eq_zero.mpr (by simp), List.length_range]
  rfl

section Prepared

variable {method : Elimination.Method} {p a : Csc α} {sigma : α} {lower : PerConstraint α}
  {track : Bool} {old new : Nat → Nat} {st : Stages α}

/-- The elimination of a convex problem runs through, with as many positive pivots as there are
variables. -/
theorem Prepared.eliminate_of_positiveDefinite
    (h : Prepared method p a sigma lower track old new st)
    (hpd : PositiveDefinite (p.toSymmetric p.ncols + sigma • 1))
    (hlower : ∀ j < a.nrows, 0 < lower.value j) :
    (eliminate st.matrix st.symbolic.parent).2 = none ∧
      (eliminate st.matrix st.symbolic.parent).1.positive = p.ncols ∧
        ∀ k < p.ncols + a.nrows,
          if old k < p.ncols then 0 < (eliminate st.matrix st.symbolic.parent).1.d k
          else (eliminate st.matrix st.symbolic.parent).1.d k < 0 := by
  obtain ⟨hstop, hsigned⟩ := eliminate_of_quasiDefinite h.valid h.upper h.analyzed
    (h.assembled.quasiDefinite h.blocks h.renumbers hpd hlower)
  rw [h.assembled.ncols_eq] at hsigned
  refine ⟨hstop, hsigned.count.trans (countP_old h.renumbers), fun k hk => ?_⟩
  have hsign := hsigned.sign k hk
  rw [signOf] at hsign
  by_cases hold : old k < p.ncols
  · simpa [hold] using hsign
  · simpa [hold] using hsign

end Prepared

section Setup

variable {method : Elimination.Method} {p a : Csc α} {sigma : α} {steps : PerConstraint α}
  {polish : Bool} {order : Array Nat}

/-- The problem is prepared in the order that the method returns. -/
theorem exists_prepared_of_order {lower : PerConstraint α} {track : Bool} (hb : Blocks p a lower)
    (horder : ∀ system, (assemble p a sigma lower track).run = some (.ok system) →
      (method.order (.ofMatrix system.matrix)).run = some (.ok order))
    (hperm : order.toList.Perm (List.range (p.ncols + a.nrows))) :
    ∃ old new st, Prepared method p a sigma lower track old new st ∧
      st.renumbering.oldOf = order := by
  have hmethod : ∀ system, (assemble p a sigma lower track).run = some (.ok system) →
      ∃ r, (Elimination.renumbering method system.matrix).run = some (.ok r) ∧
        r.oldOf = order := by
    intro system hsystem
    obtain ⟨cells, slots, hassemble, -⟩ := assemble_spec hb sigma track
    rw [hassemble, Option.some.injEq, Except.ok.injEq] at hsystem
    subst hsystem
    exact Elimination.renumbering_of_perm (horder _ hassemble) hperm
  obtain ⟨old, new, st, hst⟩ := exists_prepared hb sigma track fun system hsystem =>
    (hmethod system hsystem).imp fun r hr => hr.1
  refine ⟨old, new, st, hst, ?_⟩
  obtain ⟨system, hassemble, hr⟩ := hst.renumbering_eq
  obtain ⟨r, hr', hr''⟩ := hmethod system hassemble
  rw [hr, Option.some.injEq, Except.ok.injEq] at hr'
  rw [hr', hr'']

theorem setup_of_positiveDefinite (hb : Blocks p a steps)
    (hpd : PositiveDefinite (p.toSymmetric p.ncols + sigma • 1)) (hsigma : 0 < sigma)
    (hpos : ∀ r ∈ steps.toList, 0 < r)
    (horder : ∀ system, (assemble p a sigma (lowerOf sigma steps polish) (!polish)).run =
      some (.ok system) → (method.order (.ofMatrix system.matrix)).run = some (.ok order))
    (hperm : order.toList.Perm (List.range (p.ncols + a.nrows))) :
    ∃ old new st f, Prepared method p a sigma (lowerOf sigma steps polish) (!polish) old new st ∧
      st.renumbering.oldOf = order ∧ (factor st.matrix st.symbolic).run = some (.ok f) ∧
      f.positive = p.ncols ∧
      (∀ k < p.ncols + a.nrows, ∃ i d, order[k]? = some i ∧ f.d[k]? = some d ∧
        if i < p.ncols then 0 < d else d < 0) ∧
      ∀ (settings : Settings α) (given : Option (Array α)), settings.sigma = sigma →
        chooseSteps settings given a.nrows = .ok steps →
          (initWith method p a given settings polish).run =
            some (if fillCount st.matrix ≤ maxSize then .ok (st.solver p a sigma steps polish f)
              else .error (.factor .countOverflow)) := by
  have hlower : Blocks p a (lowerOf sigma steps polish) :=
    ⟨hb.pValid, hb.pUpper, hb.aValid, hb.columns, fits_lowerOf hb.lower⟩
  obtain ⟨old, new, st, hst, holdOf⟩ := exists_prepared_of_order hlower horder hperm
  obtain ⟨hstop, hcount, hsign⟩ := hst.eliminate_of_positiveDefinite hpd fun j hj =>
    lowerOf_value_pos hsigma hb.lower hpos hj
  obtain ⟨f, hfactor, -, hcomplete⟩ := factor_spec hst.valid.readable hst.upper hst.analyzed
  have hf := hcomplete hstop
  refine ⟨old, new, st, f, hst, holdOf, ?_, hf.positive.trans hcount, fun k hk => ?_,
    fun settings given hsettings hsteps => ?_⟩
  · rw [hfactor, hstop]
    rfl
  · exact ⟨old k, _, holdOf ▸ hst.renumbers.oldOf.get k hk,
      hf.d.get k (hst.assembled.ncols_eq ▸ hk), hsign k hk⟩
  · subst hsettings
    rw [← hst.total_eq]
    split
    · next htotal =>
      obtain ⟨f', hfactor', hrun, -, -⟩ := initWith_eq hsteps hst htotal
      rw [hfactor, hstop, Option.some.injEq] at hfactor'
      obtain rfl := Except.ok.inj hfactor'
      rw [hrun, Stages.verdict, hstop, hcount, Solver.verdict, checkConvexity,
        if_neg (Nat.lt_irrefl _)]
      rfl
    · next hmany => exact initWith_of_many hsteps hst (Nat.lt_of_not_le hmany)

/-- A form in two variables. -/
def bowl : Csc ℚ := ⟨2, 2, #[0, 1, 3], #[0, 0, 1], #[2, 1, 3]⟩

/-- A constraint on them. -/
def plane : Csc ℚ := ⟨1, 2, #[0, 1, 2], #[0, 0], #[1, 4]⟩

/-- The method that returns the given order. -/
def fixedOrder (order : Array Nat) : Elimination.Method := ⟨"fixed", fun _ => pure order⟩

theorem positiveDefinite_of_one_lt {c d : ℚ} (hc : 1 < c) (hd : 1 < d) :
    PositiveDefinite !![c, 1; 1, d] := by
  intro x hx
  have hform : dotProduct x (!![c, 1; 1, d].mulVec x) =
      (c - 1) * x 0 ^ 2 + (x 0 + x 1) ^ 2 + (d - 1) * x 1 ^ 2 := by
    simp only [dotProduct, Matrix.mulVec, Fin.sum_univ_two, Matrix.of_apply, Matrix.cons_val_zero,
      Matrix.cons_val_one]
    ring
  have h0 := mul_nonneg (sub_pos.mpr hc).le (sq_nonneg (x 0))
  have h1 := mul_nonneg (sub_pos.mpr hd).le (sq_nonneg (x 1))
  have hsum := sq_nonneg (x 0 + x 1)
  have hne : x 0 ≠ 0 ∨ x 1 ≠ 0 := by
    by_contra hzero
    rw [not_or, not_not, not_not] at hzero
    refine hx (funext fun i => ?_)
    fin_cases i
    · exact hzero.1
    · exact hzero.2
  rw [hform]
  rcases hne with hne | hne
  · have := mul_pos (sub_pos.mpr hc) (sq_pos_of_ne_zero hne)
    linarith
  · have := mul_pos (sub_pos.mpr hd) (sq_pos_of_ne_zero hne)
    linarith

theorem positiveDefinite_bowl : PositiveDefinite (bowl.toSymmetric 2 + (1 : ℚ) • 1) := by
  have hbowl : bowl.toSymmetric 2 + (1 : ℚ) • 1 = !![3, 1; 1, 4] := by
    ext i j
    fin_cases i <;> fin_cases j <;> decide +kernel
  rw [hbowl]
  exact positiveDefinite_of_one_lt (by norm_num) (by norm_num)

theorem perm_bowl : #[2, 0, 1].toList.Perm (List.range (bowl.ncols + plane.nrows)) := by decide

theorem order_bowl (system : System ℚ)
    (_ : (assemble bowl plane 1 (lowerOf 1 (.each #[2]) false) (!false)).run = some (.ok system)) :
    ((fixedOrder #[2, 0, 1]).order (.ofMatrix system.matrix)).run = some (.ok #[2, 0, 1]) := rfl

/-- The setup of the form with the constraint, which is eliminated first. -/
theorem exists_solver_bowl :
    ∃ s, (initWith (fixedOrder #[2, 0, 1]) bowl plane (some #[2]) ⟨1, 5, .natural, 10⟩
      false).run = some (.ok s) := by
  have hbowl : bowl.Valid := check_eq_ok.mp (by decide)
  have hb : Blocks bowl plane (.each #[(2 : ℚ)]) :=
    ⟨hbowl, (checkUpper_eq_ok hbowl).mp (by decide), check_eq_ok.mp (by decide), rfl, rfl⟩
  obtain ⟨_, _, _, _, hst, -, -, -, -, hinit⟩ :=
    setup_of_positiveDefinite hb positiveDefinite_bowl one_pos (by decide) order_bowl perm_bowl
  have hrun := hinit ⟨1, 5, .natural, 10⟩ (some #[2]) rfl (by rfl)
  rw [if_pos (hst.fillCount_le (by decide))] at hrun
  exact ⟨_, hrun⟩

end Setup

end Saddle.Solver
