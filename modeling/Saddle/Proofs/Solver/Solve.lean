import Mathlib.LinearAlgebra.Matrix.NonsingularInverse
import Saddle.Proofs.Factor.Solve
import Saddle.Proofs.Kkt.Dense
import Saddle.Proofs.Solver.Setup

/-!
# What a solver answers

The right-hand side is read in the order of elimination, the factored system solved
and the solution written back under the old numbers. So a row gets the entry that
the substitutions have found under its new number, and in exact arithmetic the
vector of these solves the saddle point system. For polishing that is the answer. An
iteration wants something else of its constraints, which is computed from the
right-hand side and the solution, row by row.
-/

namespace Saddle.Solver

open Csc Kkt Factor Access

variable {α : Type}

section Any

variable [Scalar α]

/-! ## There and back -/

/-- Values written under the old numbers are found by the new ones. -/
theorem foldlM_write_old {N : Nat} {r : Elimination.Renumbering} {old new : Nat → Nat}
    (hr : Elimination.Renumbers N r old new) {ys : Array α} {y : Nat → α}
    (hys : Tabulates ys N y) :
    ∃ xs, (r.oldOf.toList.zip ys.toList).foldlM (fun x (e : Nat × α) => write x e.1 e.2)
        (Array.replicate N 0) = some xs ∧ Tabulates xs N fun i => y (new i) := by
  obtain ⟨xs, hrun, hxs⟩ := foldlM_range_total (n := N)
    (f := fun x k => write x (old k) (y k)) (s := Array.replicate N 0)
    (fun k xs => Tabulates xs N fun i => if new i < k then y (new i) else 0)
    ((Tabulates.replicate N 0).congr fun i _ => (if_neg (Nat.not_lt_zero _)).symm) (by
      intro k xs hk hxs
      obtain ⟨ys, hwrite, hys⟩ := hxs.write (hr.old_lt k hk) (y k)
      refine ⟨ys, hwrite, hys.congr fun i hi => ?_⟩
      rw [Function.update_apply]
      by_cases hik : i = old k
      · rw [if_pos hik, hik, hr.new_old k hk, if_pos (Nat.lt_succ_self k)]
      · have hne : new i ≠ k := fun heq => hik (by rw [← heq, hr.old_new i hi])
        rw [if_neg hik]
        congr 1
        rw [eq_iff_iff]
        omega)
  refine ⟨xs, ?_, hxs.congr fun i hi => if_pos (hr.new_lt i hi)⟩
  rw [hr.oldOf.toList_eq, hys.toList_eq, List.zip_map', List.foldlM_map]
  exact hrun

/-- The solution under the numbers that the rows had first. -/
def solutionAt (f : Factorization α) (N : Nat) (old new : Nat → Nat) (b : Nat → α) (i : Nat) : α :=
  substitute f.l.col (f.dInv.getD · 0) N (fun k => b (old k)) (new i)

/-- The entry of the answer in row `i`, from the right-hand side `b` and the solution `z`. -/
def answerAt (polish : Bool) (n : Nat) (steps : PerConstraint α) (b z : Nat → α) (i : Nat) : α :=
  if polish = true ∨ i < n then z i else b i + steps.inverse.value (i - n) * z i

section Prepared

variable {method : Elimination.Method} {p a : Csc α} {sigma : α} {lower : PerConstraint α}
  {track : Bool} {old new : Nat → Nat} {st : Stages α} {steps : PerConstraint α}
  {numeric : Numeric α} {b : Array α} {v : Nat → α}

theorem Prepared.n_eq (h : Prepared method p a sigma lower track old new st) :
    st.symbolic.n = p.ncols + a.nrows := by
  rw [h.analyzed.n_eq, h.assembled.ncols_eq]

theorem Prepared.solveSystem_spec (h : Prepared method p a sigma lower track old new st)
    (steps : PerConstraint α) (polish : Bool) (hf : Fits st.symbolic numeric.toFactorization)
    (hb : Tabulates b (p.ncols + a.nrows) v) :
    ∃ xs, (st.solver p a sigma steps polish numeric).solveSystem b = some xs ∧
      Tabulates xs (p.ncols + a.nrows)
        (solutionAt numeric.toFactorization (p.ncols + a.nrows) old new v) := by
  have hpermuted : st.renumbering.oldOf.toList.mapM (b[·]?) =
      some ((List.range (p.ncols + a.nrows)).map fun k => v (old k)) := by
    rw [mapM_eq_some, h.renumbers.oldOf.toList_eq, List.map_map, List.map_map]
    refine List.map_congr_left fun k hk => ?_
    exact hb.get _ (h.renumbers.old_lt k (List.mem_range.mp hk))
  have hdInv : ∀ i < st.symbolic.n, numeric.dInv[i]? = some (numeric.dInv.getD i 0) := by
    intro i hi
    rw [← hf.size_dInv] at hi
    exact (Tabulates.self numeric.dInv 0).get i hi
  have hread : Tabulates ((List.range (p.ncols + a.nrows)).map fun k => v (old k)).toArray
      st.symbolic.n fun k => v (old k) := by
    rw [h.n_eq]
    exact Tabulates.ofRange _ _
  obtain ⟨ys, hsolve, hys⟩ := hf.solve_spec h.analyzed hread hdInv
  rw [h.n_eq] at hys
  obtain ⟨xs, hwrite, hxs⟩ := foldlM_write_old h.renumbers hys
  refine ⟨xs, ?_, hxs⟩
  have holdOf : (st.solver p a sigma steps polish numeric).oldOf = st.renumbering.oldOf := rfl
  have hnumeric : (st.solver p a sigma steps polish numeric).numeric = numeric := rfl
  rw [solveSystem, holdOf, hnumeric, hb.size_eq]
  simp only [Option.bind_eq_bind, hpermuted, Option.bind_some, hsolve]
  exact hwrite

/-- Every right-hand side of the right length is answered. -/
theorem Prepared.solve_spec (h : Prepared method p a sigma lower track old new st)
    (polish : Bool) (hf : Fits st.symbolic numeric.toFactorization)
    (hsteps : steps.Fits a.nrows) (hb : Tabulates b (p.ncols + a.nrows) v) :
    ∃ xs, ((st.solver p a sigma steps polish numeric).solve b).run = some (.ok xs) ∧
      Tabulates xs (p.ncols + a.nrows) (answerAt polish p.ncols steps v
        (solutionAt numeric.toFactorization (p.ncols + a.nrows) old new v)) := by
  obtain ⟨xs, hsystem, hxs⟩ := h.solveSystem_spec steps polish hf hb
  have hopen : ((st.solver p a sigma steps polish numeric).solve b).run =
      ((st.solver p a sigma steps polish numeric).answer b).map .ok := by
    change ((do
      (checkLength .rightHandSide b.size (p.ncols + a.nrows) : Except (Error α) Unit)
      (st.solver p a sigma steps polish numeric).answer b : Checked (Error α) (Array α))).run = _
    rw [checkLength_eq_ok.mpr hb.size_eq]
    rfl
  rw [hopen, answer, hsystem]
  cases polish with
  | true =>
      refine ⟨xs, rfl, hxs.congr fun i _ => ?_⟩
      rw [answerAt, if_pos (Or.inl rfl)]
  | false =>
      have hentries : (List.range (p.ncols + a.nrows)).mapM
          ((st.solver p a sigma steps false numeric).answerEntry b xs) =
          some ((List.range (p.ncols + a.nrows)).map (answerAt false p.ncols steps v
            (solutionAt numeric.toFactorization (p.ncols + a.nrows) old new v))) := by
        rw [mapM_eq_some, List.map_map]
        refine List.map_congr_left fun i hi => ?_
        rw [List.mem_range] at hi
        change (if i < p.ncols then xs[i]?
          else return (← b[i]?) + (← steps.inverse.get? (i - p.ncols)) * (← xs[i]?)) = _
        rw [hxs.get i hi, hb.get i hi, Function.comp_apply, answerAt]
        by_cases hin : i < p.ncols
        · rw [if_pos hin, if_pos (Or.inr hin)]
        · rw [if_neg hin, if_neg (by simpa using hin),
            (fits_inverse.mpr hsteps).get?_eq (show i - p.ncols < a.nrows by omega)]
          rfl
      refine ⟨_, ?_, Tabulates.ofRange _ _⟩
      change ((do
        return (← (List.range (p.ncols + a.nrows)).mapM
          ((st.solver p a sigma steps false numeric).answerEntry b xs)).toArray :
            Option (Array α))).map Except.ok = _
      rw [hentries]
      rfl

/-- Any other is refused. -/
theorem solve_of_size_ne {s : Solver α} (hb : b.size ≠ s.n + s.m) :
    (s.solve b).run = some (.error (.dimension .rightHandSide (s.n + s.m) b.size)) := by
  rw [solve, checkLength, if_pos hb]
  rfl

end Prepared

end Any

/-! ## In exact arithmetic -/

section Exact

variable [FieldScalar α] {method : Elimination.Method} {p a : Csc α} {sigma : α}
  {lower : PerConstraint α} {track : Bool} {old new : Nat → Nat} {st : Stages α}
  {f : Factorization α}

/-- The solution is one of the saddle point system. -/
theorem Prepared.mulVec_solutionAt (h : Prepared method p a sigma lower track old new st)
    (hstop : (eliminate st.matrix st.symbolic.parent).2 = none)
    (hf : Complete st.matrix st.symbolic (eliminate st.matrix st.symbolic.parent).1 f)
    (b : Nat → α) (u : Fin p.ncols ⊕ Fin a.nrows) :
    (saddle p a sigma lower).mulVec
      (fun w => solutionAt f (p.ncols + a.nrows) old new b (rowNumber w)) u =
        b (rowNumber u) := by
  obtain ⟨hrec, hinv⟩ := reconstructs_eliminate h.valid h.upper h.analyzed hstop
  have hncols := h.assembled.ncols_eq
  have hrow := h.renumbers.new_lt _ (rowNumber_lt u)
  have hsolve := hf.symmetricAt_substitute hrec hinv (fun k => b (old k)) (hncols ▸ hrow)
  rw [hncols, h.assembled.mulVec_eq h.blocks h.renumbers,
    h.renumbers.old_new _ (rowNumber_lt u)] at hsolve
  exact hsolve

/-- And the only one. -/
theorem Prepared.eq_of_mulVec_eq (h : Prepared method p a sigma lower track old new st)
    (hstop : (eliminate st.matrix st.symbolic.parent).2 = none)
    (hf : Complete st.matrix st.symbolic (eliminate st.matrix st.symbolic.parent).1 f)
    {x y : Fin p.ncols ⊕ Fin a.nrows → α}
    (hxy : (saddle p a sigma lower).mulVec x = (saddle p a sigma lower).mulVec y) : x = y := by
  have hsurjective : Function.Surjective (saddle p a sigma lower).mulVec := by
    intro b
    refine ⟨_, funext fun u =>
      (h.mulVec_solutionAt hstop hf (Function.extend rowNumber b 0) u).trans ?_⟩
    exact rowNumber_injective.extend_apply b 0 u
  have hunit := Matrix.mulVec_surjective_iff_isUnit.mp hsurjective
  exact Matrix.mulVec_injective_iff_isUnit.mpr hunit hxy

end Exact

end Saddle.Solver
