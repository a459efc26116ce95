import Saddle.Proofs.Exact
import Saddle.Proofs.Factor.Kernel

/-!
# Factoring into arrays that have been used

A factor that is overwritten still holds what the last run has left there: rows and
values of another matrix, pivots up to the one at which that run stopped, reciprocals
that do not belong to them, and in the workspace the lists of a row that may have ended
anywhere. None of this shows in the result. Of each column the
kernel reads only the stretch that it has filled in this run, of the reciprocals only
those of rows that it has done, and a run that comes to its end has filled the room
of each column. What a run needs of the arrays is that they are large enough, and that is
not lost when it stops early; so any number of runs may have gone before. No law of the
operations is used for any of this, and nothing is asked of the matrix but that it has
been analyzed: its rows need not be in order.

A kernel that is run on new arrays, or on those that other runs have left, is always run
on arrays that are ready for it. What holds of each run on such arrays therefore holds of
factoring and of refactoring at any point of a history, which is stated once for whatever
there is to say of a run.
-/

namespace Saddle.Factor

variable {α : Type} [Scalar α] {a b : Csc α} {s : Symbolic} {f : Numeric α}

/-! ## Histories -/

/-- The factor after it has been overwritten with those of the matrices, one after the other
and however each of these ended. -/
def refactorAll (s : Symbolic) (f : Numeric α) (bs : List (Csc α)) : Option (Numeric α) :=
  bs.foldlM (fun f b => (refactor b s f).map (·.1)) f

/-- The factor is ready after any number of runs. -/
theorem refactorAll_spec (hs : (analyze a).run = some (.ok s)) {bs : List (Csc α)}
    (hbs : ∀ b ∈ bs, Csc.SamePattern b a) (hf : Ready s f) :
    ∃ g, refactorAll s f bs = some g ∧ Ready s g := by
  refine foldlM_total (fun _ g => Ready s g) hf ?_
  rintro done b rest rfl g hg
  obtain ⟨hr, hu, ha⟩ := analyzed_of_samePattern hs (hbs b (by simp))
  obtain ⟨g', hrun, hg', -⟩ := refactor_spec hr hu ha hg
  exact ⟨g', by rw [hrun]; rfl, hg'⟩

/-- So is one that has been made from a matrix of the pattern and overwritten since. -/
theorem ready_of_history (hs : (analyze a).run = some (.ok s)) {b₀ : Csc α}
    (h₀ : Csc.SamePattern b₀ a) {f₀ : Numeric α} (hf₀ : (factor b₀ s).run = some (.ok f₀))
    {bs : List (Csc α)} (hbs : ∀ c ∈ bs, Csc.SamePattern c a) :
    ∃ f, refactorAll s f₀ bs = some f ∧ Ready s f := by
  obtain ⟨hr₀, hu₀, ha₀⟩ := analyzed_of_samePattern hs h₀
  exact refactorAll_spec hs hbs (factor_eq_ok hr₀ hu₀ ha₀ hf₀).2.1

/-- The kernel, run for `b` to factor it or to overwrite what any history of runs has left, comes
from the arrays `f` to `g` and stops at `stop` with `P f g stop`. -/
structure EveryRun (a b : Csc α) (s : Symbolic) (P : Numeric α → Numeric α → Option Nat → Prop) :
    Prop where
  fresh : ∃ f g stop, blank s = some f ∧
    (factor b s).run = some ((outcome stop).map fun _ => g) ∧ P f g stop
  again : ∀ b₀ f₀ bs f, Csc.SamePattern b₀ a → (factor b₀ s).run = some (.ok f₀) →
    (∀ c ∈ bs, Csc.SamePattern c a) → refactorAll s f₀ bs = some f →
    ∃ g stop, refactor b s f = some (g, outcome stop) ∧ P f g stop

/-- What holds of a run on any arrays that are ready holds of every run. -/
theorem everyRun_of_ready (hs : (analyze a).run = some (.ok s)) (hb : Csc.SamePattern b a)
    {P : Numeric α → Numeric α → Option Nat → Prop}
    (hP : ∀ f, Ready s f → ∃ g stop, overwrite b s f = some (g, stop) ∧ P f g stop) :
    EveryRun a b s P := by
  obtain ⟨-, hu, ha⟩ := analyzed_of_samePattern hs hb
  constructor
  · obtain ⟨f, hblank, hf⟩ := exists_blank (α := α) ha
    obtain ⟨g, stop, hrun, h⟩ := hP f hf
    exact ⟨f, g, stop, hblank, factor_of_overwrite hu ha hblank hrun, h⟩
  · intro b₀ f₀ bs f h₀ hf₀ hbs hruns
    obtain ⟨f', hruns', hf⟩ := ready_of_history hs h₀ hf₀ hbs
    obtain rfl := Option.some.inj (hruns'.symm.trans hruns)
    obtain ⟨g, stop, hrun, h⟩ := hP f' hf
    exact ⟨g, stop, refactor_of_overwrite hu ha hf.fits hrun, h⟩

/-! ## Refactoring is factoring -/

/-- One run, on whatever arrays that are ready. -/
theorem refactor_eq_of_ready (hr : a.Readable) (hu : a.Upper) (ha : Analyzed a s)
    (hf : Ready s f) :
    ∃ g h, refactor a s f = some (g, outcome (eliminate a s.parent).2) ∧
      (factor a s).run = some ((outcome (eliminate a s.parent).2).map fun _ => h) ∧
      ((eliminate a s.parent).2 = none → g.toFactorization = h.toFactorization) := by
  obtain ⟨g, hagain, -, hg⟩ := refactor_spec hr hu ha hf
  obtain ⟨h, hafresh, -, hh⟩ := factor_spec hr hu ha
  exact ⟨g, h, hagain, hafresh, fun hstop => (hg hstop).unique ha (hh hstop)⟩

/-- What is refused is not touched. -/
theorem eq_of_refused {g : Numeric α} {e : Error} (h : refactor a s f = some (g, .error e))
    (he : ∀ k, e ≠ .zeroPivot k) : g = f := by
  rw [refactor] at h
  cases hcheck : checkRefactor a s f with
  | error e' =>
      rw [hcheck] at h
      cases h
      rfl
  | ok _ =>
      rw [hcheck, Option.map_eq_some_iff] at h
      obtain ⟨⟨g', stopped⟩, -, h⟩ := h
      cases stopped with
      | none => cases h
      | some k =>
          cases h
          exact absurd rfl (he k)

/-- Refactoring is factoring afresh, whatever runs went before; and a factor that is refused
is left as it is. -/
theorem refactor_eq_factor (hs : (analyze a).run = some (.ok s)) {b₀ : Csc α}
    (h₀ : Csc.SamePattern b₀ a) {f₀ : Numeric α} (hf₀ : (factor b₀ s).run = some (.ok f₀))
    {bs : List (Csc α)} (hbs : ∀ c ∈ bs, Csc.SamePattern c a) (hb : Csc.SamePattern b a) :
    ∃ f, refactorAll s f₀ bs = some f ∧
      (∃ g h r, refactor b s f = some (g, r) ∧ (factor b s).run = some (r.map fun _ => h) ∧
        (r = .ok () ∧ g.toFactorization = h.toFactorization ∨
          ∃ k, r = .error (.zeroPivot k))) ∧
      ∀ c s' g e, refactor c s' f = some (g, .error e) → (∀ k, e ≠ .zeroPivot k) → g = f := by
  obtain ⟨hr, hu, ha⟩ := analyzed_of_samePattern hs hb
  obtain ⟨f, hruns, hf⟩ := ready_of_history hs h₀ hf₀ hbs
  obtain ⟨g, h, hagain, hafresh, hsame⟩ := refactor_eq_of_ready hr hu ha hf
  refine ⟨f, hruns, ⟨g, h, _, hagain, hafresh, ?_⟩, fun c s' g e => eq_of_refused⟩
  cases hstop : (eliminate b s.parent).2 with
  | none => exact .inl ⟨rfl, hsame hstop⟩
  | some k => exact .inr ⟨k, rfl⟩

/-- A matrix whose second column is not in order, and has its first row twice. -/
def scrambled (x : ℚ) : Csc ℚ := ⟨2, 2, #[0, 1, 4], #[0, 1, 0, 0], #[1, x, 7, 1]⟩

/-- What its analysis finds. -/
def scrambledTree : Symbolic := ⟨2, #[some 1, none], #[1, 0], 1⟩

/-- Its factor, with the second pivot and what is stored as its reciprocal. -/
def scrambledFactor (d dInv : ℚ) (positive : Nat) : Numeric ℚ where
  l := ⟨2, 2, #[0, 1, 1], #[1], #[1]⟩
  d := #[1, d]
  dInv := #[1, dInv]
  positive
  work := ⟨#[false, false], #[0, 0], #[0, 0], #[1, 1], #[0, 0]⟩

theorem refactor_eq_factor_scrambled :
    ∃ g h, (analyze (scrambled 2)).run = some (.ok scrambledTree) ∧
      (factor (scrambled 2) scrambledTree).run = some (.ok (scrambledFactor 1 1 2)) ∧
      refactor (scrambled 1) scrambledTree (scrambledFactor 1 1 2) =
        some (scrambledFactor 0 1 1, .error (.zeroPivot 1)) ∧
      refactor (scrambled 5) scrambledTree (scrambledFactor 0 1 1) = some (g, .ok ()) ∧
      (factor (scrambled 5) scrambledTree).run = some (.ok h) ∧
      g.toFactorization = h.toFactorization ∧ g.d = #[1, 4] := by
  have hpattern : ∀ x, Csc.SamePattern (scrambled x) (scrambled 2) :=
    fun x => ⟨rfl, rfl, rfl, rfl, rfl⟩
  have hs : (analyze (scrambled 2)).run = some (.ok scrambledTree) := by decide
  have hf₀ : (factor (scrambled 2) scrambledTree).run = some (.ok (scrambledFactor 1 1 2)) := by
    decide +kernel
  have hstop : refactor (scrambled 1) scrambledTree (scrambledFactor 1 1 2) =
      some (scrambledFactor 0 1 1, .error (.zeroPivot 1)) := by decide +kernel
  have hlast : refactor (scrambled 5) scrambledTree (scrambledFactor 0 1 1) =
      some (scrambledFactor 4 (1 / 4) 2, .ok ()) := by decide +kernel
  have hbs : ∀ c ∈ [scrambled 1], Csc.SamePattern c (scrambled 2) := fun c hc =>
    List.mem_singleton.mp hc ▸ hpattern 1
  obtain ⟨f, hruns, ⟨g, h, r, hagain, hafresh, hsame⟩, -⟩ :=
    refactor_eq_factor hs (hpattern 2) hf₀ hbs (hpattern 5)
  rw [refactorAll, List.foldlM_cons, hstop] at hruns
  obtain rfl := Option.some.inj hruns
  rw [hlast, Option.some.injEq, Prod.mk.injEq] at hagain
  obtain ⟨rfl, rfl⟩ := hagain
  obtain ⟨-, heq⟩ | ⟨k, hk⟩ := hsame
  · exact ⟨_, h, hs, hf₀, hstop, hlast, hafresh, heq, rfl⟩
  · cases hk

end Saddle.Factor
