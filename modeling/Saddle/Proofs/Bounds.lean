import Saddle.Proofs.Access

/-!
# Staying in bounds

A `Checked` computation ends in one of three ways: with a result, with a refusal, or
because an access has left its arrays. The specifications of the kernels speak of the
first, under hypotheses that make sure of it. Of code that is handed arbitrary data
something weaker is wanted, and without hypotheses: that the third does not happen,
whichever of the other two it is.

The rules below are those of a logic for this reading. A refusal ends a computation
at once and is in bounds, so what follows a check may rely on what the check has
accepted.
-/

namespace Saddle.Checked

variable {β γ σ ε ε' : Type}

/-- No access is out of bounds, and a result, if there is one, has the property. -/
def InBounds (x : Checked ε β) (P : β → Prop) : Prop :=
  ∃ r, x.run = some r ∧ ∀ b, r = .ok b → P b

variable {x : Checked ε β} {P : β → Prop}

theorem run_adapt_error {f : ε → ε'} {e : ε} (h : x.run = some (.error e)) :
    (ExceptT.adapt f x : Checked ε' β).run = some (.error (f e)) := by
  rw [run_adapt, h]
  rfl

theorem inBounds_of_ok {b : β} (h : x.run = some (.ok b)) (hb : P b) : x.InBounds P := by
  refine ⟨.ok b, h, fun b' heq => ?_⟩
  exact Except.ok.inj heq ▸ hb

theorem inBounds_of_error {e : ε} (h : x.run = some (.error e)) : x.InBounds P :=
  ⟨.error e, h, fun _ heq => nomatch heq⟩

@[simp] theorem inBounds_pure {b : β} (hb : P b) : (pure b : Checked ε β).InBounds P :=
  inBounds_of_ok rfl hb

@[simp] theorem inBounds_throw (e : ε) : (throw e : Checked ε β).InBounds P :=
  inBounds_of_error rfl

theorem inBounds_except {r : Except ε β} (h : ∀ b, r = .ok b → P b) :
    (liftM r : Checked ε β).InBounds P :=
  ⟨r, rfl, h⟩

theorem InBounds.mono {Q : β → Prop} (h : x.InBounds P) (hPQ : ∀ b, P b → Q b) :
    x.InBounds Q := by
  obtain ⟨r, hr, hP⟩ := h
  exact ⟨r, hr, fun b hb => hPQ b (hP b hb)⟩

/-- What a result tells of the run may be used. -/
theorem InBounds.of_run {Q : β → Prop} (h : x.InBounds P)
    (hQ : ∀ b, x.run = some (.ok b) → P b → Q b) : x.InBounds Q := by
  obtain ⟨r, hr, hP⟩ := h
  refine ⟨r, hr, fun b hb => hQ b ?_ (hP b hb)⟩
  rw [hr, hb]

theorem InBounds.bind {Q : γ → Prop} {f : β → Checked ε γ} (h : x.InBounds P)
    (hf : ∀ b, P b → (f b).InBounds Q) : (x >>= f).InBounds Q := by
  obtain ⟨r, hr, hP⟩ := h
  cases r with
  | error e => exact inBounds_of_error (run_bind_error hr)
  | ok b =>
      obtain ⟨r', hr', hQ⟩ := hf b (hP b rfl)
      exact ⟨r', (run_bind_ok hr).trans hr', hQ⟩

theorem inBounds_some_bind {Q : γ → Prop} {b : β} {f : β → Checked ε γ}
    (hf : (f b).InBounds Q) : ((liftM (some b) : Checked ε β) >>= f).InBounds Q := hf

/-- What is written after a check that has passed. -/
theorem inBounds_check_write {check : Except ε Unit} {write : Option β}
    (h : check = .ok () → ∃ b, write = some b ∧ P b) :
    (do check; write : Checked ε β).InBounds P := by
  cases check with
  | error e => exact inBounds_of_error rfl
  | ok _ =>
      obtain ⟨b, hb, hP⟩ := h rfl
      exact inBounds_of_ok (congrArg (Option.map Except.ok) hb) hP

/-- What follows a guard may rely on it. -/
theorem inBounds_guard {c : Prop} [Decidable c] {e : ε} (h : ¬ c → x.InBounds P) :
    (if c then (do throw e; x) else x : Checked ε β).InBounds P := by
  by_cases hc : c
  · rw [if_pos hc]
    exact inBounds_of_error rfl
  · rw [if_neg hc]
    exact h hc

theorem InBounds.adapt (h : x.InBounds P) (f : ε → ε') :
    InBounds (ExceptT.adapt f x : Checked ε' β) P := by
  obtain ⟨r, hr, hP⟩ := h
  refine ⟨r.mapError f, by rw [run_adapt, hr]; rfl, fun b hb => ?_⟩
  cases r with
  | error e => nomatch hb
  | ok b' => exact hP b (congrArg Except.ok (Except.ok.inj hb))

theorem inBounds_forM {f : β → Checked ε Unit} {l : List β}
    (h : ∀ y ∈ l, (f y).InBounds fun _ => True) : (l.forM f).InBounds fun _ => True := by
  induction l with
  | nil => exact inBounds_pure trivial
  | cons y l ih =>
      rw [List.forall_mem_cons] at h
      exact h.1.bind fun _ _ => ih h.2

end Saddle.Checked
