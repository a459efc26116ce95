import Saddle.Proofs.Access

/-!
# Changes in place

An update may compute its result apart and take it over in the end, or it may work on the
arrays themselves. In the second case a refusal that comes late leaves behind what has
been written up to then. A kernel that computes apart hides this: its refusals carry no
state at all. So for statements on what a refused call leaves, the stages of a call are
put together in place as well, each with the state it finds, and shown to come to the
same.
-/

namespace Saddle

/-- A change of a state in place: the state that it leaves, also when it is refused. It is
`none` once it has left its arrays. -/
abbrev InPlace (ε σ : Type) := σ → Option (σ × Except ε Unit)

namespace InPlace

variable {ε σ : Type}

/-- Refuses, or does nothing. -/
def check (result : Except ε Unit) : InPlace ε σ := fun s => some (s, result)

/-- Writes. -/
def change (f : σ → Option σ) : InPlace ε σ := fun s => (f s).map fun s' => (s', .ok ())

/-- The second follows unless the first is refused. -/
def andThen (x y : InPlace ε σ) : InPlace ε σ := fun s =>
  (x s).bind fun
    | (s', .error e) => some (s', .error e)
    | (s', .ok ()) => y s'

/-- Takes over what has been computed apart. -/
def settle (s : σ) (result : Checked ε σ) : Option (σ × Except ε Unit) :=
  result.run.map fun
    | .error e => (s, .error e)
    | .ok s' => (s', .ok ())

variable {x y : InPlace ε σ} {s s' : σ} {e : ε}

theorem andThen_of_error (h : x s = some (s', .error e)) :
    (x.andThen y) s = some (s', .error e) := by
  rw [andThen, h]
  rfl

theorem andThen_of_ok (h : x s = some (s', .ok ())) : (x.andThen y) s = y s' := by
  rw [andThen, h]
  rfl

theorem change_of_some {f : σ → Option σ} (h : f s = some s') :
    change f s = some (s', (.ok () : Except ε Unit)) := by
  rw [change, h]
  rfl

theorem settle_eq_ok {result : Checked ε σ} :
    settle s result = some (s', .ok ()) ↔ result.run = some (.ok s') := by
  rw [settle]
  cases result.run with
  | none => simp
  | some r => cases r <;> simp

/-- With the check in front of the writing, it makes no difference. -/
theorem check_andThen_change (result : Except ε Unit) (f : σ → Option σ) (s : σ) :
    ((check result).andThen (change f)) s = settle s (do result; f s : Checked ε σ) := by
  cases result with
  | error e => rfl
  | ok _ =>
      rw [andThen_of_ok rfl, change, settle, Checked.run_ok_bind]
      cases f s <;> rfl

end InPlace

end Saddle
