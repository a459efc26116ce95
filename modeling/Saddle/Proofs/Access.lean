import Mathlib.Algebra.Ring.Nat
import Mathlib.Data.List.Induction
import Mathlib.Data.List.Perm.Subperm
import Mathlib.Logic.Function.Basic
import Saddle.Access

/-!
# Accesses that succeed

A kernel that stays inside its arrays computes what the same kernel with total
accesses would. The lemmas here say so once for each access, in the form the
later proofs use: given the bound, the result is a named array, and what the
next access reads from it is known.

Loops come as rules. An invariant is carried over the part of the list that has
been walked, and each step has to succeed; so a rule that ends in an invariant
also says that the loop never left its arrays. `Checked` adds refusals to that,
and its rules tell the two apart: a step that refuses ends the loop, and a loop
that was not refused has refused nowhere.
-/

namespace Saddle

variable {β γ ε ε' σ : Type}

/-! ## Loops -/

/-- A loop all of whose steps succeed, each keeping an invariant of the part
walked so far. -/
theorem foldlM_total {l : List β} {f : σ → β → Option σ} (I : List β → σ → Prop) {s : σ}
    (h0 : I [] s)
    (hstep : ∀ p x q, l = p ++ x :: q → ∀ s, I p s →
      ∃ s', f s x = some s' ∧ I (p ++ [x]) s') :
    ∃ s', l.foldlM f s = some s' ∧ I l s' := by
  have walk : ∀ (q p : List β) (s : σ), l = p ++ q → I p s →
      ∃ s', q.foldlM f s = some s' ∧ I l s' := by
    intro q
    induction q with
    | nil =>
        intro p s hl hs
        rw [List.append_nil] at hl
        exact ⟨s, rfl, hl ▸ hs⟩
    | cons x q ih =>
        intro p s hl hs
        obtain ⟨s₁, h₁, hs₁⟩ := hstep p x q hl s hs
        obtain ⟨s', h', hs'⟩ := ih (p ++ [x]) s₁ (by rw [hl]; simp) hs₁
        refine ⟨s', ?_, hs'⟩
        rw [List.foldlM_cons, h₁]
        exact h'
  exact walk l [] s rfl h0

/-- A list that splits at `x` splits the numbers below `n` at the length of
what is before it. -/
theorem range_split {n x : Nat} {p q : List Nat} (h : List.range n = p ++ x :: q) :
    x = p.length ∧ p.length < n := by
  have hlen := congrArg List.length h
  have hget : (List.range n)[p.length]? = some x := by rw [h]; simp
  simp only [List.length_range, List.length_append, List.length_cons] at hlen
  rw [List.getElem?_range (by omega)] at hget
  exact ⟨(Option.some.inj hget).symm, by omega⟩

/-- Numbers that are all different and as many as there are below `n` leave none of these out. -/
theorem perm_range_of_nodup {xs : List Nat} {n : Nat} (hnodup : xs.Nodup) (hlt : ∀ x ∈ xs, x < n)
    (hlength : xs.length = n) : xs.Perm (List.range n) := by
  have hsubset : xs ⊆ List.range n := fun x hx => List.mem_range.mpr (hlt x hx)
  refine (List.subperm_of_subset hnodup hsubset).perm_of_length_le ?_
  rw [List.length_range, hlength]

theorem foldlM_range_total {n : Nat} {f : σ → Nat → Option σ} (I : Nat → σ → Prop) {s : σ}
    (h0 : I 0 s)
    (hstep : ∀ k s, k < n → I k s → ∃ s', f s k = some s' ∧ I (k + 1) s') :
    ∃ s', (List.range n).foldlM f s = some s' ∧ I n s' := by
  have h := foldlM_total (l := List.range n) (f := f) (fun p s => I p.length s) (s := s) h0
    (by
      intro p x q hl s hs
      obtain ⟨rfl, hlt⟩ := range_split hl
      simpa using hstep _ s hlt hs)
  simpa using h

/-- What each step of a loop keeps is there after a loop that ended. -/
theorem foldlM_keeps {l : List β} {f : σ → β → Option σ} {I : σ → Prop}
    (hstep : ∀ s x s', I s → f s x = some s' → I s') {s s' : σ} (h : l.foldlM f s = some s')
    (h0 : I s) : I s' := by
  induction l generalizing s with
  | nil =>
      obtain rfl : s = s' := by simpa using h
      exact h0
  | cons x l ih =>
      rw [List.foldlM_cons, Option.bind_eq_bind, Option.bind_eq_some_iff] at h
      obtain ⟨t, ht, h⟩ := h
      exact ih h (hstep s x t h0 ht)

/-- A loop that carries something along computes what it would without. -/
theorem foldlM_fst {l : List β} {f : σ → β → Option σ} {g : σ × γ → β → Option (σ × γ)}
    (hstep : ∀ s x, (g s x).map (·.1) = f s.1 x) (s : σ × γ) :
    (l.foldlM g s).map (·.1) = l.foldlM f s.1 := by
  induction l generalizing s with
  | nil => rfl
  | cons x l ih =>
      rw [List.foldlM_cons, List.foldlM_cons, ← hstep]
      cases g s x with
      | none => rfl
      | some s' => exact ih s'

/-- A list is mapped without a failure if each of its elements is. -/
theorem mapM_eq_some {f : β → Option γ} {l : List β} {r : List γ} :
    l.mapM f = some r ↔ l.map f = r.map some := by
  induction l generalizing r with
  | nil => cases r <;> simp
  | cons x l ih =>
      rw [List.mapM_cons, List.map_cons]
      cases hx : f x with
      | none => cases r <;> simp
      | some y =>
          cases r with
          | nil => cases h : l.mapM f <;> simp
          | cons z r =>
              rw [List.map_cons, List.cons.injEq, Option.some.injEq, ← ih]
              cases h : l.mapM f <;> simp [eq_comm]

theorem exists_mapM {f : β → Option γ} {l : List β} (h : ∀ x ∈ l, ∃ y, f x = some y) :
    ∃ r, l.mapM f = some r := by
  induction l with
  | nil => exact ⟨[], rfl⟩
  | cons x l ih =>
      rw [List.forall_mem_cons] at h
      obtain ⟨y, hy⟩ := h.1
      obtain ⟨r, hr⟩ := ih h.2
      exact ⟨y :: r, by rw [List.mapM_cons, hy, hr]; rfl⟩

theorem exists_of_mem_mapM {f : β → Option γ} {l : List β} {r : List γ}
    (h : l.mapM f = some r) {y : γ} (hy : y ∈ r) : ∃ x ∈ l, f x = some y := by
  have hmem : some y ∈ l.map f := by
    rw [mapM_eq_some.mp h]
    exact List.mem_map_of_mem hy
  exact List.mem_map.mp hmem

/-- A loop that fetches each element before it uses it is a loop over what it
fetches. -/
theorem foldlM_fetch {g : β → Option γ} {h : σ → γ → Option σ} {l : List β} {r : List γ}
    (hr : l.mapM g = some r) (s : σ) :
    l.foldlM (fun s x => do h s (← g x)) s = r.foldlM h s := by
  rw [mapM_eq_some] at hr
  induction l generalizing r s with
  | nil =>
      obtain rfl : r = [] := by simpa using hr.symm
      rfl
  | cons x l ih =>
      cases r with
      | nil => simp at hr
      | cons y r =>
          rw [List.map_cons, List.map_cons, List.cons.injEq] at hr
          rw [List.foldlM_cons, List.foldlM_cons, hr.1]
          exact congrArg (h s y >>= ·) (funext fun s' => ih hr.2 s')

/-! ## Checks one after the other -/

theorem mapError_eq_ok {f : ε → ε'} {x : Except ε β} {y : β} :
    x.mapError f = .ok y ↔ x = .ok y := by
  cases x <;> simp [Except.mapError]

theorem bind_eq_ok {x : Except ε γ} {f : γ → Except ε β} {y : β} :
    x >>= f = .ok y ↔ ∃ z, x = .ok z ∧ f z = .ok y := by
  cases x <;> simp [bind, Except.bind]

theorem mapError_eq_error {f : ε → ε'} {x : Except ε β} {e : ε'} :
    x.mapError f = .error e ↔ ∃ cause, x = .error cause ∧ f cause = e := by
  cases x <;> simp [Except.mapError]

theorem bind_eq_error {x : Except ε γ} {f : γ → Except ε β} {e : ε} :
    x >>= f = .error e ↔ x = .error e ∨ ∃ z, x = .ok z ∧ f z = .error e := by
  cases x <;> simp [bind, Except.bind]

theorem bind_pure_eq_error {x : Except ε γ} {f : γ → β} {e : ε} :
    (x >>= fun y => pure (f y)) = .error e ↔ x = .error e := by
  cases x <;> simp [bind, Except.bind, pure, Except.pure]

/-- A run that fails does so at one of its steps, which it has reached. -/
theorem exists_of_foldlM_eq_error {f : σ → β → Except ε σ} {l : List β} {s : σ} {e : ε}
    (h : l.foldlM f s = .error e) :
    ∃ p x q t, l = p ++ x :: q ∧ p.foldlM f s = .ok t ∧ f t x = .error e := by
  induction l generalizing s with
  | nil => cases h
  | cons x l ih =>
      rw [List.foldlM_cons, bind_eq_error] at h
      rcases h with h | ⟨t, ht, h⟩
      · exact ⟨[], x, l, s, rfl, rfl, h⟩
      · obtain ⟨p, y, q, t', rfl, hp, hy⟩ := ih h
        refine ⟨x :: p, y, q, t', rfl, ?_, hy⟩
        rw [List.foldlM_cons, ht]
        exact hp

/-- What each step of a run that succeeds keeps of the part walked so far is there at its end. -/
theorem foldlM_eq_ok_keeps {f : σ → β → Except ε σ} {I : List β → σ → Prop} {l : List β} {s s' : σ}
    (h0 : I [] s) (hstep : ∀ p t x t', I p t → f t x = .ok t' → I (p ++ [x]) t')
    (h : l.foldlM f s = .ok s') : I l s' := by
  induction l using List.reverseRecOn generalizing s' with
  | nil => exact Except.ok.inj h ▸ h0
  | append_singleton l x ih =>
      rw [List.foldlM_append, bind_eq_ok] at h
      obtain ⟨t, ht, h⟩ := h
      rw [List.foldlM_cons, bind_eq_ok] at h
      obtain ⟨t', ht', h⟩ := h
      exact Except.ok.inj h ▸ hstep l t x t' (ih ht) ht'

/-! ## Lookups -/

/-- A key that no pair so far has is looked up in the new one. -/
theorem lookup_snoc {es : List (Nat × β)} {e : Nat × β} (he : ∀ e' ∈ es, e'.1 ≠ e.1) (x : Nat) :
    (es ++ [e]).lookup x = if x = e.1 then some e.2 else es.lookup x := by
  obtain ⟨key, value⟩ := e
  rw [List.lookup_append, List.lookup_cons, List.lookup_nil]
  by_cases hx : x = key
  · subst hx
    have hnone : es.lookup x = none := by
      rw [List.lookup_eq_none_iff]
      intro e' he'
      simpa [bne_iff_ne] using (he e' he').symm
    simp [hnone]
  · have hne : (x == key) = false := by simpa using hx
    simp [hx, hne]

/-- What is paired with the key last. -/
def lastOf (es : List (Nat × β)) (x : Nat) : Option β := es.reverse.lookup x

@[simp] theorem lastOf_nil (x : Nat) : lastOf ([] : List (Nat × β)) x = none := rfl

theorem lastOf_snoc (es : List (Nat × β)) (e : Nat × β) (x : Nat) :
    lastOf (es ++ [e]) x = if x = e.1 then some e.2 else lastOf es x := by
  rw [lastOf, List.reverse_concat, List.lookup_cons, lastOf]
  by_cases hx : x = e.1
  · simp [hx]
  · have hne : (x == e.1) = false := by simpa using hx
    simp [hx, hne]

theorem lastOf_eq_none {es : List (Nat × β)} {x : Nat} (h : ∀ e ∈ es, e.1 ≠ x) :
    lastOf es x = none := by
  rw [lastOf, List.lookup_eq_none_iff]
  intro e he
  simpa using (h e (List.mem_reverse.mp he)).symm

/-- Among different keys a pair is found under its own. -/
theorem lookup_eq_some_iff_mem {es : List (Nat × β)} (h : (es.map (·.1)).Nodup) {x : Nat} {y : β} :
    es.lookup x = some y ↔ (x, y) ∈ es := by
  rw [List.lookup_eq_some_iff]
  constructor
  · rintro ⟨pre, post, rfl, -⟩
    simp
  · intro hmem
    obtain ⟨pre, post, rfl⟩ := List.append_of_mem hmem
    refine ⟨pre, post, rfl, fun e he => ?_⟩
    rw [List.map_append, List.nodup_append] at h
    rw [bne_iff_ne]
    exact (h.2.2 e.1 (List.mem_map_of_mem he) x (by simp)).symm

theorem lastOf_eq_some_iff_mem {es : List (Nat × β)} (h : es.Pairwise (·.1 ≠ ·.1)) {x : Nat}
    {y : β} : lastOf es x = some y ↔ (x, y) ∈ es := by
  have hkeys : (es.reverse.map (·.1)).Nodup := by
    rw [List.Nodup, List.pairwise_map, List.pairwise_reverse]
    exact h.imp Ne.symm
  rw [lastOf, lookup_eq_some_iff_mem hkeys, List.mem_reverse]

/-- In a list without repetitions an element is numbered by its place. -/
theorem lookup_zipIdx {xs : List Nat} (h : xs.Nodup) {x k : Nat} :
    xs.zipIdx.lookup x = some k ↔ xs[k]? = some x := by
  rw [lookup_eq_some_iff_mem (by rwa [List.zipIdx_map_fst]), List.mk_mem_zipIdx_iff_getElem?]

/-! ## Refusals -/

namespace Checked

theorem run_bind (x : Checked ε β) (f : β → Checked ε γ) :
    (x >>= f).run =
      match x.run with
      | none => none
      | some (.error e) => some (.error e)
      | some (.ok b) => (f b).run := by
  rw [ExceptT.run_bind]
  cases x.run with
  | none => rfl
  | some r => cases r <;> rfl

theorem run_bind_ok {x : Checked ε β} {f : β → Checked ε γ} {b : β}
    (h : x.run = some (.ok b)) : (x >>= f).run = (f b).run := by
  rw [run_bind, h]

@[simp] theorem run_some_bind (b : β) (f : β → Checked ε γ) :
    ((liftM (some b) : Checked ε β) >>= f).run = (f b).run := rfl

@[simp] theorem run_ok_bind (b : β) (f : β → Checked ε γ) :
    ((liftM (.ok b : Except ε β) : Checked ε β) >>= f).run = (f b).run := rfl

theorem run_bind_error {x : Checked ε β} {f : β → Checked ε γ} {e : ε}
    (h : x.run = some (.error e)) : (x >>= f).run = some (.error e) := by
  rw [run_bind, h]

theorem run_bind_eq_ok {x : Checked ε β} {f : β → Checked ε γ} {c : γ} :
    (x >>= f).run = some (.ok c) ↔
      ∃ b, x.run = some (.ok b) ∧ (f b).run = some (.ok c) := by
  rw [run_bind]
  cases x.run with
  | none => simp
  | some r => cases r <;> simp

theorem run_bind_eq_error {x : Checked ε β} {f : β → Checked ε γ} {e : ε} :
    (x >>= f).run = some (.error e) ↔
      x.run = some (.error e) ∨ ∃ b, x.run = some (.ok b) ∧ (f b).run = some (.error e) := by
  rw [run_bind]
  cases x.run with
  | none => simp
  | some r => cases r <;> simp

@[simp] theorem run_pure (b : β) : (pure b : Checked ε β).run = some (.ok b) := rfl

@[simp] theorem run_throw (e : ε) : (throw e : Checked ε β).run = some (.error e) := rfl

@[simp] theorem run_except (x : Except ε β) : (liftM x : Checked ε β).run = some x := rfl

/-- A guard refuses, or lets what follows decide. -/
theorem run_guard {c : Prop} [Decidable c] {e : ε} {k : Checked ε β} :
    (if c then (do throw e; k) else k).run = if c then some (.error e) else k.run := by
  split <;> rfl

theorem run_guard_eq_ok {c : Prop} [Decidable c] {e : ε} {k : Checked ε β} {b : β} :
    (if c then (do throw e; k) else k).run = some (.ok b) ↔ ¬ c ∧ k.run = some (.ok b) := by
  rw [run_guard]
  split <;> simp_all

theorem run_adapt (f : ε → ε') (x : Checked ε β) :
    (ExceptT.adapt f x : Checked ε' β).run = x.run.map (Except.mapError f) := rfl

theorem run_adapt_eq_ok {f : ε → ε'} {x : Checked ε β} {b : β} :
    (ExceptT.adapt f x : Checked ε' β).run = some (.ok b) ↔ x.run = some (.ok b) := by
  rw [run_adapt]
  cases x.run with
  | none => simp
  | some r => cases r <;> simp [Except.mapError]

/-- A loop no step of which refuses. -/
theorem foldlM_total {l : List β} {f : σ → β → Checked ε σ} (I : List β → σ → Prop) {s : σ}
    (h0 : I [] s)
    (hstep : ∀ p x q, l = p ++ x :: q → ∀ s, I p s →
      ∃ s', (f s x).run = some (.ok s') ∧ I (p ++ [x]) s') :
    ∃ s', (l.foldlM f s).run = some (.ok s') ∧ I l s' := by
  have walk : ∀ (q p : List β) (s : σ), l = p ++ q → I p s →
      ∃ s', (q.foldlM f s).run = some (.ok s') ∧ I l s' := by
    intro q
    induction q with
    | nil =>
        intro p s hl hs
        rw [List.append_nil] at hl
        exact ⟨s, rfl, hl ▸ hs⟩
    | cons x q ih =>
        intro p s hl hs
        obtain ⟨s₁, h₁, hs₁⟩ := hstep p x q hl s hs
        obtain ⟨s', h', hs'⟩ := ih (p ++ [x]) s₁ (by rw [hl]; simp) hs₁
        refine ⟨s', ?_, hs'⟩
        rw [List.foldlM_cons, run_bind_ok h₁]
        exact h'
  exact walk l [] s rfl h0

/-- A loop that was not refused has taken each of its steps. -/
theorem exists_step_of_foldlM {f : σ → β → Checked ε σ} {l : List β} {s s' : σ}
    (h : (l.foldlM f s).run = some (.ok s')) {x : β} (hx : x ∈ l) :
    ∃ t t', (f t x).run = some (.ok t') := by
  induction l generalizing s with
  | nil => cases hx
  | cons y l ih =>
      rw [List.foldlM_cons, run_bind_eq_ok] at h
      obtain ⟨t, ht, h⟩ := h
      rcases List.mem_cons.mp hx with rfl | hx
      · exact ⟨s, t, ht⟩
      · exact ih h hx

theorem run_forM_eq_ok {f : β → Checked ε Unit} {l : List β} :
    (l.forM f).run = some (.ok ()) ↔ ∀ x ∈ l, (f x).run = some (.ok ()) := by
  induction l with
  | nil => simp
  | cons x l ih =>
      have hcons : (x :: l).forM f = (f x >>= fun _ => l.forM f) := rfl
      rw [hcons, run_bind_eq_ok, List.forall_mem_cons, ← ih]
      exact ⟨fun ⟨_, h⟩ => h, fun h => ⟨(), h⟩⟩

/-- A loop is refused by one of its steps. -/
theorem exists_of_run_forM_eq_error {f : β → Checked ε Unit} {l : List β} {e : ε}
    (h : (l.forM f).run = some (.error e)) : ∃ x ∈ l, (f x).run = some (.error e) := by
  induction l with
  | nil => cases h
  | cons x l ih =>
      have hcons : (x :: l).forM f = (f x >>= fun _ => l.forM f) := rfl
      rw [hcons, run_bind_eq_error] at h
      rcases h with h | ⟨_, -, h⟩
      · exact ⟨x, List.mem_cons_self, h⟩
      · obtain ⟨y, hy, hrun⟩ := ih h
        exact ⟨y, List.mem_cons_of_mem x hy, hrun⟩

end Checked

/-! ## Arrays -/

namespace Access

variable {xs ys : Array β} {i : Nat} {x : β}

theorem write_of_lt (h : i < xs.size) : write xs i x = some (xs.setIfInBounds i x) := by
  rw [write, dif_pos h, Array.setIfInBounds, dif_pos h]

theorem getElem?_of_write (h : write xs i x = some ys) {q : Nat} (hq : q ≠ i) :
    ys[q]? = xs[q]? := by
  by_cases hi : i < xs.size
  · rw [write_of_lt hi, Option.some.injEq] at h
    rw [← h, Array.getElem?_setIfInBounds, if_neg (Ne.symm hq)]
  · rw [write, dif_neg hi] at h
    cases h

theorem exists_write (h : i < xs.size) (x : β) : ∃ ys, write xs i x = some ys :=
  ⟨_, write_of_lt h⟩

theorem size_of_write (h : write xs i x = some ys) : ys.size = xs.size := by
  rw [write] at h
  split at h
  · rw [← Option.some.inj h, Array.size_set]
  · cases h

theorem getElem?_of_write_self (h : write xs i x = some ys) : ys[i]? = some x := by
  rw [write] at h
  split at h
  · rw [← Option.some.inj h, Array.getElem?_set_self]
  · cases h

theorem adjust_of_lt {f : β → β} (h : i < xs.size) : adjust xs i f = some (xs.modify i f) := by
  rw [adjust, dif_pos h]
  congr 1
  ext j hj hj'
  · simp
  · rw [Array.getElem_set, Array.getElem_modify]
    split <;> simp_all

theorem adjust_push (xs : Array β) (x : β) (f : β → β) :
    adjust (xs.push x) xs.size f = some (xs.push (f x)) := by
  rw [adjust, dif_pos (by simp)]
  refine congrArg some (Array.ext_getElem? fun i => ?_)
  rw [Array.getElem?_set, Array.getElem?_push, Array.getElem?_push]
  by_cases hi : i = xs.size
  · simp [hi]
  · simp [hi, Ne.symm hi]

theorem slice_of_le {start stop : Nat} (h : start ≤ stop) (hs : stop ≤ xs.size) :
    slice xs start stop = some (xs.extract start stop).toList := by
  rw [slice, if_pos ⟨h, hs⟩]

/-- The array holds the values of `f` below `n`, and nothing else. -/
structure Tabulates (xs : Array β) (n : Nat) (f : Nat → β) : Prop where
  size_eq : xs.size = n
  get : ∀ i < n, xs[i]? = some (f i)

namespace Tabulates

variable {n : Nat} {f g : Nat → β}

theorem ext (h : Tabulates xs n f) (h' : Tabulates ys n g) (hfg : ∀ i < n, f i = g i) :
    xs = ys := by
  apply Array.ext_getElem?
  intro i
  rcases Nat.lt_or_ge i n with hi | hi
  · rw [h.get i hi, h'.get i hi, hfg i hi]
  · rw [Array.getElem?_eq_none (by rw [h.size_eq]; exact hi),
      Array.getElem?_eq_none (by rw [h'.size_eq]; exact hi)]

theorem congr (h : Tabulates xs n f) (hfg : ∀ i < n, f i = g i) : Tabulates xs n g :=
  ⟨h.size_eq, fun i hi => by rw [h.get i hi, hfg i hi]⟩

theorem self (xs : Array β) (x : β) : Tabulates xs xs.size (xs.getD · x) :=
  ⟨rfl, fun i hi => by simp [Array.getD, hi]⟩

theorem replicate (n : Nat) (x : β) : Tabulates (Array.replicate n x) n fun _ => x :=
  ⟨by simp, fun i hi => by simp [hi]⟩

theorem toList_eq (h : Tabulates xs n f) : xs.toList = (List.range n).map f := by
  refine List.ext_getElem? fun i => ?_
  rw [Array.getElem?_toList, List.getElem?_map]
  rcases Nat.lt_or_ge i n with hi | hi
  · rw [h.get i hi, List.getElem?_range hi, Option.map_some]
  · rw [Array.getElem?_eq_none (by rw [h.size_eq]; exact hi),
      List.getElem?_eq_none (by rw [List.length_range]; exact hi), Option.map_none]

theorem ofRange (n : Nat) (f : Nat → β) : Tabulates ((List.range n).map f).toArray n f := by
  refine ⟨by simp, fun i hi => ?_⟩
  rw [List.getElem?_toArray, List.getElem?_map, List.getElem?_range hi, Option.map_some]

theorem range (n : Nat) : Tabulates (Array.range n) n id := by
  refine ⟨Array.size_range, fun i hi => ?_⟩
  rw [Array.getElem?_range, if_pos hi]
  rfl

theorem setIfInBounds (h : Tabulates xs n f) (i : Nat) (x : β) :
    Tabulates (xs.setIfInBounds i x) n (Function.update f i x) := by
  refine ⟨by simpa using h.size_eq, fun j hj => ?_⟩
  rw [Array.getElem?_setIfInBounds]
  by_cases hij : i = j
  · subst hij
    simp [h.size_eq, hj]
  · rw [if_neg hij, h.get j hj, Function.update_of_ne (Ne.symm hij)]

theorem modify (h : Tabulates xs n f) (i : Nat) (g : β → β) :
    Tabulates (xs.modify i g) n (Function.update f i (g (f i))) := by
  refine ⟨by simpa using h.size_eq, fun j hj => ?_⟩
  rw [Array.getElem?_modify]
  by_cases hij : i = j
  · subst hij
    simp [h.get i hj]
  · rw [if_neg hij, h.get j hj, Function.update_of_ne (Ne.symm hij)]

theorem write (h : Tabulates xs n f) (hi : i < n) (x : β) :
    ∃ ys, write xs i x = some ys ∧ Tabulates ys n (Function.update f i x) :=
  ⟨_, write_of_lt (by rw [h.size_eq]; exact hi), h.setIfInBounds i x⟩

theorem adjust (h : Tabulates xs n f) (hi : i < n) (g : β → β) :
    ∃ ys, adjust xs i g = some ys ∧ Tabulates ys n (Function.update f i (g (f i))) :=
  ⟨_, adjust_of_lt (by rw [h.size_eq]; exact hi), h.modify i g⟩

end Tabulates

/-! ## Sums -/

/-- Entries added up from the front. -/
theorem Tabulates.accumulate {xs : Array Nat} {n : Nat} {f g : Nat → Nat}
    (h : Tabulates xs (n + 1) f) (hzero : g 0 = f 0)
    (hsucc : ∀ j < n, g (j + 1) = f (j + 1) + g j) :
    ∃ ys, Access.accumulate xs n = some ys ∧ Tabulates ys (n + 1) g := by
  -- Up to `k` the entries have been added up.
  let upTo (k i : Nat) : Nat := if i ≤ k then g i else f i
  have hstart : Tabulates xs (n + 1) (upTo 0) := by
    refine h.congr fun i _ => ?_
    by_cases hi : i ≤ 0
    · rw [Nat.le_zero.mp hi, ← hzero]
      rfl
    · exact (if_neg hi).symm
  obtain ⟨ys, hys, htab⟩ := foldlM_range_total (n := n)
    (I := fun k ys => Tabulates ys (n + 1) (upTo k)) (f := fun sums j => do
      let before ← sums[j]?
      Access.adjust sums (j + 1) (· + before)) hstart fun k ys hk hys => by
    obtain ⟨ys', hadjust, hys'⟩ := hys.adjust (i := k + 1) (by omega) (· + g k)
    refine ⟨ys', ?_, hys'.congr fun i _ => ?_⟩
    · rw [hys.get k (by omega), show upTo k k = g k from if_pos (Nat.le_refl k)]
      exact hadjust
    · rw [Function.update_apply]
      by_cases hi : i = k + 1
      · subst hi
        rw [if_pos rfl, show upTo k (k + 1) = f (k + 1) from if_neg (by omega), ← hsucc k hk]
        exact (if_pos (Nat.le_refl _)).symm
      · rw [if_neg hi]
        simp only [upTo, show (i ≤ k + 1) ↔ (i ≤ k) by omega]
  exact ⟨ys, hys, htab.congr fun i hi => if_pos (Nat.le_of_lt_succ hi)⟩

end Access

end Saddle
