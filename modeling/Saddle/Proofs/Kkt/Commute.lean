import Saddle.Proofs.Kkt.Write

/-!
# Updating, assembling and reordering commute

A system is assembled once and then reordered and updated in any sequence. What it is
after that is what assembling the values it holds by then would give, taken through the
same reorderings. Methods see the pattern alone, and no update changes that; so the
renumberings are those of any other values on the same patterns, and with them the
slots. This is what the invariant says, for all values at once: an update then leads
from the assembly of the old values to that of the new ones, as it does on a system that
has just been reordered.

An update that is refused changes nothing, here as everywhere, so that the values are
those of the updates that were not.
-/

namespace Saddle.Kkt

open Cell Csc Triplets

variable {α : Type}

/-- What a system is assembled from. -/
structure Values (α : Type) where
  /-- The upper triangle of the quadratic form. -/
  p : Csc α
  /-- The constraints. -/
  a : Csc α
  /-- The lower diagonal, but for the sign. -/
  lower : PerConstraint α
deriving DecidableEq

/-- The values fit the blocks of the others. -/
structure Values.Alike (v' v : Values α) : Prop where
  p : SamePattern v'.p v.p
  a : SamePattern v'.a v.a
  lower : v'.lower.Fits v.a.nrows

namespace Change

/-- The values with those of the change. -/
def set (v : Values α) : Change α → Values α
  | .quadratic p changed => { v with p := v.p.overwrite p changed }
  | .constraints a changed => { v with a := v.a.overwrite a changed }
  | .diagonal lower => { v with lower }

/-- There are as many values as before, and those that have changed are among them. -/
def InOrder (v : Values α) : Change α → Prop
  | .quadratic p changed => p.nnz = v.p.nnz ∧ ∀ i ∈ changed.getD [], i < p.nnz
  | .constraints a changed => a.nnz = v.a.nnz ∧ ∀ i ∈ changed.getD [], i < a.nnz
  | .diagonal lower => lower.Fits v.a.nrows

instance (c : Change α) (v : Values α) : Decidable (c.InOrder v) :=
  match c with
  | .quadratic p changed =>
      inferInstanceAs (Decidable (p.nnz = v.p.nnz ∧ ∀ i ∈ changed.getD [], i < p.nnz))
  | .constraints a changed =>
      inferInstanceAs (Decidable (a.nnz = v.a.nnz ∧ ∀ i ∈ changed.getD [], i < a.nnz))
  | .diagonal lower => inferInstanceAs (Decidable (lower.Fits v.a.nrows))

/-- The matrix that comes with the values has the pattern of its block. -/
def Keeps (v : Values α) : Change α → Prop
  | .quadratic p _ => SamePattern p v.p
  | .constraints a _ => SamePattern a v.a
  | .diagonal _ => True

end Change

/-- What an update leaves of the values: it is refused if it is not in order. -/
def Values.after (v : Values α) (c : Change α) : Values α :=
  if c.InOrder v then c.set v else v

/-- A step on a system. -/
inductive Step (α : Type) where
  | reorder (method : Elimination.Method)
  | change (c : Change α)

/-- A system, and the renumberings that it has been through. -/
structure Course (α : Type) where
  /-- The system. -/
  system : System α
  /-- The renumberings, the last one at the end. -/
  renumberings : List Elimination.Renumbering
deriving DecidableEq

/-- What a step leaves of the values. -/
def Values.step (v : Values α) : Step α → Values α
  | .reorder _ => v
  | .change c => v.after c

/-- Whether the step is a reordering. -/
def Step.isReorder : Step α → Bool
  | .reorder _ => true
  | .change _ => false

/-- The system after a step. A reordering has to succeed; an update is made in place, with the
maps that the system has, and may be refused. -/
def Step.take [Scalar α] (sigma : α) (t : Course α) : Step α → Option (Course α)
  | .reorder method =>
      match (t.system.reorder method).run with
      | some (.ok (system, r)) => some ⟨system, t.renumberings ++ [r]⟩
      | _ => none
  | .change c => do
      let maps ← t.system.maps
      let (matrix, _) ← c.store sigma maps t.system.matrix
      return { t with system := ⟨matrix, some maps⟩ }

variable [Scalar α]

/-- The system after some steps. -/
def Course.run (sigma : α) (t : Course α) (steps : List (Step α)) : Option (Course α) :=
  steps.foldlM (Step.take sigma) t

/-- The system holds the values in the order `new`, in slots in which the same reorderings of
any other values would have put those. -/
structure Represents (sigma : α) (reorders : List (Step α)) (v : Values α) (t : Course α)
    (new : Nat → Nat) (slots : Array Nat) : Prop where
  blocks : Blocks v.p v.a v.lower
  labels : Labels (v.p.ncols + v.a.nrows) new
  maps : t.system.maps = some (mapsOf v.p v.a slots)
  assembled : Assembled v.p v.a sigma v.lower new t.system.matrix slots
  replay : ∀ v' : Values α, v'.Alike v →
    ∃ start matrix, (assemble v'.p v'.a sigma v'.lower true).run = some (.ok start) ∧
      Course.run sigma ⟨start, []⟩ reorders =
        some ⟨⟨matrix, some (mapsOf v.p v.a slots)⟩, t.renumberings⟩ ∧
      Assembled v'.p v'.a sigma v'.lower new matrix slots

/-! ## Values of one pattern -/

section Alike

variable {v v' v'' : Values α} {sigma : α} {new : Nat → Nat} {matrix matrix' : Csc α}
  {slots slots' : Array Nat} {c : Change α}

omit [Scalar α] in
theorem Values.Alike.refl (hb : Blocks v.p v.a v.lower) : v.Alike v := ⟨.refl _, .refl _, hb.lower⟩

omit [Scalar α] in
theorem Values.Alike.trans (h : v''.Alike v') (h' : v'.Alike v) : v''.Alike v :=
  ⟨h.p.trans h'.p, h.a.trans h'.a, h'.a.nrows_eq ▸ h.lower⟩

omit [Scalar α] in
theorem Values.Alike.blocks (h : v'.Alike v) (hb : Blocks v.p v.a v.lower) :
    Blocks v'.p v'.a v'.lower :=
  ⟨h.p.valid hb.pValid, h.p.upper hb.pUpper, h.a.valid hb.aValid,
    by rw [h.a.ncols_eq, h.p.ncols_eq, hb.columns], h.a.nrows_eq ▸ h.lower⟩

omit [Scalar α] in
theorem Values.Alike.size_eq (h : v'.Alike v) :
    v'.p.ncols + v'.a.nrows = v.p.ncols + v.a.nrows := by
  rw [h.p.ncols_eq, h.a.nrows_eq]

omit [Scalar α] in
theorem Values.Alike.mapsOf_eq (h : v'.Alike v) (slots : Array Nat) :
    mapsOf v'.p v'.a slots = mapsOf v.p v.a slots := by
  rw [mapsOf, mapsOf, h.p.ncols_eq, h.p.nnz_eq, h.a.nnz_eq, h.a.nrows_eq]

omit [Scalar α] in
theorem alike_set (hb : Blocks v.p v.a v.lower) (hc : c.InOrder v) : (c.set v).Alike v := by
  cases c with
  | quadratic p changed => exact ⟨samePattern_overwrite v.p p changed, .refl _, hb.lower⟩
  | constraints a changed => exact ⟨.refl _, samePattern_overwrite v.a a changed, hb.lower⟩
  | diagonal lower => exact ⟨.refl _, .refl _, hc⟩

omit [Scalar α] in
theorem alike_after (hb : Blocks v.p v.a v.lower) (c : Change α) : (v.after c).Alike v := by
  rw [Values.after]
  split
  · exact alike_set hb ‹_›
  · exact .refl hb

omit [Scalar α] in
theorem alike_foldl (hb : Blocks v.p v.a v.lower) (steps : List (Step α)) :
    (steps.foldl Values.step v).Alike v := by
  induction steps generalizing v with
  | nil => exact .refl hb
  | cons step steps ih =>
      have h : (v.step step).Alike v := by
        cases step with
        | reorder method => exact .refl hb
        | change c => exact alike_after hb c
      exact (ih (h.blocks hb)).trans h

omit [Scalar α] in
theorem Change.InOrder.of_alike (h : v'.Alike v) (hc : c.InOrder v') : c.InOrder v := by
  cases c with
  | quadratic p changed =>
      rw [InOrder, ← h.p.nnz_eq]
      exact hc
  | constraints a changed =>
      rw [InOrder, ← h.a.nnz_eq]
      exact hc
  | diagonal lower =>
      rw [InOrder, ← h.a.nrows_eq]
      exact hc

omit [Scalar α] in
theorem Values.Alike.symm (h : v'.Alike v) (hb : Blocks v.p v.a v.lower) : v.Alike v' :=
  ⟨h.p.symm, h.a.symm, by rw [h.a.nrows_eq]; exact hb.lower⟩

omit [Scalar α] in
theorem Change.Keeps.of_alike (h : v.Alike v') (hc : c.Keeps v) : c.Keeps v' := by
  cases c with
  | quadratic p changed => exact hc.trans h.p
  | constraints a changed => exact hc.trans h.a
  | diagonal lower => trivial

/-- The slots do not depend on the values, nor does the pattern. -/
theorem Values.Alike.samePattern (h : v'.Alike v)
    (hm : Assembled v.p v.a sigma v.lower new matrix slots)
    (hm' : Assembled v'.p v'.a sigma v'.lower new matrix' slots') :
    SamePattern matrix' matrix ∧ slots' = slots :=
  hm.samePattern hm' h.p h.a

/-- Values in an order make one matrix. -/
theorem Assembled.unique (hb : Blocks v.p v.a v.lower)
    (h : Assembled v.p v.a sigma v.lower new matrix slots)
    (h' : Assembled v.p v.a sigma v.lower new matrix' slots) : matrix = matrix' := by
  have hpattern := ((Values.Alike.refl hb).samePattern h h').1
  refine hpattern.symm.ext (Array.ext_getElem? fun q => ?_)
  exact h.value_congr h' (.refl _) (.refl _) fun _ _ => rfl

/-- A check accepts what is in order. -/
theorem Assembled.check_iff (h : Assembled v.p v.a sigma v.lower new matrix slots)
    (hb : Blocks v.p v.a v.lower) :
    c.check (mapsOf v.p v.a slots) = .ok () ↔ c.InOrder v := by
  obtain ⟨hp, ha, hrho⟩ := h.size_mapsOf hb
  cases c with
  | quadratic p changed =>
      rw [Change.check, checkUpdate_eq_ok, hp, Change.InOrder, eq_comm]
  | constraints a changed =>
      rw [Change.check, checkUpdate_eq_ok, ha, Change.InOrder, eq_comm]
  | diagonal lower => rw [Change.check, checkLength_eq_ok, hrho, Change.InOrder]

end Alike

/-! ## The steps -/

section Steps

variable {v v' : Values α} {sigma : α} {new : Nat → Nat} {matrix matrix' : Csc α}
  {slots : Array Nat} {c : Change α} {t t' : Course α} {reorders steps : List (Step α)}

/-- An update in order leads from the matrix of the old values to that of the new ones. -/
theorem Assembled.update_spec (hcomm : ∀ x y : α, x + y = y + x)
    (h : Assembled v.p v.a sigma v.lower new matrix slots)
    (h' : Assembled (c.set v).p (c.set v).a sigma (c.set v).lower new matrix' slots)
    (hb : Blocks v.p v.a v.lower) (hc : c.InOrder v) (hkeep : c.Keeps v) :
    (c.update sigma (mapsOf v.p v.a slots) matrix).run = some (.ok matrix') := by
  have hcheck := (h.check_iff hb).mpr hc
  cases c with
  | quadratic p changed => exact updateP_spec hcomm h h' hb hkeep hcheck
  | constraints a changed => exact updateA_spec h h' hb hkeep hcheck
  | diagonal lower => exact updateRho_spec h h' hb hc

theorem represents_start {system : System α}
    (h : (assemble v.p v.a sigma v.lower true).run = some (.ok system)) :
    ∃ slots, Represents sigma [] v ⟨system, []⟩ id slots := by
  have hb := blocks_of_assemble h
  obtain ⟨cells, slots, hrun, hbuilt⟩ := assemble_spec hb sigma true
  rw [h, Option.some.injEq, Except.ok.injEq] at hrun
  subst hrun
  have hassembled := assembled_of_built hb hbuilt
  refine ⟨slots, hb, Labels.id _, rfl, hassembled, fun v' hv' => ?_⟩
  have hb' := hv'.blocks hb
  obtain ⟨cells', slots', hrun', hbuilt'⟩ := assemble_spec hb' sigma true
  have hassembled' := assembled_of_built hb' hbuilt'
  obtain ⟨-, rfl⟩ := hv'.samePattern hassembled hassembled'
  refine ⟨_, _, hrun', ?_, hassembled'⟩
  rw [← hv'.mapsOf_eq]
  rfl

theorem Represents.reorder (h : Represents sigma reorders v t new slots)
    {method : Elimination.Method} {system : System α} {r : Elimination.Renumbering}
    (hrun : (t.system.reorder method).run = some (.ok (system, r))) :
    ∃ new' slots', Represents sigma (reorders ++ [.reorder method]) v
      ⟨system, t.renumberings ++ [r]⟩ new' slots' := by
  have hb := h.blocks
  have hr := renumbering_of_reorder hrun
  obtain ⟨old, slots', hnew, hmaps, hassembled⟩ :=
    h.assembled.of_reorder true hb h.labels h.maps hrun
  refine ⟨labelOf r.newOf ∘ new, slots', hb, (labels_of_renumbers hnew).comp h.labels, hmaps,
    hassembled, fun v' hv' => ?_⟩
  obtain ⟨start, matrix₁, hstart, hreplay, hassembled₁⟩ := h.replay v' hv'
  have hb' := hv'.blocks hb
  have hpattern := (hv'.samePattern h.assembled hassembled₁).1
  -- The method sees the same pattern, and so comes to the same order.
  rw [← Elimination.renumbering_congr method hpattern.ncols_eq hpattern.colPtr_eq
    hpattern.rowIdx_eq] at hr
  rw [← hv'.size_eq] at hnew
  obtain ⟨matrix', slots'', hreorder', hassembled'⟩ :=
    hassembled₁.reorder true hb' (hv'.size_eq ▸ h.labels) hr hnew
  obtain ⟨-, rfl⟩ := hv'.samePattern hassembled hassembled'
  refine ⟨start, matrix', hstart, ?_, hassembled'⟩
  rw [Course.run, List.foldlM_append, ← Course.run, hreplay, ← hv'.mapsOf_eq]
  simp only [keptMaps, if_true] at hreorder'
  simp only [Option.bind_eq_bind, Option.bind_some, List.foldlM_cons, List.foldlM_nil, Step.take,
    hreorder', ← hv'.mapsOf_eq]
  rfl

/-- An update takes effect or is refused, and the values are what it leaves. -/
theorem Represents.change (hcomm : ∀ x y : α, x + y = y + x)
    (h : Represents sigma reorders v t new slots) (hkeep : c.InOrder v → c.Keeps v) :
    ∃ t', Step.take sigma t (.change c) = some t' ∧
      Represents sigma reorders (v.after c) t' new slots := by
  have hb := h.blocks
  have htake : ∀ {matrix outcome},
      c.store sigma (mapsOf v.p v.a slots) t.system.matrix = some (matrix, outcome) →
        Step.take sigma t (.change c) =
          some { t with system := ⟨matrix, some (mapsOf v.p v.a slots)⟩ } := by
    intro matrix outcome hstore
    simp only [Step.take, h.maps, Option.bind_eq_bind, Option.bind_some, hstore]
    rfl
  by_cases hc : c.InOrder v
  · have halike := alike_set hb hc
    obtain ⟨start, matrix, hstart, hreplay, hassembled⟩ := h.replay _ halike
    have hupdate := h.assembled.update_spec hcomm hassembled hb hc (hkeep hc)
    refine ⟨_, htake (Change.store_eq_settle.trans (InPlace.settle_eq_ok.mpr hupdate)), ?_⟩
    rw [Values.after, if_pos hc]
    refine ⟨halike.blocks hb, halike.size_eq ▸ h.labels, by rw [halike.mapsOf_eq], hassembled,
      fun v' hv' => ?_⟩
    rw [halike.mapsOf_eq]
    exact h.replay v' (hv'.trans halike)
  · obtain ⟨e, he⟩ : ∃ e, c.check (mapsOf v.p v.a slots) = .error e := by
      cases hcheck : c.check (mapsOf v.p v.a slots) with
      | ok _ => exact absurd ((h.assembled.check_iff hb).mp hcheck) hc
      | error e => exact ⟨e, rfl⟩
    have hstore : c.store sigma (mapsOf v.p v.a slots) t.system.matrix =
        some (t.system.matrix, .error e) := InPlace.andThen_of_error (by rw [InPlace.check, he])
    refine ⟨_, htake hstore, ?_⟩
    rw [Values.after, if_neg hc, ← h.maps]
    exact h

theorem Represents.run (hcomm : ∀ x y : α, x + y = y + x)
    (h : Represents sigma reorders v t new slots)
    (hkeep : ∀ c, Step.change c ∈ steps → c.InOrder v → c.Keeps v)
    (hrun : t.run sigma steps = some t') :
    ∃ new' slots', Represents sigma (reorders ++ steps.filter Step.isReorder)
      (steps.foldl Values.step v) t' new' slots' := by
  induction steps generalizing reorders v t new slots with
  | nil =>
      obtain rfl : t = t' := by simpa [Course.run] using hrun
      exact ⟨new, slots, by simpa using h⟩
  | cons step steps ih =>
      rw [Course.run, List.foldlM_cons, Option.bind_eq_bind, Option.bind_eq_some_iff] at hrun
      obtain ⟨t₁, htake, hrun⟩ := hrun
      cases step with
      | reorder method =>
          simp only [Step.take] at htake
          split at htake
          · next system r hreorder =>
              obtain rfl := Option.some.inj htake
              obtain ⟨new₁, slots₁, h₁⟩ := h.reorder hreorder
              obtain ⟨new', slots', h'⟩ :=
                ih h₁ (fun c hc => hkeep c (List.mem_cons_of_mem _ hc)) hrun
              refine ⟨new', slots', ?_⟩
              rwa [List.append_assoc] at h'
          · cases htake
      | change c =>
          obtain ⟨t₂, htake', h₁⟩ := h.change hcomm (hkeep c List.mem_cons_self)
          obtain rfl := Option.some.inj (htake.symm.trans htake')
          have halike := alike_after h.blocks c
          refine ih h₁ (fun c' hc' horder => ?_) hrun
          exact (hkeep c' (List.mem_cons_of_mem _ hc') (horder.of_alike halike)).of_alike
            (halike.symm h.blocks)

/-- After any reorderings and updates the system is the one assembled from the values it holds
and reordered the same way. An update on it is refused, before anything is written, if it is not
in order, and else writes its values into the slots that the map has for them, and into no
others. -/
theorem course_eq_assembled (hcomm : ∀ x y : α, x + y = y + x) {system : System α}
    (hassemble : (assemble v.p v.a sigma v.lower true).run = some (.ok system))
    (hkeep : ∀ c, Step.change c ∈ steps → c.InOrder v → c.Keeps v)
    (hrun : Course.run sigma ⟨system, []⟩ steps = some t) :
    (∃ start,
      (assemble (steps.foldl Values.step v).p (steps.foldl Values.step v).a sigma
          (steps.foldl Values.step v).lower true).run = some (.ok start) ∧
        Course.run sigma ⟨start, []⟩ (steps.filter Step.isReorder) = some t) ∧
    ∃ maps, t.system.maps = some maps ∧
      ∀ c : Change α, (c.check maps = .ok () ↔ c.InOrder v) ∧
        (∀ e, c.check maps = .error e →
          c.store sigma maps t.system.matrix = some (t.system.matrix, .error e)) ∧
        (c.InOrder v → c.Framed →
          ∃ ws matrix, c.writes? sigma maps = some ws ∧
            c.store sigma maps t.system.matrix = some (matrix, .ok ()) ∧
            Stored t.system.matrix ws matrix) := by
  obtain ⟨slots₀, hstart⟩ := represents_start hassemble
  obtain ⟨new, slots, h⟩ := hstart.run hcomm hkeep hrun
  rw [List.nil_append] at h
  have hb := h.blocks
  have halike : (steps.foldl Values.step v).Alike v := alike_foldl (blocks_of_assemble hassemble) _
  have hcheck : ∀ c : Change α, c.check (mapsOf _ _ slots) = .ok () ↔ c.InOrder v := fun c =>
    (h.assembled.check_iff hb).trans ⟨fun hc => hc.of_alike halike,
      fun hc => hc.of_alike (halike.symm (blocks_of_assemble hassemble))⟩
  refine ⟨?_, mapsOf _ _ slots, h.maps, fun c => ⟨hcheck c, fun e he => ?_, fun hc hframed => ?_⟩⟩
  · obtain ⟨start, matrix, hstart, hreplay, hassembled⟩ := h.replay _ (.refl hb)
    refine ⟨start, hstart, hreplay.trans (congrArg some ?_)⟩
    obtain ⟨⟨current, maps⟩, renumberings⟩ := t
    obtain rfl : maps = _ := h.maps
    rw [Assembled.unique hb hassembled h.assembled]
  · exact InPlace.andThen_of_error (by rw [InPlace.check, he])
  · exact (Change.store_spec sigma hframed h.assembled.inside (h.assembled.apart hb h.labels)).2
      ((hcheck c).mpr hc)

/-- A form in two variables and a constraint on them. -/
def dish : Values ℚ :=
  ⟨⟨2, 2, #[0, 1, 3], #[0, 0, 1], #[4, 1, 3]⟩, ⟨1, 2, #[0, 1, 2], #[0, 0], #[1, 4]⟩, .uniform 2⟩

/-- Updates of each block around a reordering; one of them is refused. -/
def dishSteps : List (Step ℚ) :=
  [.change (.quadratic ⟨2, 2, #[0, 1, 3], #[0, 0, 1], #[5, 7, 7]⟩ (some [0, 0])),
    .reorder ⟨"fixed", fun _ => pure #[2, 0, 1]⟩,
    .change (.diagonal (.each #[2, 3])), .change (.diagonal (.uniform 3)),
    .change (.constraints ⟨1, 2, #[0, 1, 2], #[0, 0], #[6, 8]⟩ none)]

/-- The values that they leave. -/
def deepDish : Values ℚ :=
  ⟨⟨2, 2, #[0, 1, 3], #[0, 0, 1], #[5, 1, 3]⟩, ⟨1, 2, #[0, 1, 2], #[0, 0], #[6, 8]⟩, .uniform 3⟩

theorem values_dishSteps : dishSteps.foldl Values.step dish = deepDish := by
  decide +kernel

theorem course_eq_assembled_dish :
    ∃ system start t, (assemble dish.p dish.a 1 dish.lower true).run = some (.ok system) ∧
      Course.run 1 ⟨system, []⟩ dishSteps = some t ∧
      (assemble deepDish.p deepDish.a 1 deepDish.lower true).run = some (.ok start) ∧
      Course.run 1 ⟨start, []⟩ [.reorder ⟨"fixed", fun _ => pure #[2, 0, 1]⟩] = some t := by
  have hassemble : (assemble dish.p dish.a 1 dish.lower true).run =
      some (.ok ⟨⟨3, 3, #[0, 1, 3, 6], #[0, 0, 1, 0, 1, 2], #[5, 1, 4, 1, 4, -2]⟩,
        some ⟨#[0, 1, 2], #[3, 4], #[5]⟩⟩) := by
    simp only [assemble, Triplets.build, Cell.sortNumbered_eq_insertionSort]
    decide +kernel
  have hrun : Course.run 1 ⟨⟨⟨3, 3, #[0, 1, 3, 6], #[0, 0, 1, 0, 1, 2], #[5, 1, 4, 1, 4, -2]⟩,
      some ⟨#[0, 1, 2], #[3, 4], #[5]⟩⟩, []⟩ dishSteps =
        some ⟨⟨⟨3, 3, #[0, 1, 3, 6], #[0, 0, 1, 0, 1, 2], #[-3, 6, 6, 8, 1, 4]⟩,
          some ⟨#[2, 4, 5], #[1, 3], #[0]⟩⟩, [⟨#[2, 0, 1], #[1, 2, 0]⟩]⟩ := by
    simp only [Course.run, dishSteps, List.foldlM_cons, List.foldlM_nil, Step.take, System.reorder,
      permuteSymmetric, moveEntries, sortColumn_eq_insertionSort]
    decide +kernel
  have hkeep : ∀ c, Step.change c ∈ dishSteps → c.InOrder dish → c.Keeps dish := by
    simp only [dishSteps, List.mem_cons, Step.change.injEq, reduceCtorEq, List.not_mem_nil,
      false_or, or_false]
    rintro c (rfl | rfl | rfl | rfl) -
    · exact ⟨rfl, rfl, rfl, rfl, rfl⟩
    · trivial
    · trivial
    · exact ⟨rfl, rfl, rfl, rfl, rfl⟩
  obtain ⟨⟨start, hstart, hreplay⟩, -⟩ := course_eq_assembled add_comm hassemble hkeep hrun
  rw [values_dishSteps] at hstart
  exact ⟨_, start, _, hassemble, hrun, hstart, hreplay⟩

end Steps

end Saddle.Kkt
