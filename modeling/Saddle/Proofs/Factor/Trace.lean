import Saddle.Proofs.Factor.Gather

/-!
# The kernel with a record of what it does

Where the kernel writes is not part of what it returns: a slot that is written twice
shows no sign of it, and one that is never written may hold what is right by chance.
So each stage of the kernel is run here together with a record, of the entries of `L` as
they are stored and of the paths that the columns of a row are gathered from. The stages
are those of the kernel, which is why dropping the record gives the kernel back.

That the record is what happens to the arrays is a statement of its own: after the run a
slot holds the last entry that is recorded for it, and what it held before if there is
none. An entry that is recorded but not stored would contradict this as much as one that
is stored in silence.
-/

namespace Saddle.Factor

variable {α : Type}

/-- What a run has done besides computing. -/
structure Trace (α : Type) where
  /-- For each row the paths that its columns were gathered from, the last one first. -/
  rows : List (List (List Nat))
  /-- The entries of `L` that were stored, in order. -/
  entries : List (Entry α)

/-! ## The stages -/

/-- Takes in one entry, and records the path that it contributes. -/
def RowPattern.addEntryTraced (parent : Array (Option Nat)) (k : Nat)
    (r : RowPattern α × List (List Nat)) (entry : Nat × α) :
    Option (RowPattern α × List (List Nat)) := do
  let row ← r.1.addEntry parent k entry
  return (row, row.columns.take (row.columns.length - r.1.columns.length) :: r.2)

variable [Scalar α]

/-- Uses a column, and records the entry that is stored there. -/
def Progress.useColumnTraced (k : Nat) (s : Progress α × List (Entry α)) (j : Nat) :
    Option (Progress α × List (Entry α)) := do
  let (q, entry) ← s.1.solveEntry k j
  return (← q.store entry, s.2 ++ [entry])

/-- One row. -/
def Progress.addRowTraced (a : Csc α) (parent : Array (Option Nat)) (k : Nat)
    (s : Progress α × Trace α) : Option ((Progress α × Trace α) × Bool) := do
  let entries ← (← a.positions? k).mapM a.entry?
  let (row, paths) ← entries.foldlM (RowPattern.addEntryTraced parent k) (⟨s.1.work, 0, 0⟩, [])
  let found ← Access.slice row.work.order 0 row.count
  let (q, stored) ← found.reverse.foldlM (useColumnTraced k)
    ({ s.1 with work := row.work, pivot := row.pivot }, s.2.entries)
  let (q, more) ← q.closeRow k
  return ((q, ⟨s.2.rows ++ [paths], stored⟩), more)

/-- The given rows, as far as the first zero pivot. -/
def Progress.addRowsTraced (a : Csc α) (parent : Array (Option Nat)) :
    List Nat → Progress α × Trace α → Option ((Progress α × Option Nat) × Trace α)
  | [], s => some ((s.1, none), s.2)
  | k :: rest, s =>
      match addRowTraced a parent k s with
      | none => none
      | some (s, true) => addRowsTraced a parent rest s
      | some (s, false) => some ((s.1, some k), s.2)

/-- The whole run. -/
def overwriteTraced (a : Csc α) (symbolic : Symbolic) (f : Numeric α) :
    Option ((Numeric α × Option Nat) × Trace α) := do
  let start ← f.prepare symbolic.n
  let ((final, stopped), trace) ←
    Progress.addRowsTraced a symbolic.parent (List.range symbolic.n) (start, ⟨[], []⟩)
  return ((final.finish, stopped), trace)

/-! ## The record takes no part -/

omit [Scalar α] in
theorem RowPattern.addEntryTraced_fst (parent : Array (Option Nat)) (k : Nat)
    (r : RowPattern α × List (List Nat)) (e : Nat × α) :
    (addEntryTraced parent k r e).map (·.1) = r.1.addEntry parent k e := by
  rw [addEntryTraced]
  cases r.1.addEntry parent k e <;> rfl

theorem Progress.useColumnTraced_fst (k : Nat) (s : Progress α × List (Entry α)) (j : Nat) :
    (useColumnTraced k s j).map (·.1) = s.1.useColumn k j := by
  rw [useColumnTraced, useColumn]
  cases s.1.solveEntry k j with
  | none => rfl
  | some q =>
      simp only [Option.bind_eq_bind, Option.bind_some]
      cases q.1.store q.2 <;> rfl

theorem Progress.addRowTraced_fst (a : Csc α) (parent : Array (Option Nat)) (k : Nat)
    (s : Progress α × Trace α) :
    (addRowTraced a parent k s).map (fun t => (t.1.1, t.2)) = s.1.addRow a parent k := by
  rw [addRowTraced, addRow]
  cases a.positions? k with
  | none => rfl
  | some ps =>
  simp only [Option.bind_eq_bind, Option.bind_some]
  cases ps.mapM a.entry? with
  | none => rfl
  | some entries =>
  have hrow := foldlM_fst (RowPattern.addEntryTraced_fst parent k) (l := entries)
    (⟨s.1.work, 0, 0⟩, [])
  simp only [Option.bind_some, ← hrow]
  cases entries.foldlM (RowPattern.addEntryTraced parent k) (⟨s.1.work, 0, 0⟩, []) with
  | none => rfl
  | some r =>
  simp only [Option.bind_some, Option.map_some]
  cases Access.slice r.1.work.order 0 r.1.count with
  | none => rfl
  | some found =>
  have hcolumns := foldlM_fst (useColumnTraced_fst k) (l := found.reverse)
    ({ s.1 with work := r.1.work, pivot := r.1.pivot }, s.2.entries)
  simp only [Option.bind_some, ← hcolumns]
  cases found.reverse.foldlM (useColumnTraced k)
    ({ s.1 with work := r.1.work, pivot := r.1.pivot }, s.2.entries) with
  | none => rfl
  | some q =>
  simp only [Option.bind_some, Option.map_some]
  cases q.1.closeRow k <;> rfl

theorem Progress.addRowsTraced_fst (a : Csc α) (parent : Array (Option Nat)) (ks : List Nat)
    (s : Progress α × Trace α) :
    (addRowsTraced a parent ks s).map (·.1) = s.1.addRows a parent ks := by
  induction ks generalizing s with
  | nil => rfl
  | cons k ks ih =>
      rw [addRowsTraced, addRows, ← addRowTraced_fst]
      rcases addRowTraced a parent k s with _ | ⟨s', _ | _⟩
      · rfl
      · rfl
      · exact ih s'

theorem overwriteTraced_fst (a : Csc α) (s : Symbolic) (f : Numeric α) :
    (overwriteTraced a s f).map (·.1) = overwrite a s f := by
  rw [overwriteTraced, overwrite]
  cases f.prepare s.n with
  | none => rfl
  | some start =>
      simp only [Option.bind_eq_bind, Option.bind_some,
        ← Progress.addRowsTraced_fst a s.parent _ (start, ⟨[], []⟩)]
      cases Progress.addRowsTraced a s.parent (List.range s.n) (start, ⟨[], []⟩) <;> rfl

/-! ## The record is what happens -/

omit [Scalar α] in
/-- Storing puts the entry in its slot, and changes nothing else of `L`. -/
theorem Progress.entry?_of_store [Zero α] {s s' : Progress α} {e : Entry α}
    (h : s.store e = some s') (q : Nat) :
    s'.factor.l.entry? q =
      if q = e.slot then some (e.row, e.value) else s.factor.l.entry? q := by
  simp only [store, Option.bind_eq_bind, Option.bind_eq_some_iff] at h
  obtain ⟨rowIdx, hrows, vals, hvals, next, -, values, -, marked, -, h⟩ := h
  cases h
  by_cases hq : q = e.slot
  · rw [if_pos hq, hq, Csc.entry?]
    simp only [Access.getElem?_of_write_self hrows, Access.getElem?_of_write_self hvals]
    rfl
  · rw [if_neg hq, Csc.entry?, Csc.entry?]
    simp only [Access.getElem?_of_write hrows hq, Access.getElem?_of_write hvals hq]

/-- What is computed for an entry does not change the factor. -/
theorem Progress.factor_of_solveEntry {s s' : Progress α} {k j : Nat} {e : Entry α}
    (h : s.solveEntry k j = some (s', e)) : s'.factor = s.factor := by
  simp only [solveEntry, Option.bind_eq_bind, Option.bind_eq_some_iff] at h
  obtain ⟨slot, -, y, -, start, -, values, -, dInv, -, h⟩ := h
  cases h
  rfl

theorem Progress.l_of_closeRow {s s' : Progress α} {k : Nat} {more : Bool}
    (h : s.closeRow k = some (s', more)) : s'.factor.l = s.factor.l := by
  simp only [closeRow, Option.bind_eq_bind, Option.bind_eq_some_iff] at h
  obtain ⟨d, -, h⟩ := h
  split at h
  · cases h
    rfl
  · rw [Option.bind_eq_some_iff] at h
    obtain ⟨dInv, -, h⟩ := h
    cases h
    rfl

/-- What the entry puts where. -/
def Entry.cell (e : Entry α) : Nat × (Nat × α) := (e.slot, (e.row, e.value))

/-- Each slot of `l'` holds the last of the entries stored there, or else what it holds in `l`. -/
def Replays (l l' : Csc α) (stored : List (Entry α)) : Prop :=
  ∀ q, l'.entry? q = (lastOf (stored.map Entry.cell) q).or (l.entry? q)

omit [Scalar α] in
theorem Replays.snoc {l l' l'' : Csc α} {stored : List (Entry α)} {e : Entry α}
    (h : Replays l l' stored)
    (hstore : ∀ q, l''.entry? q = if q = e.slot then some (e.row, e.value) else l'.entry? q) :
    Replays l l'' (stored ++ [e]) := by
  intro q
  rw [hstore, List.map_append, List.map_singleton, lastOf_snoc, h q]
  by_cases hq : q = e.slot
  · rw [if_pos hq, if_pos (by exact hq)]
    rfl
  · rw [if_neg hq, if_neg (by exact hq)]

omit [Scalar α] in
/-- With no slot written twice, what was stored is found, and the rest is as it was. -/
theorem Replays.entry?_eq {l l' : Csc α} {stored : List (Entry α)} (h : Replays l l' stored)
    (hnodup : (stored.map (·.slot)).Nodup) :
    (∀ e ∈ stored, l'.entry? e.slot = some (e.row, e.value)) ∧
      ∀ q, q ∉ stored.map (·.slot) → l'.entry? q = l.entry? q := by
  have hdistinct : (stored.map Entry.cell).Pairwise (·.1 ≠ ·.1) :=
    List.pairwise_map.mpr (List.pairwise_map.mp hnodup)
  constructor
  · intro e he
    have hlast : lastOf (stored.map Entry.cell) e.slot = some (e.row, e.value) :=
      (lastOf_eq_some_iff_mem hdistinct).mpr (List.mem_map_of_mem he)
    rw [h, hlast]
    rfl
  · intro q hq
    have hnone : lastOf (stored.map Entry.cell) q = none := by
      refine lastOf_eq_none fun c hc heq => hq ?_
      obtain ⟨e, he, rfl⟩ := List.mem_map.mp hc
      exact List.mem_map.mpr ⟨e, he, heq⟩
    rw [h, hnone]
    rfl

theorem Replays.useColumn {l : Csc α} {k j : Nat} {s s' : Progress α × List (Entry α)}
    (h : Replays l s.1.factor.l s.2) (hrun : Progress.useColumnTraced k s j = some s') :
    Replays l s'.1.factor.l s'.2 := by
  simp only [Progress.useColumnTraced, Option.bind_eq_bind, Option.bind_eq_some_iff] at hrun
  obtain ⟨⟨q, e⟩, hsolve, p, hstore, hrun⟩ := hrun
  cases hrun
  refine h.snoc fun slot => ?_
  rw [Progress.entry?_of_store hstore, Progress.factor_of_solveEntry hsolve]

theorem Replays.addRow {a l : Csc α} {parent : Array (Option Nat)} {k : Nat} {more : Bool}
    {s s' : Progress α × Trace α} (h : Replays l s.1.factor.l s.2.entries)
    (hrun : Progress.addRowTraced a parent k s = some (s', more)) :
    Replays l s'.1.factor.l s'.2.entries := by
  simp only [Progress.addRowTraced, Option.bind_eq_bind, Option.bind_eq_some_iff] at hrun
  obtain ⟨ps, -, entries, -, row, -, found, -, q, hcolumns, next, hclose, hrun⟩ := hrun
  cases hrun
  have hq : Replays l q.1.factor.l q.2 :=
    foldlM_keeps (I := fun s => Replays l s.1.factor.l s.2)
      (fun s j s' hs hj => hs.useColumn hj) hcolumns h
  rw [Progress.l_of_closeRow hclose]
  exact hq

theorem Replays.addRows {a l : Csc α} {parent : Array (Option Nat)} {ks : List Nat}
    {s : Progress α × Trace α} {p : Progress α} {stop : Option Nat} {t : Trace α}
    (h : Replays l s.1.factor.l s.2.entries)
    (hrun : Progress.addRowsTraced a parent ks s = some ((p, stop), t)) :
    Replays l p.factor.l t.entries := by
  induction ks generalizing s with
  | nil =>
      cases hrun
      exact h
  | cons k ks ih =>
      rw [Progress.addRowsTraced] at hrun
      cases hrow : Progress.addRowTraced a parent k s with
      | none => simp [hrow] at hrun
      | some next =>
          obtain ⟨s', more⟩ := next
          have hnext := h.addRow hrow
          rw [hrow] at hrun
          cases more with
          | true => exact ih hnext hrun
          | false =>
              cases hrun
              exact hnext

/-- The recorded entries are what a run writes into `L`. -/
theorem replays_of_overwriteTraced {a : Csc α} {s : Symbolic} {f g : Numeric α}
    {stop : Option Nat} {t : Trace α} (hrun : overwriteTraced a s f = some ((g, stop), t)) :
    Replays f.l g.l t.entries := by
  simp only [overwriteTraced, Option.bind_eq_bind, Option.bind_eq_some_iff] at hrun
  obtain ⟨start, hstart, ⟨⟨final, stopped⟩, t'⟩, hrows, hrun⟩ := hrun
  cases hrun
  have hl : start.factor.l = f.l := by
    simp only [Numeric.prepare, Option.bind_eq_bind, Option.bind_eq_some_iff] at hstart
    obtain ⟨next, -, work, -, hstart⟩ := hstart
    cases hstart
    rfl
  exact Replays.addRows (fun q => by rw [hl]; rfl) hrows

end Saddle.Factor
