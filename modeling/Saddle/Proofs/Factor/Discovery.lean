import Saddle.Proofs.Factor.Room

/-!
# What is found for a row

A row starts with a workspace in which nothing is marked and all values are zero. The
entries of its column leave their values there, and each entry the path above it, cut off
where an earlier path has been, which goes in front of the list. What is above a listed
column is therefore listed as well, and nothing in a path that is found later can be
above anything found before. So the list names the columns in which the row has an entry,
each once and before all that are above it in the tree. (The list is kept in the order
in which the columns are used; in the order in which they are found it is reversed.)
Using the columns clears the workspace again, also if the row then ends in a zero pivot.

To speak of the rows that a run comes to, the run is stopped in front of a row. It comes
to every row up to the one at which it ends, and what it does from there on is the rest
of the run.
-/

namespace Saddle.Factor

variable {α : Type} [Scalar α]

/-! ## The rows of a run -/

/-- The kernel after the first `k` rows, if it gets through them. -/
def Progress.afterRows (a : Csc α) (parent : Array (Option Nat)) (start : Progress α) :
    Nat → Option (Progress α)
  | 0 => some start
  | k + 1 => do
      let s ← start.afterRows a parent k
      match ← s.addRow a parent k with
      | (s, true) => return s
      | (_, false) => none

/-- The run that overwrites `f`, in front of row `k`. -/
def overwriteUpTo (a : Csc α) (symbolic : Symbolic) (f : Numeric α) (k : Nat) :
    Option (Progress α) := do
  (← f.prepare symbolic.n).afterRows a symbolic.parent k

/-- The rows that column `i` of `L` has so far. -/
def Progress.rowsIn (p : Progress α) (i : Nat) : List Nat :=
  (p.factor.l.entriesAt (p.factor.l.ptr i) (p.work.next.getD i 0)).map (·.1)

/-- Row `k` from the state `p` on: the loop over its entries ends in `row`, having put together
the paths, and the loop over the columns found ends in `q`. -/
structure Discovered (a : Csc α) (s : Symbolic) (k : Nat) (p : Progress α) (row : RowPattern α)
    (paths : List (List Nat)) (q : Progress α) : Prop where
  clean : Clean a.ncols p.work
  gathers : (a.col k).foldlM (RowPattern.addEntryTraced s.parent k) (⟨p.work, 0, 0⟩, []) =
    some (row, paths)
  solves : row.columns.foldlM (Progress.useColumn k)
    { p with work := row.work, pivot := row.pivot } = some q
  closes : p.addRow a s.parent k = q.closeRow k
  nodup : row.columns.Nodup
  mem_iff : ∀ i, i ∈ row.columns ↔ InRow a s.parent k i
  counted_iff : ∀ i, i ∈ row.columns ↔ Counted a i k
  slots : ∀ i < a.ncols, q.rowsIn i = p.rowsIn i ++ if i ∈ row.columns then [k] else []
  ordered : ∀ l i r, row.columns = l ++ i :: r →
    ∀ j, Above s.parent i j → j ≠ i → j < k → j ∈ r
  value_of_entry : ∀ e ∈ a.col k, e.1 ≠ k → row.work.values[e.1]? = some e.2
  value_zero : ∀ i < a.ncols, (∀ e ∈ a.col k, e.1 ≠ k → e.1 ≠ i) →
    row.work.values[i]? = some 0
  pivot_of_entry : ∀ e ∈ a.col k, e.1 = k → row.pivot = e.2
  listed : Access.slice row.work.order 0 row.count = some row.columns.reverse
  length_columns : row.columns.length ≤ a.ncols
  flatten_paths : paths.flatten = row.columns
  length_path : ∀ path ∈ paths, path.length ≤ a.ncols
  clean_again : Clean a.ncols q.work

/-- The run that overwrites `f` comes to the rows up to the one at which it stops, and each of
these is found and solved. -/
def Discovers (a : Csc α) (s : Symbolic) (f : Numeric α) (stop : Option Nat) : Prop :=
  ∀ k < a.ncols,
    ((∃ p, overwriteUpTo a s f k = some p) ↔ ∀ z ∈ stop, k ≤ z) ∧
    ∀ p, overwriteUpTo a s f k = some p →
      overwrite a s f = (p.addRows a s.parent (List.range' k (a.ncols - k))).map
        (fun r => (r.1.finish, r.2)) ∧
      ∃ row paths q, Discovered a s k p row paths q

section Rows

variable {a : Csc α} {s : Symbolic} {parent : Array (Option Nat)} {start p p' q : Progress α}
  {k : Nat} {stop : Option Nat}

theorem Progress.afterRows_succ (h : afterRows a parent start k = some p)
    (hrow : p.addRow a parent k = some (p', true)) :
    afterRows a parent start (k + 1) = some p' := by
  rw [afterRows, h]
  simp only [Option.bind_eq_bind, Option.bind_some, hrow]
  rfl

theorem Progress.afterRows_eq_succ
    (h : afterRows a parent start (k + 1) = some p') :
    ∃ p, afterRows a parent start k = some p ∧ p.addRow a parent k = some (p', true) := by
  simp only [afterRows, Option.bind_eq_bind, Option.bind_eq_some_iff] at h
  obtain ⟨p, hp, ⟨p₁, more⟩, hrow, h⟩ := h
  cases more with
  | true => exact ⟨p, hp, by rw [hrow, Option.some.inj h]⟩
  | false => cases h

/-- What is left of a run in front of row `k`. -/
theorem Progress.addRows_of_afterRows (h : afterRows a parent start k = some p) :
    ∀ m, start.addRows a parent (List.range' 0 (k + m)) = p.addRows a parent (List.range' k m) := by
  induction k generalizing p with
  | zero =>
      intro m
      obtain rfl := Option.some.inj h
      rw [Nat.zero_add]
  | succ k ih =>
      intro m
      obtain ⟨p₀, hp₀, hrow⟩ := afterRows_eq_succ h
      rw [Nat.add_assoc, Nat.add_comm 1 m, ih hp₀, List.range'_succ, addRows, hrow]

/-- A run goes on after its first row, or stops at it. -/
theorem Progress.cases_of_addRows {ks : List Nat}
    (h : p.addRows a parent (k :: ks) = some (q, stop)) :
    (∃ p', p.addRow a parent k = some (p', true) ∧ p'.addRows a parent ks = some (q, stop)) ∨
      ∃ p', p.addRow a parent k = some (p', false) ∧ stop = some k := by
  rw [addRows] at h
  cases hrow : p.addRow a parent k with
  | none => simp [hrow] at h
  | some next =>
      obtain ⟨p', more⟩ := next
      rw [hrow] at h
      cases more with
      | true => exact Or.inl ⟨p', rfl, h⟩
      | false =>
          cases h
          exact Or.inr ⟨_, rfl, rfl⟩

theorem Progress.stop_mem_of_addRows {ks : List Nat} (h : p.addRows a parent ks = some (q, stop)) :
    ∀ z ∈ stop, z ∈ ks := by
  induction ks generalizing p with
  | nil =>
      cases h
      intro z hz
      cases hz
  | cons k ks ih =>
      intro z hz
      rcases cases_of_addRows h with ⟨p', -, hrest⟩ | ⟨-, -, rfl⟩
      · exact List.mem_cons_of_mem k (ih hrest z hz)
      · obtain rfl := Option.some.inj hz
        exact List.mem_cons_self

/-- A run comes to the rows that are not past the one at which it stops. -/
theorem exists_afterRows_iff {n : Nat} (hrun : start.addRows a parent (List.range' 0 n) =
    some (q, stop)) (hk : k < n) :
    (∃ p, Progress.afterRows a parent start k = some p) ↔ ∀ z ∈ stop, k ≤ z := by
  have hrest : ∀ {j p}, j < n → Progress.afterRows a parent start j = some p →
      p.addRows a parent (List.range' j (n - j)) = some (q, stop) := by
    intro j p hj hp
    rw [← Progress.addRows_of_afterRows hp, Nat.add_sub_cancel' (Nat.le_of_lt hj), hrun]
  constructor
  · intro ⟨p, hp⟩ z hz
    have hmem := Progress.stop_mem_of_addRows (hrest hk hp) z hz
    rw [List.mem_range'_1] at hmem
    exact hmem.1
  · intro hstop
    induction k with
    | zero => exact ⟨start, rfl⟩
    | succ k ih =>
        obtain ⟨p, hp⟩ := ih (by omega) fun z hz => Nat.le_of_succ_le (hstop z hz)
        have hleft := hrest (by omega) hp
        obtain ⟨m, hm⟩ : ∃ m, n - k = m + 1 := ⟨n - k - 1, by omega⟩
        rw [hm, List.range'_succ] at hleft
        rcases Progress.cases_of_addRows hleft with ⟨p', hrow, -⟩ | ⟨-, -, hat⟩
        · exact ⟨p', Progress.afterRows_succ hp hrow⟩
        · exact absurd (hstop k hat) (by omega)

end Rows

/-! ## One row -/

section Row

variable {a : Csc α} {s : Symbolic} {k : Nat} {st : Stage α} {p : Progress α}

theorem Ascending.of_append {parent : Array (Option Nat)} {l r : List Nat}
    (h : Ascending parent k (l ++ r)) : Ascending parent k r := by
  induction l with
  | nil => exact h
  | cons i l ih => exact ih h.2

omit [Scalar α] in
theorem Holds.rowsIn_eq {n i : Nat} {cols : Nat → List (Nat × α)}
    (h : Holds n cols p.factor.l p.work.next) (hi : i < n) :
    p.rowsIn i = (cols i).map (·.1) := by
  rw [Progress.rowsIn, Array.getD_eq_getD_getElem?, h.next.get i hi, Option.getD_some,
    h.entries i hi]

omit [Scalar α] in
theorem Gathered.value_of_entry [Zero α] (hv : a.Valid) (hu : a.Upper) (hk : k < a.ncols)
    {parent : Array (Option Nat)} {next : Array Nat} {r : RowPattern α}
    (h : Gathered a parent k next (a.col k) r) {e : Nat × α} (he : e ∈ a.col k) :
    (e.1 ≠ k → r.work.values[e.1]? = some e.2) ∧ (e.1 = k → r.pivot = e.2) := by
  have hdistinct : (a.col k).Pairwise (·.1 ≠ ·.1) := (hv.increasing k hk).imp Nat.ne_of_lt
  have hlast : lastOf (a.col k) e.1 = some e.2 := (lastOf_eq_some_iff_mem hdistinct).mpr he
  constructor
  · intro hne
    have hle := hu.row_le k hk e he
    rw [h.values e.1 (by omega), if_neg hne, hlast]
    rfl
  · intro heq
    rw [heq] at hlast
    rw [h.pivot, hlast]
    rfl

omit [Scalar α] in
theorem Gathered.value_zero [Zero α] {parent : Array (Option Nat)} {next : Array Nat}
    {r : RowPattern α} (h : Gathered a parent k next (a.col k) r) {i : Nat} (hi : i < a.ncols)
    (hnone : ∀ e ∈ a.col k, e.1 ≠ k → e.1 ≠ i) : r.work.values[i]? = some 0 := by
  rw [h.values i hi]
  by_cases hik : i = k
  · rw [if_pos hik]
  · have hlast : lastOf (a.col k) i = none := by
      refine lastOf_eq_none fun e he heq => ?_
      exact hnone e he (fun hek => hik (heq.symm.trans hek)) heq
    rw [if_neg hik, hlast]
    rfl

theorem discovered_of_reached (hv : a.Valid) (hs : (analyze a).run = some (.ok s))
    (hk : k < a.ncols) (h : Reached a s k st p) :
    ∃ row paths q, Discovered a s k p row paths q := by
  obtain ⟨hr, hu, ha⟩ := analyzed_of_samePattern hs (.refl a)
  have hn := ha.n_eq
  have hrise : ∀ i p, Parent s.parent i p → i < p := fun i p hp => (ha.rising i p hp).1
  obtain ⟨row, hrow, hg, hcolumns, hstart⟩ := solving_start hu ha hk h
  obtain ⟨paths, hpaths, hflat⟩ := exists_paths hu ha.size_parent hrise hk h.clean hrow
  have hdone := pending_solveRow hu ha hk h.rows
  have hrows := hasRows_solveRow hu ha hk h.rows
  rw [Stage.solveRow] at hdone hrows
  obtain ⟨q, hrun, hq⟩ := useColumns_spec ha hk h.dInv hstart (pending_start hu ha hk h.rows)
  have hlength : row.columns.length ≤ a.ncols := hg.ascending.length_le.trans (Nat.le_of_lt hk)
  refine ⟨row, paths, q, {
    clean := h.clean
    gathers := hpaths
    solves := hcolumns ▸ hrun
    closes := addRow_eq_closeRow hr hk hrow hg.slice_order hrun
    nodup := hg.ascending.nodup
    mem_iff := fun i => hg.mem_columns hrise
    counted_iff := fun i => ?_
    slots := fun i hi => ?_
    ordered := ?_
    value_of_entry := fun e he => (hg.value_of_entry hv hu hk he).1
    value_zero := fun i hi => hg.value_zero hi
    pivot_of_entry := fun e he => (hg.value_of_entry hv hu hk he).2
    listed := hcolumns ▸ hg.slice_order
    length_columns := hlength
    flatten_paths := hflat
    length_path := ?_
    clean_again := hq.clean hn fun i => hdone.zero i (by simp) }⟩
  · rw [hg.mem_columns hrise, counted_iff_filled hs, ha.inRow_iff_filled hu hk]
  · have hi' : i < s.n := hn ▸ hi
    rw [hq.holds.rowsIn_eq hi', h.holds.rowsIn_eq hi', hrows i hi, h.rows i hi, rowsBefore_succ]
    by_cases hmem : i ∈ row.columns
    · rw [if_pos hmem, if_pos ((hg.mem_columns hrise).mp hmem)]
    · rw [if_neg hmem, if_neg fun hrow => hmem ((hg.mem_columns hrise).mpr hrow)]
  · intro l i r hsplit j habove hne hj
    have hasc := hg.ascending
    rw [hsplit] at hasc
    exact (hasc.of_append.above_mem hrise habove hj).resolve_left hne
  · intro path hpath
    have hle := (List.sublist_flatten_of_mem hpath).length_le
    rw [hflat] at hle
    omega

end Row

/-! ## Any run -/

section Runs

variable {a b : Csc α} {s : Symbolic} {f : Numeric α} {k : Nat}

theorem reached_of_afterRows (hr : a.Readable) (hu : a.Upper) (ha : Analyzed a s)
    {start : Progress α} (h0 : Reached a s 0 Stage.start start) :
    ∀ {k p}, k ≤ a.ncols → Progress.afterRows a s.parent start k = some p →
      ∃ st, Reached a s k st p := by
  intro k
  induction k with
  | zero =>
      intro p _ h
      obtain rfl := Option.some.inj h
      exact ⟨_, h0⟩
  | succ k ih =>
      intro p hk h
      obtain ⟨p₀, hp₀, hrow⟩ := Progress.afterRows_eq_succ h
      obtain ⟨st, hst⟩ := ih (Nat.le_of_succ_le hk) hp₀
      obtain ⟨p', hrow', -, hnext⟩ := addRow_spec hr hu ha hk hst
      rw [hrow, Option.some.injEq, Prod.mk.injEq] at hrow'
      obtain ⟨rfl, hmore⟩ := hrow'
      exact ⟨_, hnext hmore.symm⟩

/-- The state in which a run starts. -/
theorem exists_start (ha : Analyzed a s) (hf : Ready s f) :
    ∃ start, Reached a s 0 Stage.start start ∧
      overwrite a s f = (start.addRows a s.parent (List.range' 0 a.ncols)).map
        (fun r => (r.1.finish, r.2)) ∧
      ∀ k, overwriteUpTo a s f k = start.afterRows a s.parent k := by
  obtain ⟨start, hstart, h0⟩ := exists_prepare ha hf
  refine ⟨start, h0, ?_, fun k => ?_⟩
  · rw [overwrite, hstart, ha.n_eq, List.range_eq_range']
    simp only [Option.bind_eq_bind, Option.bind_some]
    cases start.addRows a s.parent (List.range' 0 a.ncols) <;> rfl
  · rw [overwriteUpTo, hstart]
    rfl

/-- Any arrays that are ready will do. -/
theorem exists_discovers (hv : a.Valid) (hs : (analyze a).run = some (.ok s)) (hf : Ready s f) :
    ∃ g stop, overwrite a s f = some (g, stop) ∧ Discovers a s f stop := by
  obtain ⟨hr, hu, ha⟩ := analyzed_of_samePattern hs (.refl a)
  obtain ⟨g, hrun, -, -⟩ := overwrite_spec hr hu ha hf
  obtain ⟨start, h0, hopen, hupTo⟩ := exists_start ha hf
  obtain ⟨⟨q, stop⟩, hrows, hend⟩ := Option.map_eq_some_iff.mp (hopen.symm.trans hrun)
  obtain rfl : stop = _ := (Prod.mk.inj hend).2
  refine ⟨g, _, hrun, ?_⟩
  intro k hk
  rw [hupTo]
  refine ⟨exists_afterRows_iff hrows hk, ?_⟩
  intro p hp
  obtain ⟨st, hst⟩ := reached_of_afterRows hr hu ha h0 (Nat.le_of_lt hk) hp
  refine ⟨?_, discovered_of_reached hv hs hk hst⟩
  rw [hopen, ← Progress.addRows_of_afterRows hp, Nat.add_sub_cancel' (Nat.le_of_lt hk)]

/-- Factoring and refactoring find the columns of each row that they come to, whatever the
values are. -/
theorem rows_discovered (hcheck : a.check.run = some (.ok ()))
    (hs : (analyze a).run = some (.ok s)) :
    EveryRun a a s fun f _ stop => Discovers a s f stop :=
  everyRun_of_ready hs (.refl a) fun _ hf => exists_discovers (Csc.check_eq_ok.mp hcheck) hs hf

end Runs

/-- The last column has two entries, and the path above the second runs into that above the
first. -/
def forked (x : ℚ) : Csc ℚ :=
  ⟨5, 5, #[0, 1, 2, 5, 7, 10], #[0, 1, 0, 1, 2, 2, 3, 0, 1, 4], #[x, 1, 1, 1, 3, 1, 2, 1, 1, 11]⟩

/-- What its analysis finds. -/
def forkedTree : Symbolic := ⟨5, #[some 2, some 2, some 3, some 4, none], #[2, 2, 2, 1, 0], 7⟩

/-- Its factor for `x = 1`, with the first pivot, the count and the free slots of a run for that
`x`. -/
def forkedFactor (x : ℚ) (positive : Nat) (next : Array Nat) : Numeric ℚ where
  l := ⟨5, 5, #[0, 2, 4, 6, 7, 7], #[2, 4, 2, 4, 3, 4, 4], #[1, 1, 1, 1, 1, -2, 2]⟩
  d := #[x, 1, 1, 1, 1]
  dInv := #[1, 1, 1, 1, 1]
  positive
  work :=
    { marked := #[false, false, false, false, false]
      order := #[3, 2, 0, 1, 0]
      path := #[1, 2, 3, 0, 0]
      next
      values := #[0, 0, 0, 0, 0] }

/-- What the first run leaves. -/
def forkedOnce : Numeric ℚ := forkedFactor 1 5 #[2, 4, 6, 7, 7]

/-- What a run for `x = 0` leaves of that, which stops in the first row. -/
def forkedStopped : Numeric ℚ := forkedFactor 0 0 #[0, 2, 4, 6, 7]

theorem rows_discovered_forked :
    ∃ p row paths q, (forked 1).check.run = some (.ok ()) ∧
      (analyze (forked 1)).run = some (.ok forkedTree) ∧
      (factor (forked 1) forkedTree).run = some (.ok forkedOnce) ∧
      refactor (forked 0) forkedTree forkedOnce =
        some (forkedStopped, .error (.zeroPivot 0)) ∧
      overwriteUpTo (forked 1) forkedTree forkedStopped 4 = some p ∧
      Discovered (forked 1) forkedTree 4 p row paths q ∧ row.columns = [1, 0, 2, 3] := by
  have hpattern : ∀ x, Csc.SamePattern (forked x) (forked 1) := fun x => ⟨rfl, rfl, rfl, rfl, rfl⟩
  have hcheck : (forked 1).check.run = some (.ok ()) := by decide
  have hs : (analyze (forked 1)).run = some (.ok forkedTree) := by decide
  have hf : (factor (forked 1) forkedTree).run = some (.ok forkedOnce) := by decide +kernel
  have hstop : refactor (forked 0) forkedTree forkedOnce =
      some (forkedStopped, .error (.zeroPivot 0)) := by decide +kernel
  have hlast : refactor (forked 1) forkedTree forkedStopped = some (forkedOnce, .ok ()) := by
    decide +kernel
  have hcolumns : columnsOf (forked 1) forkedTree.parent 4 = [1, 0, 2, 3] := by decide +kernel
  obtain ⟨g, stop, hrun, hfound⟩ := (rows_discovered hcheck hs).again (forked 1) _ [forked 0] _
    (hpattern 1) hf (fun c hc => List.mem_singleton.mp hc ▸ hpattern 0)
    (by rw [refactorAll, List.foldlM_cons, hstop]; rfl)
  rw [hlast, Option.some.injEq, Prod.mk.injEq] at hrun
  obtain rfl : stop = none := by
    cases stop with
    | none => rfl
    | some k => cases hrun.2
  obtain ⟨hreached, hrow⟩ := hfound 4 (by decide)
  obtain ⟨p, hp⟩ := hreached.mpr (by simp)
  obtain ⟨-, row, paths, q, h⟩ := hrow p hp
  refine ⟨p, row, paths, q, hcheck, hs, hf, hstop, hp, h, ?_⟩
  have hgather := foldlM_fst (RowPattern.addEntryTraced_fst forkedTree.parent 4)
    (l := (forked 1).col 4) ((⟨p.work, 0, 0⟩ : RowPattern ℚ), [])
  rw [h.gathers] at hgather
  obtain ⟨-, hu, ha⟩ := analyzed_of_samePattern hs (.refl _)
  obtain ⟨row', hrow', hg⟩ := gather_spec hu ha.size_parent (fun i p hp => (ha.rising i p hp).1)
    (show 4 < (forked 1).ncols by decide) h.clean
  obtain rfl : row = row' := Option.some.inj (hgather.trans hrow')
  exact hg.columns_eq.trans hcolumns

end Saddle.Factor
