import Saddle.Proofs.Factor.Fill
import Saddle.Proofs.Factor.Refactor
import Saddle.Proofs.Factor.Trace

/-!
# The room that is counted is the room that is filled

The analysis counts the entries of each column on a tree that it is still building; the
kernel finds them on the finished tree, by paths that it cuts off at its own marks, and
has nothing that would keep it from writing past the end of a column. Both come to the
entries that the fill of the matrix asks for. The entry in row `k` of a column then goes
to a slot that can be named in advance: as far from the start of the column as there are
rows before `k` that have an entry in it. Different entries have different slots, as in
one column the number of rows before grows from one to the next, and different columns
have no slot in common. In the other direction, the slot at some distance from the start
of a column is that of the row with as many rows before it, and there is one as long as
the distance is below the count.
-/

namespace Saddle.Factor

variable {α : Type}

/-- The slot of the entry in row `k` and column `j` of the factor. -/
noncomputable def slotOf (a : Csc α) (s : Symbolic) (k j : Nat) : Nat :=
  s.start j + (rowsBefore a s.parent k j).length

/-! ## Slots -/

section Slots

variable {a : Csc α} {s : Symbolic} {k j : Nat}

/-- The number of rows before tells a row from the others. -/
theorem exists_row_of_lt {parent : Array (Option Nat)} {n i : Nat}
    (hi : i < (rowsBefore a parent n j).length) :
    ∃ k < n, InRow a parent k j ∧ (rowsBefore a parent k j).length = i := by
  induction n with
  | zero => exact absurd hi (Nat.not_lt_zero i)
  | succ n ih =>
      by_cases hlt : i < (rowsBefore a parent n j).length
      · obtain ⟨k, hk, hrow, hlen⟩ := ih hlt
        exact ⟨k, Nat.lt_succ_of_lt hk, hrow, hlen⟩
      · rw [rowsBefore_succ, List.length_append] at hi
        by_cases hrow : InRow a parent n j
        · rw [if_pos hrow, List.length_singleton] at hi
          exact ⟨n, Nat.lt_succ_self n, hrow, by omega⟩
        · rw [if_neg hrow, List.length_nil] at hi
          omega

theorem Analyzed.slotOf_mem (ha : Analyzed a s) (hk : k < a.ncols) (h : InRow a s.parent k j) :
    s.start j ≤ slotOf a s k j ∧ slotOf a s k j < s.start (j + 1) := by
  have hlt := h.lt
  have hsucc := ha.start_succ (show j < a.ncols by omega)
  have := length_rowsBefore_lt hk h
  rw [slotOf]
  omega

/-- The slot tells the column. -/
theorem Symbolic.column_unique {i j p : Nat} (hi : s.start i ≤ p) (hi' : p < s.start (i + 1))
    (hj : s.start j ≤ p) (hj' : p < s.start (j + 1)) : i = j := by
  have hmono : ∀ {x y}, x < y → s.start (x + 1) ≤ s.start y := fun h =>
    (List.take_sublist_take_left h).sum_le_sum fun _ _ => Nat.zero_le _
  rcases Nat.lt_trichotomy i j with h | rfl | h
  · have := hmono h
    omega
  · rfl
  · have := hmono h
    omega

theorem Analyzed.slotOf_inj (ha : Analyzed a s) {k' j' : Nat} (hk : k < a.ncols)
    (hk' : k' < a.ncols) (h : InRow a s.parent k j) (h' : InRow a s.parent k' j')
    (heq : slotOf a s k j = slotOf a s k' j') : k = k' ∧ j = j' := by
  obtain ⟨hstart, hend⟩ := ha.slotOf_mem hk h
  obtain ⟨hstart', hend'⟩ := ha.slotOf_mem hk' h'
  obtain rfl : j = j' := Symbolic.column_unique hstart hend (heq ▸ hstart') (heq ▸ hend')
  refine ⟨?_, rfl⟩
  rw [slotOf, slotOf] at heq
  rcases Nat.lt_trichotomy k k' with hlt | rfl | hgt
  · have := length_rowsBefore_lt hlt h
    omega
  · rfl
  · have := length_rowsBefore_lt hgt h'
    omega

theorem Analyzed.exists_slotOf (ha : Analyzed a s) {p : Nat} (hp : p < s.total) :
    ∃ k j, k < a.ncols ∧ InRow a s.parent k j ∧ slotOf a s k j = p := by
  -- The column is the last one that starts at the slot or before.
  have hpast : ∃ j, p < s.start j := ⟨s.n, by rw [ha.start_n]; exact hp⟩
  obtain ⟨j, hj⟩ : ∃ j, Nat.find hpast = j + 1 := Nat.exists_eq_succ_of_ne_zero fun h0 => by
    have hfind := Nat.find_spec hpast
    rw [h0] at hfind
    exact Nat.not_lt_zero p hfind
  have hend : p < s.start (j + 1) := hj ▸ Nat.find_spec hpast
  have hstart : s.start j ≤ p := Nat.le_of_not_lt (Nat.find_min hpast (by omega))
  have hjn : j < a.ncols := by
    have hle : Nat.find hpast ≤ s.n := Nat.find_min' hpast (by rw [ha.start_n]; exact hp)
    have := ha.n_eq
    omega
  rw [ha.start_succ hjn] at hend
  obtain ⟨k, hk, hrow, hlen⟩ := exists_row_of_lt
    (show p - s.start j < (rowsBefore a s.parent a.ncols j).length by omega)
  exact ⟨k, j, hk, hrow, by rw [slotOf]; omega⟩

end Slots

/-! ## The record of a run -/

/-- Where an entry is stored. -/
def Entry.place (e : Entry α) : Nat × Nat := (e.column, e.slot)

/-- The record of the first `k` rows. -/
structure Recorded (a : Csc α) (s : Symbolic) (k : Nat) (t : Trace α) : Prop where
  rows : t.rows.map List.flatten = (List.range k).map (columnsOf a s.parent)
  places : t.entries.map Entry.place = (List.range k).flatMap fun r =>
    (columnsOf a s.parent r).map fun j => (j, slotOf a s r j)

theorem Recorded.start (a : Csc α) (s : Symbolic) : Recorded a s 0 ⟨[], []⟩ := ⟨rfl, rfl⟩

section Record

variable {a : Csc α} {s : Symbolic} {k : Nat}

theorem takeIn_eq_append (parent : Array (Option Nat)) (k : Nat) (columns : List Nat) (row : Nat) :
    ∃ path, takeIn parent k columns row = path ++ columns := by
  rw [takeIn]
  split
  · exact ⟨[], rfl⟩
  · exact ⟨_, rfl⟩

/-- What one more entry adds to the list goes in front. -/
theorem Gathered.columns_of_step [Zero α] {parent : Array (Option Nat)} {next : Array Nat}
    {done : List (Nat × α)} {e : Nat × α} {r r' : RowPattern α}
    (h : Gathered a parent k next done r) (h' : Gathered a parent k next (done ++ [e]) r') :
    ∃ path, r'.columns = path ++ r.columns := by
  rw [h'.columns_eq, List.map_append, List.foldl_append, ← h.columns_eq]
  exact takeIn_eq_append parent k r.columns e.1

/-- The columns of a row are its paths, put together. -/
theorem exists_paths [Zero α] (hu : a.Upper) {parent : Array (Option Nat)}
    (hsize : parent.size = a.ncols) (hrise : ∀ i p, Parent parent i p → i < p)
    (hk : k < a.ncols) {w : Workspace α} (hw : Clean a.ncols w) {row : RowPattern α}
    (hrow : (a.col k).foldlM (RowPattern.addEntry parent k) ⟨w, 0, 0⟩ = some row) :
    ∃ paths, (a.col k).foldlM (RowPattern.addEntryTraced parent k) (⟨w, 0, 0⟩, []) =
      some (row, paths) ∧ paths.flatten = row.columns := by
  obtain ⟨⟨row', paths⟩, hrun, -, hflat⟩ := foldlM_total
    (fun done (r : RowPattern α × List (List Nat)) =>
      Gathered a parent k w.next done r.1 ∧ r.2.flatten = r.1.columns)
    (f := RowPattern.addEntryTraced parent k) (l := a.col k) (s := (⟨w, 0, 0⟩, []))
    ⟨gathered_start hw parent k, by simp [RowPattern.columns]⟩ fun done e rest hcol r hr => by
      obtain ⟨r', hstep, hr'⟩ :=
        hr.1.step hsize hrise hk (hu.row_le k hk e (by rw [hcol]; simp))
      obtain ⟨path, hpath⟩ := hr.1.columns_of_step hr'
      refine ⟨(r', path :: r.2), ?_, hr', by rw [List.flatten_cons, hr.2, hpath]⟩
      rw [RowPattern.addEntryTraced, hstep]
      simp [hpath]
  have hfst := foldlM_fst (RowPattern.addEntryTraced_fst parent k) (l := a.col k) (⟨w, 0, 0⟩, [])
  rw [hrun, hrow] at hfst
  obtain rfl := Option.some.inj hfst
  exact ⟨paths, hrun, hflat⟩

variable [Scalar α]

theorem useColumns_traced (ha : Analyzed a s) {f₀ : Factorization α} (hk : k < a.ncols)
    {dInv : Nat → α} (hd : ∀ i < k, f₀.dInv[i]? = some (dInv i)) {rest : List Nat}
    {r : RowSolve α} {p : Progress α} (h : Solving s f₀ r (fun i => decide (i ∈ rest)) p)
    (hp : Pending a s.parent k rest r) (stored : List (Entry α)) :
    ∃ q new, rest.foldlM (Progress.useColumnTraced k) (p, stored) = some (q, stored ++ new) ∧
      new.map Entry.place = rest.map fun j => (j, slotOf a s k j) := by
  induction rest generalizing r p stored with
  | nil => exact ⟨p, [], by simp⟩
  | cons j rest ih =>
      have hn := ha.n_eq
      have hj := (hp.inRow j (by simp)).lt
      have hplace : (r.entry dInv k p.factor.l j).place = (j, slotOf a s k j) := by
        rw [Entry.place, RowSolve.entry, h.fits.ptr_eq (by omega), slotOf, ← hp.rows_first hk,
          List.length_map]
      obtain ⟨q, p₁, hsolve, hstore, h₁, hp₁⟩ := useColumn_next ha hk hd h hp
      obtain ⟨q', new, hrest, hnew⟩ := ih h₁ hp₁ (stored ++ [r.entry dInv k p.factor.l j])
      refine ⟨q', r.entry dInv k p.factor.l j :: new, ?_, by
        rw [List.map_cons, List.map_cons, hplace, hnew]⟩
      rw [List.foldlM_cons, Progress.useColumnTraced, hsolve]
      simp only [Option.bind_eq_bind, Option.bind_some, hstore]
      exact hrest.trans (by simp)

theorem addRow_traced (hr : a.Readable) (hu : a.Upper) (ha : Analyzed a s) (hk : k < a.ncols)
    {st : Stage α} {p p' : Progress α} (h : Reached a s k st p) {t : Trace α}
    (ht : Recorded a s k t) {more : Bool} (hrun : p.addRow a s.parent k = some (p', more)) :
    ∃ t', Progress.addRowTraced a s.parent k (p, t) = some ((p', t'), more) ∧
      Recorded a s (k + 1) t' := by
  have hrise : ∀ i p, Parent s.parent i p → i < p := fun i p hp => (ha.rising i p hp).1
  obtain ⟨row, hrow, hg, hcolumns, hstart⟩ := solving_start hu ha hk h
  obtain ⟨paths, hpaths, hflat⟩ := exists_paths hu ha.size_parent hrise hk h.clean hrow
  obtain ⟨q, new, hused, hnew⟩ :=
    useColumns_traced ha hk h.dInv hstart (pending_start hu ha hk h.rows) t.entries
  have hplain := foldlM_fst (Progress.useColumnTraced_fst k) (l := columnsOf a s.parent k)
    ({ p with work := row.work, pivot := row.pivot }, t.entries)
  rw [hused] at hplain
  rw [addRow_eq_closeRow hr hk hrow hg.slice_order hplain.symm] at hrun
  refine ⟨⟨t.rows ++ [paths], t.entries ++ new⟩, ?_, ?_, ?_⟩
  · rw [Progress.addRowTraced, hr.positions?_eq hk]
    simp only [Option.bind_eq_bind, Option.bind_some, hr.mapM_positions hk, hpaths,
      hg.slice_order, List.reverse_reverse, hused, hrun]
    rfl
  · simp only [List.map_append, List.map_singleton, ht.rows, hflat, List.range_succ, hcolumns]
  · simp only [List.map_append, ht.places, hnew, List.range_succ, List.flatMap_append,
      List.flatMap_singleton]

theorem addRows_traced (hr : a.Readable) (hu : a.Upper) (ha : Analyzed a s) {m : Nat}
    {st : Stage α} {p : Progress α} {t : Trace α} (hkm : k + m = a.ncols)
    (h : Reached a s k st p) (ht : Recorded a s k t) :
    ∃ q stop t' k', Progress.addRowsTraced a s.parent (List.range' k m) (p, t) =
        some ((q, stop), t') ∧
      Recorded a s k' t' ∧ k' ≤ a.ncols ∧ (stop = none → k' = a.ncols) := by
  induction m generalizing k st p t with
  | zero =>
      obtain rfl : k = a.ncols := by omega
      exact ⟨p, none, t, _, rfl, ht, Nat.le_refl _, fun _ => rfl⟩
  | succ m ih =>
      obtain ⟨p', hrun, -, hnext⟩ := addRow_spec hr hu ha (by omega) h
      obtain ⟨t', hrow, ht'⟩ := addRow_traced hr hu ha (by omega) h ht hrun
      rw [List.range'_succ, Progress.addRowsTraced, hrow]
      cases hmore : (st.addRow a s.parent k).2 with
      | true => exact ih (by omega) (hnext hmore) ht'
      | false => exact ⟨p', some k, t', k + 1, rfl, ht', by omega, fun hstop => by cases hstop⟩

/-- A run with a record is the run, and the record is known. -/
theorem overwrite_traced (hr : a.Readable) (hu : a.Upper) (ha : Analyzed a s) {f : Numeric α}
    (hf : Ready s f) :
    ∃ g t k, overwriteTraced a s f = some ((g, (eliminate a s.parent).2), t) ∧ Ready s g ∧
      ((eliminate a s.parent).2 = none →
        Complete a s (eliminate a s.parent).1 g.toFactorization) ∧
      Recorded a s k t ∧ k ≤ a.ncols ∧ ((eliminate a s.parent).2 = none → k = a.ncols) := by
  obtain ⟨g, hrun, hg, hdone⟩ := overwrite_spec hr hu ha hf
  obtain ⟨start, hstart, h0⟩ := exists_prepare ha hf
  obtain ⟨q, stop, t, k, htraced, ht, hk, hstop⟩ :=
    addRows_traced hr hu ha (Nat.zero_add _) h0 (.start a s)
  have hopen : overwriteTraced a s f = some ((q.finish, stop), t) := by
    rw [overwriteTraced, hstart]
    simp only [Option.bind_eq_bind, Option.bind_some]
    rw [ha.n_eq, List.range_eq_range', htraced]
    rfl
  have hfst := overwriteTraced_fst a s f
  rw [hopen, hrun] at hfst
  cases hfst
  exact ⟨_, t, k, hopen, hg, hdone, ht, hk, hstop⟩

end Record

/-! ## The room is kept, and filled -/

/-- Each entry goes to the room of its column and is found there in the end, no slot is written
twice, what is not written stays, and the lists of a row fit into arrays with a place for each
column. -/
structure Confined (s : Symbolic) (f g : Numeric α) (t : Trace α) : Prop where
  colPtr : Access.Tabulates g.l.colPtr (s.n + 1) s.start
  slot_mem : ∀ e ∈ t.entries,
    e.column < s.n ∧ g.l.ptr e.column ≤ e.slot ∧ e.slot < g.l.ptr (e.column + 1)
  nodup : (t.entries.map (·.slot)).Nodup
  stored : ∀ e ∈ t.entries, g.l.entry? e.slot = some (e.row, e.value)
  kept : ∀ q, q ∉ t.entries.map (·.slot) → g.l.entry? q = f.l.entry? q
  length_le : ∀ paths ∈ t.rows, paths.flatten.length ≤ s.n

/-- Every slot has been written, and what has come out is a factor with the pattern that was
counted. -/
structure Full [Scalar α] (a : Csc α) (g : Numeric α) (t : Trace α) : Prop where
  written : ∀ q < g.l.nnz, ∃ e ∈ t.entries, e.slot = q
  check : g.l.check.run = some (.ok ())
  below : ∀ i < a.ncols, ∀ e ∈ g.l.col i, i < e.1
  rows : ∀ i < a.ncols, ∀ k, k ∈ (g.l.col i).map (·.1) ↔ Counted a i k
  positive : g.positive = Nat.count (fun k => Scalar.isPositive (g.d.getD k 0)) a.ncols

section Room

variable [Scalar α] {a b : Csc α} {s : Symbolic} {k : Nat} {f g : Numeric α} {t : Trace α}

theorem Recorded.mem_places (ht : Recorded a s k t) (hu : a.Upper) (ha : Analyzed a s)
    (hk : k ≤ a.ncols) {i slot : Nat} :
    (i, slot) ∈ t.entries.map Entry.place ↔
      ∃ r < k, InRow a s.parent r i ∧ slotOf a s r i = slot := by
  rw [ht.places, List.mem_flatMap]
  constructor
  · rintro ⟨r, hr, hmem⟩
    have hr := List.mem_range.mp hr
    obtain ⟨j, hj, hpair⟩ := List.mem_map.mp hmem
    obtain ⟨rfl, rfl⟩ := Prod.mk.inj hpair
    exact ⟨r, hr, ((columnsOf_spec hu ha (by omega)).2 j).mp hj, rfl⟩
  · rintro ⟨r, hr, hrow, rfl⟩
    exact ⟨r, List.mem_range.mpr hr, List.mem_map.mpr
      ⟨i, ((columnsOf_spec hu ha (by omega)).2 i).mpr hrow, rfl⟩⟩

theorem Recorded.nodup (ht : Recorded a s k t) (hu : a.Upper) (ha : Analyzed a s)
    (hk : k ≤ a.ncols) : (t.entries.map (·.slot)).Nodup := by
  have hrows : ∀ r < k, ∀ j ∈ columnsOf a s.parent r, InRow a s.parent r j := fun r hr j =>
    ((columnsOf_spec hu ha (by omega)).2 j).mp
  have hslots : t.entries.map (·.slot) = (t.entries.map Entry.place).map (·.2) := by
    rw [List.map_map]
    rfl
  rw [hslots, ht.places, List.map_flatMap, List.nodup_flatMap]
  simp only [List.map_map]
  constructor
  · intro r hr
    have hr := List.mem_range.mp hr
    refine ((columnsOf_spec hu ha (by omega)).1.nodup).map_on fun i hi j hj heq => ?_
    exact (ha.slotOf_inj (by omega) (by omega) (hrows r hr i hi) (hrows r hr j hj) heq).2
  · refine List.Pairwise.imp_of_mem (fun {r q} hr hq hne => ?_) List.nodup_range
    have hr := List.mem_range.mp hr
    have hq := List.mem_range.mp hq
    rw [Function.onFun, List.disjoint_left]
    intro slot hmem hmem'
    obtain ⟨i, hi, hislot⟩ := List.mem_map.mp hmem
    obtain ⟨j, hj, hjslot⟩ := List.mem_map.mp hmem'
    have heq := hislot.trans hjslot.symm
    exact hne (ha.slotOf_inj (by omega) (by omega) (hrows r hr i hi) (hrows q hq j hj) heq).1

/-- What a run writes stays inside. -/
theorem Recorded.confined (ht : Recorded a s k t) (hu : a.Upper) (ha : Analyzed a s)
    (hk : k ≤ a.ncols) (hg : Fits s g.toFactorization) (h : Replays f.l g.l t.entries) :
    Confined s f g t where
  colPtr := hg.colPtr
  slot_mem e he := by
    have hmem : (e.column, e.slot) ∈ t.entries.map Entry.place :=
      List.mem_map_of_mem (f := Entry.place) he
    obtain ⟨r, hr, hrow, hslot⟩ := (ht.mem_places hu ha hk).mp hmem
    have hn := ha.n_eq
    have hlt := hrow.lt
    rw [hg.ptr_eq (by omega), hg.ptr_eq (by omega), ← hslot]
    exact ⟨by omega, ha.slotOf_mem (by omega) hrow⟩
  nodup := ht.nodup hu ha hk
  stored := (h.entry?_eq (ht.nodup hu ha hk)).1
  kept := (h.entry?_eq (ht.nodup hu ha hk)).2
  length_le paths h := by
    have hmem := List.mem_map_of_mem (f := List.flatten) h
    rw [ht.rows, List.mem_map] at hmem
    obtain ⟨r, hr, hflat⟩ := hmem
    have hr := List.mem_range.mp hr
    have hle := (columnsOf_spec hu ha (show r < a.ncols by omega)).1.length_le
    rw [← hflat, ha.n_eq]
    omega

omit [Scalar α] in
theorem Complete.valid {st : Stage α} (h : Complete a s st g.toFactorization) (ha : Analyzed a s) :
    g.l.Valid where
  toFramed := h.fits.framed ha
  row_lt j hj e he := by
    rw [h.fits.ncols_eq, ha.n_eq] at hj
    rw [h.col_eq j hj] at he
    rw [h.fits.nrows_eq, ha.n_eq]
    exact (h.rows.lt_of_mem hj he).2
  increasing j hj := by
    rw [h.fits.ncols_eq, ha.n_eq] at hj
    rw [← List.pairwise_map, h.col_eq j hj, h.rows j hj]
    exact List.pairwise_lt_range.filter _

omit [Scalar α] in
theorem inRow_congr (h : Csc.SamePattern b a) {parent : Array (Option Nat)} {i : Nat} :
    InRow b parent k i ↔ InRow a parent k i := by
  constructor
  · rintro ⟨hlt, e, he, habove⟩
    obtain ⟨e', he', hrow⟩ := h.exists_entry he
    exact ⟨hlt, e', he', hrow.symm ▸ habove⟩
  · rintro ⟨hlt, e, he, habove⟩
    obtain ⟨e', he', hrow⟩ := h.symm.exists_entry he
    exact ⟨hlt, e', he', hrow.symm ▸ habove⟩

omit [Scalar α] in
/-- Column `i` has the rows for which it was counted, whatever the values. -/
theorem mem_rows_iff_counted (hs : (analyze a).run = some (.ok s)) (hb : Csc.SamePattern b a)
    {st : Stage α} (h : Complete b s st g.toFactorization) {i : Nat} (hi : i < b.ncols) :
    k ∈ (g.l.col i).map (·.1) ↔ Counted a i k := by
  obtain ⟨-, hu, ha⟩ := analyzed_of_samePattern hs (.refl a)
  rw [h.col_eq i hi, h.rows i hi, mem_rowsBefore, counted_iff_filled hs, hb.ncols_eq,
    inRow_congr hb]
  exact ⟨fun ⟨hk, hrow⟩ => (ha.inRow_iff_filled hu hk).mp hrow, fun hfill =>
    ⟨hfill.lt_ncols hu, (ha.inRow_iff_filled hu (hfill.lt_ncols hu)).mpr hfill⟩⟩

/-- A run that comes to its end has filled the room. -/
theorem Recorded.full (hs : (analyze a).run = some (.ok s)) (hb : Csc.SamePattern b a)
    (ht : Recorded b s b.ncols t) (hstop : (eliminate b s.parent).2 = none)
    (h : Complete b s (eliminate b s.parent).1 g.toFactorization) :
    Full a g t := by
  obtain ⟨-, hu, ha⟩ := analyzed_of_samePattern hs hb
  refine ⟨fun q hq => ?_, Csc.check_eq_ok.mpr (h.valid ha), fun i hi e he => ?_,
    fun i hi k => mem_rows_iff_counted hs hb h (hb.ncols_eq ▸ hi), ?_⟩
  · rw [Csc.nnz, h.fits.size_rowIdx] at hq
    obtain ⟨k, i, hk, hrow, hslot⟩ := ha.exists_slotOf hq
    obtain ⟨e, he, hplace⟩ := List.mem_map.mp
      ((ht.mem_places hu ha (Nat.le_refl _)).mpr ⟨k, hk, hrow, hslot⟩)
    exact ⟨e, he, (Prod.mk.inj hplace).2⟩
  · rw [← hb.ncols_eq] at hi
    rw [h.col_eq i hi] at he
    exact (h.rows.lt_of_mem hi he).1
  · rw [h.positive, positive_eliminate hstop, ← hb.ncols_eq]
    refine count_congr fun k hk => ?_
    rw [Array.getD_eq_getD_getElem?, h.d.get k hk]
    rfl

end Room

/-! ## Any run -/

section Runs

variable [Scalar α]

/-- The run for `b` that overwrites `f` and leaves `g`, as the analysis of `a` has foreseen it. -/
def FillsRoom (a b : Csc α) (s : Symbolic) (f g : Numeric α) (stop : Option Nat) : Prop :=
  ∃ t, overwriteTraced b s f = some ((g, stop), t) ∧ Confined s f g t ∧
    (stop = none → Full a g t)

variable {a b : Csc α} {s : Symbolic} {f : Numeric α}

/-- Any arrays that are ready will do. -/
theorem exists_fillsRoom (hs : (analyze a).run = some (.ok s)) (hb : Csc.SamePattern b a)
    (hf : Ready s f) :
    ∃ g stop, overwrite b s f = some (g, stop) ∧ FillsRoom a b s f g stop := by
  obtain ⟨hr, hu, ha⟩ := analyzed_of_samePattern hs hb
  obtain ⟨g, t, k, hrun, hg, hdone, ht, hk, hend⟩ := overwrite_traced hr hu ha hf
  refine ⟨g, (eliminate b s.parent).2, ?_, t, hrun,
    ht.confined hu ha hk hg.fits (replays_of_overwriteTraced hrun), fun hstop => ?_⟩
  · rw [← overwriteTraced_fst, hrun]
    rfl
  · obtain rfl := hend hstop
    exact ht.full hs hb hstop (hdone hstop)

/-- Factoring and refactoring fill the room that was counted, and write nothing else. -/
theorem runs_fillRoom (hs : (analyze a).run = some (.ok s)) (hb : Csc.SamePattern b a) :
    EveryRun a b s (FillsRoom a b s) :=
  everyRun_of_ready hs hb fun _ hf => exists_fillsRoom hs hb hf

end Runs

/-- An arrow with its tip first: the last two columns meet in the first, and fill. -/
def arrow (x : ℚ) : Csc ℚ := ⟨3, 3, #[0, 1, 3, 5], #[0, 0, 1, 0, 2], #[1, 2, x, 1, 0]⟩

/-- What its analysis finds. -/
def arrowTree : Symbolic := ⟨3, #[some 1, some 2, none], #[2, 1, 0], 3⟩

/-- Its factor for `x = 3`. -/
def arrowFactor : Numeric ℚ where
  l := ⟨3, 3, #[0, 2, 3, 3], #[1, 2, 2], #[2, 1, 2]⟩
  d := #[1, -1, 3]
  dInv := #[1, -1, 1 / 3]
  positive := 2
  work := ⟨#[false, false, false], #[1, 0, 0], #[0, 1, 0], #[2, 3, 3], #[0, 0, 0]⟩

/-- What the run for `x = 4` leaves of that, which stops in the second row. -/
def arrowStopped : Numeric ℚ :=
  { arrowFactor with
    d := #[1, 0, 3]
    positive := 1
    work := ⟨#[false, false, false], #[0, 0, 0], #[0, 1, 0], #[1, 2, 3], #[0, 0, 0]⟩ }

/-- Its factor for `x = 5`. -/
def arrowAgain : Numeric ℚ :=
  { arrowFactor with
    l := ⟨3, 3, #[0, 2, 3, 3], #[1, 2, 2], #[2, 1, -2]⟩
    d := #[1, 1, -5]
    dInv := #[1, 1, -1 / 5] }

theorem runs_fillRoom_arrow :
    (analyze (arrow 3)).run = some (.ok arrowTree) ∧
      (factor (arrow 3) arrowTree).run = some (.ok arrowFactor) ∧
      refactor (arrow 4) arrowTree arrowFactor = some (arrowStopped, .error (.zeroPivot 1)) ∧
      refactor (arrow 5) arrowTree arrowStopped = some (arrowAgain, .ok ()) ∧
      FillsRoom (arrow 3) (arrow 5) arrowTree arrowStopped arrowAgain none ∧
      Counted (arrow 3) 1 2 := by
  have hpattern : ∀ x, Csc.SamePattern (arrow x) (arrow 3) := fun x => ⟨rfl, rfl, rfl, rfl, rfl⟩
  have hs : (analyze (arrow 3)).run = some (.ok arrowTree) := by decide
  have hf₀ : (factor (arrow 3) arrowTree).run = some (.ok arrowFactor) := by decide +kernel
  have hstop : refactor (arrow 4) arrowTree arrowFactor =
      some (arrowStopped, .error (.zeroPivot 1)) := by decide +kernel
  have hlast : refactor (arrow 5) arrowTree arrowStopped = some (arrowAgain, .ok ()) := by
    decide +kernel
  obtain ⟨g, stop, hrun, hfills⟩ := (runs_fillRoom hs (hpattern 5)).again (arrow 3) _ [arrow 4]
    arrowStopped (hpattern 3) hf₀ (fun c hc => List.mem_singleton.mp hc ▸ hpattern 4)
    (by rw [refactorAll, List.foldlM_cons, hstop]; rfl)
  rw [hlast, Option.some.injEq, Prod.mk.injEq] at hrun
  obtain ⟨rfl, hend⟩ := hrun
  obtain rfl : stop = none := by
    cases stop with
    | none => rfl
    | some k => cases hend
  refine ⟨hs, hf₀, hstop, hlast, hfills, ?_⟩
  obtain ⟨t, -, -, hfull⟩ := hfills
  exact ((hfull rfl).rows 1 (by decide) 2).mp (by decide)

end Saddle.Factor
