import Saddle.Proofs.Factor.Elimination

/-!
# The kernel computes the elimination

The kernel writes `L` through a counter for each column, without looking where
the column ends. It stays inside because column `i` gets an entry from a row `k`
only if the analysis counted it: before row `k` it holds the counted rows before
`k`, and `k` is one more of them. Two columns therefore never share a slot, and
what is written into one leaves the others as they are.

With that, the state of the kernel is read as the array-free state of
`Saddle.Proofs.Factor.Elimination`, and every step of one is a step of the other.
What the arrays of the factor held at the start is never read: of each column only
the stretch that this run has filled. The same goes for the workspace, of which a run
only asks that its arrays are long enough, and which it leaves no shorter.
-/

namespace Saddle.Factor

variable {α : Type}

/-- Where the room of column `j` starts. -/
def Symbolic.start (s : Symbolic) (j : Nat) : Nat := (s.counts.toList.take j).sum

/-- The factor has the room that the analysis has counted, and no row in it is
beyond the matrix. -/
structure Fits (s : Symbolic) (f : Factorization α) : Prop where
  nrows_eq : f.l.nrows = s.n
  ncols_eq : f.l.ncols = s.n
  colPtr : Access.Tabulates f.l.colPtr (s.n + 1) s.start
  size_rowIdx : f.l.rowIdx.size = s.total
  size_vals : f.l.vals.size = s.total
  size_d : f.d.size = s.n
  size_dInv : f.dInv.size = s.n
  row_lt : ∀ p row : Nat, f.l.rowIdx[p]? = some row → row < s.n

/-- Each array has a place for every column. -/
structure Workspace.Sized (n : Nat) (w : Workspace α) : Prop where
  marked : w.marked.size = n
  order : w.order.size = n
  path : w.path.size = n
  next : w.next.size = n
  values : w.values.size = n

/-- A run can be made in the arrays. -/
structure Ready (s : Symbolic) (f : Numeric α) : Prop where
  fits : Fits s f.toFactorization
  sized : f.work.Sized s.n

/-- The stretches of `L` up to the next free slots hold the given columns. -/
structure Holds (n : Nat) (cols : Nat → List (Nat × α)) (l : Csc α) (next : Array Nat) : Prop where
  next : Access.Tabulates next n fun i => l.ptr i + (cols i).length
  room : ∀ i < n, l.ptr i + (cols i).length ≤ l.ptr (i + 1)
  entries : ∀ i < n, l.entriesAt (l.ptr i) (l.ptr i + (cols i).length) = cols i

/-! ## Room -/

section Room

variable {a : Csc α} {s : Symbolic} {f : Factorization α}

theorem Symbolic.start_succ {j : Nat} (hj : j < s.counts.size) :
    s.start (j + 1) = s.start j + s.counts[j] := by
  rw [start, start, List.take_add_one, List.sum_append, Array.getElem?_toList,
    Array.getElem?_eq_getElem hj]
  simp

theorem Analyzed.start_succ (ha : Analyzed a s) {j : Nat} (hj : j < a.ncols) :
    s.start (j + 1) = s.start j + (rowsBefore a s.parent a.ncols j).length := by
  have hlt : j < s.counts.size := by rw [ha.size_counts]; exact hj
  have hcount := ha.counts_eq j hj
  rw [Array.getElem?_eq_getElem hlt] at hcount
  rw [Symbolic.start_succ hlt, Option.some.inj hcount]

theorem Analyzed.start_n (ha : Analyzed a s) : s.start s.n = s.total := by
  have hsize : s.n = s.counts.toList.length := by
    rw [ha.n_eq, Array.length_toList, ha.size_counts]
  rw [Symbolic.start, hsize, List.take_length, ha.total_eq, Array.sum_toList]

theorem Fits.ptr_eq (h : Fits s f) {j : Nat} (hj : j ≤ s.n) : f.l.ptr j = s.start j := by
  rw [Csc.ptr, Array.getD_eq_getD_getElem?, h.colPtr.get j (Nat.lt_succ_of_le hj)]
  rfl

theorem Fits.framed (h : Fits s f) (ha : Analyzed a s) : f.l.Framed := by
  refine ⟨?_, ?_, fun j hj => ?_, ?_, ?_⟩
  · rw [h.colPtr.size_eq, h.ncols_eq]
  · rw [h.ptr_eq (Nat.zero_le _)]
    rfl
  · rw [h.ncols_eq] at hj
    rw [h.ptr_eq (by omega), h.ptr_eq (by omega), ha.start_succ (ha.n_eq ▸ hj)]
    omega
  · rw [h.ncols_eq, h.ptr_eq (Nat.le_refl _), ha.start_n, Csc.nnz, h.size_rowIdx]
  · rw [h.size_vals, h.size_rowIdx]

theorem Fits.ptr_succ (h : Fits s f) (ha : Analyzed a s) {j : Nat} (hj : j < a.ncols) :
    f.l.ptr (j + 1) = f.l.ptr j + (rowsBefore a s.parent a.ncols j).length := by
  have hn := ha.n_eq
  rw [h.ptr_eq (by omega), h.ptr_eq (by omega), ha.start_succ hj]

theorem length_rowsBefore_lt {parent : Array (Option Nat)} {n k j : Nat} (hk : k < n)
    (h : InRow a parent k j) :
    (rowsBefore a parent k j).length < (rowsBefore a parent n j).length := by
  induction n, hk using Nat.le_induction with
  | base => rw [rowsBefore_succ, if_pos h]; simp
  | succ n _ ih =>
      rw [rowsBefore_succ, List.length_append]
      omega

/-- There is room for row `k` in a column that belongs to it. -/
theorem Fits.room_of_pending [Scalar α] (h : Fits s f) (ha : Analyzed a s) {k j : Nat}
    (hk : k < a.ncols) {rest : List Nat} {r : RowSolve α}
    (hp : Pending a s.parent k (j :: rest) r) :
    f.l.ptr j + (r.cols j).length < f.l.ptr (j + 1) := by
  have hrow := hp.inRow j List.mem_cons_self
  have hlt := length_rowsBefore_lt hk hrow
  rw [h.ptr_succ ha (Nat.lt_trans hrow.lt hk), ← List.length_map (·.1), hp.rows_first hk]
  omega

/-- The factor with another entry in one of its slots. -/
theorem Fits.setEntry (h : Fits s f) (slot : Nat) {row : Nat} (hrow : row < s.n) (value : α) :
    Fits s { f with l := { f.l with
      rowIdx := f.l.rowIdx.setIfInBounds slot row
      vals := f.l.vals.setIfInBounds slot value } } :=
  { h with
    size_rowIdx := by simpa using h.size_rowIdx
    size_vals := by simpa using h.size_vals
    row_lt := fun p i hp => by
      rw [Array.getElem?_setIfInBounds] at hp
      by_cases hslot : slot = p
      · rw [if_pos hslot, Option.ite_none_right_eq_some, Option.some.injEq] at hp
        exact hp.2 ▸ hrow
      · rw [if_neg hslot] at hp
        exact h.row_lt p i hp }

end Room

/-! ## Pushing an entry -/

/-- Writing row `k` into the next free slot of column `j` appends to that column,
and leaves the others as they are. -/
theorem Holds.push {n : Nat} {cols : Nat → List (Nat × α)} {l : Csc α} {next : Array Nat}
    (h : Holds n cols l next) (hf : l.Framed) (hn : l.ncols = n) {j : Nat} (hj : j < n)
    (hroom : l.ptr j + (cols j).length < l.ptr (j + 1)) (e : Nat × α) :
    Holds n (Function.update cols j (cols j ++ [e]))
      { l with
        rowIdx := l.rowIdx.setIfInBounds (l.ptr j + (cols j).length) e.1
        vals := l.vals.setIfInBounds (l.ptr j + (cols j).length) e.2 }
      (next.setIfInBounds j (l.ptr j + (cols j).length + 1)) := by
  obtain ⟨slot, hslot⟩ : ∃ slot, slot = l.ptr j + (cols j).length := ⟨_, rfl⟩
  rw [← hslot] at hroom ⊢
  have hend : slot < l.rowIdx.size := Nat.lt_of_lt_of_le hroom (hf.ptr_le (by omega))
  have hentry := Csc.entry?_setIfInBounds hend (hf.size_vals ▸ hend) e
  obtain ⟨l', hl'⟩ : ∃ l' : Csc α, l' = { l with
      rowIdx := l.rowIdx.setIfInBounds slot e.1
      vals := l.vals.setIfInBounds slot e.2 } := ⟨_, rfl⟩
  rw [← hl'] at hentry ⊢
  have hptr : ∀ i, l'.ptr i = l.ptr i := fun i => by rw [hl']; rfl
  have hlen : ∀ i, (Function.update cols j (cols j ++ [e]) i).length =
      (cols i).length + if i = j then 1 else 0 := by
    intro i
    by_cases hij : i = j
    · subst hij
      simp
    · simp [hij]
  refine ⟨⟨by simpa using h.next.size_eq, fun i hi => ?_⟩, fun i hi => ?_, fun i hi => ?_⟩
  · rw [Array.getElem?_setIfInBounds, hlen, hptr, h.next.size_eq]
    by_cases hij : j = i
    · subst hij
      rw [if_pos rfl, if_pos hj, if_pos rfl, hslot]
      rfl
    · rw [if_neg hij, if_neg (Ne.symm hij)]
      exact h.next.get i hi
  · rw [hlen, hptr, hptr]
    have := h.room i hi
    by_cases hij : i = j
    · subst hij
      rw [if_pos rfl]
      omega
    · rw [if_neg hij]
      exact this
  · rw [hlen, hptr]
    by_cases hij : i = j
    · subst hij
      have hthis : l'.entry? slot = some e := by rw [hentry, if_pos rfl]
      rw [if_pos rfl, ← Nat.add_assoc, ← hslot, Csc.entriesAt_snoc (by omega) hthis,
        Function.update_self, ← h.entries i hi, ← hslot]
      congr 1
      exact Csc.entriesAt_congr fun p _ hp => by rw [hentry, if_neg (by omega)]
    · rw [if_neg hij, Function.update_of_ne hij, Nat.add_zero]
      refine (Csc.entriesAt_congr fun p hp hp' => ?_).trans (h.entries i hi)
      -- The slot is in column `j`, and no other column has it.
      have hne : p ≠ slot := by
        rintro rfl
        have hroom' := h.room i hi
        exact hij (hf.column_unique (hn ▸ hi) (hn ▸ hj) hp (by omega) (by omega) hroom)
      rw [hentry, if_neg hne]

/-! ## One column of a row -/

variable [Scalar α]

theorem subtractEntries_spec {n : Nat} {l : Csc α} {start slot : Nat} {es : List (Nat × α)}
    {values : Nat → α} {xs : Array α} (hslot : slot ≤ l.rowIdx.size)
    (hvals : slot ≤ l.vals.size) (hes : l.entriesAt start slot = es) (hrow : ∀ e ∈ es, e.1 < n)
    (hxs : Access.Tabulates xs n values) (y : α) :
    ∃ ys, (List.range' start (slot - start)).foldlM (subtractEntry l y) xs = some ys ∧
      Access.Tabulates ys n (carry y es values) := by
  have hread : (List.range' start (slot - start)).mapM l.entry? =
      some (l.entriesAt start slot) := Csc.mapM_entry? hslot hvals
  rw [hes] at hread
  have hfold : (List.range' start (slot - start)).foldlM (subtractEntry l y) xs =
      es.foldlM (fun xs (e : Nat × α) => Access.adjust xs e.1 (· - e.2 * y)) xs :=
    foldlM_fetch hread xs
  rw [hfold]
  clear hread hfold hes
  induction es generalizing xs values with
  | nil => exact ⟨xs, rfl, hxs⟩
  | cons e es ih =>
      rw [List.forall_mem_cons] at hrow
      obtain ⟨zs, hz, htab⟩ := hxs.adjust hrow.1 (· - e.2 * y)
      rw [List.foldlM_cons, hz]
      exact ih hrow.2 htab

/-- The state of the kernel inside a row that started from the factor `f₀`. -/
structure Solving (s : Symbolic) (f₀ : Factorization α) (r : RowSolve α) (marked : Nat → Bool)
    (p : Progress α) : Prop where
  fits : Fits s p.factor
  holds : Holds s.n r.cols p.factor.l p.work.next
  values : Access.Tabulates p.work.values s.n r.values
  marked : Access.Tabulates p.work.marked s.n marked
  size_order : p.work.order.size = s.n
  size_path : p.work.path.size = s.n
  pivot : p.pivot = r.pivot
  d_eq : p.factor.d = f₀.d
  dInv_eq : p.factor.dInv = f₀.dInv
  positive_eq : p.factor.positive = f₀.positive

omit [Scalar α] in
theorem Solving.sized {s : Symbolic} {f₀ : Factorization α} {r : RowSolve α}
    {marked : Nat → Bool} {p : Progress α} (h : Solving s f₀ r marked p) : p.work.Sized s.n where
  marked := h.marked.size_eq
  order := h.size_order
  path := h.size_path
  next := h.holds.next.size_eq
  values := h.values.size_eq

/-- The entry of row `k` in column `j`, and the slot that is the next one there. -/
def RowSolve.entry (dInv : Nat → α) (k : Nat) (l : Csc α) (r : RowSolve α) (j : Nat) : Entry α where
  column := j
  slot := l.ptr j + (r.cols j).length
  row := k
  value := r.values j * dInv j

/-- What the entry in column `j` takes along is carried on, and nothing is stored yet. -/
theorem Solving.solveEntry {a : Csc α} {s : Symbolic} (ha : Analyzed a s) {f₀ : Factorization α}
    {r : RowSolve α} {marked : Nat → Bool} {p : Progress α} (h : Solving s f₀ r marked p)
    {j : Nat} (hj : j < s.n) (hrows : ∀ e ∈ r.cols j, e.1 < s.n) {dInv : Nat → α}
    (hd : f₀.dInv[j]? = some (dInv j)) (k : Nat) :
    ∃ q, p.solveEntry k j = some (q, r.entry dInv k p.factor.l j) ∧ q.factor = p.factor ∧
      Solving s f₀
        { r with
          values := carry (r.values j) (r.cols j) r.values
          pivot := r.pivot - r.values j * (r.values j * dInv j) } marked q := by
  have hf := h.fits.framed ha
  have hncols := h.fits.ncols_eq
  have hend : p.factor.l.ptr j + (r.cols j).length ≤ p.factor.l.rowIdx.size :=
    Nat.le_trans (h.holds.room j hj) (hf.ptr_le (by omega))
  obtain ⟨values, hvalues, htab⟩ := subtractEntries_spec hend (hf.size_vals ▸ hend)
    (h.holds.entries j hj) hrows h.values (r.values j)
  refine ⟨{ p with
    work := { p.work with values }
    pivot := p.pivot - r.values j * (r.values j * dInv j) }, ?_, rfl, ?_⟩
  · rw [Progress.solveEntry, h.holds.next.get j hj, h.values.get j hj, hf.start?_eq (by omega),
      h.dInv_eq, hd]
    simp only [Option.bind_eq_bind, Option.bind_some, hvalues, Option.pure_def]
    rfl
  · exact { h with
      values := htab
      pivot := by rw [h.pivot] }

omit [Scalar α] in
/-- An entry of column `j` is stored, if there is room for it. -/
theorem Solving.store [Zero α] {a : Csc α} {s : Symbolic} (ha : Analyzed a s)
    {f₀ : Factorization α} {r : RowSolve α} {marked : Nat → Bool} {p : Progress α}
    (h : Solving s f₀ r marked p) {j : Nat} (hj : j < s.n)
    (hroom : p.factor.l.ptr j + (r.cols j).length < p.factor.l.ptr (j + 1)) {k : Nat}
    (hk : k < s.n) (value : α) :
    ∃ p', p.store ⟨j, p.factor.l.ptr j + (r.cols j).length, k, value⟩ = some p' ∧
      Solving s f₀
        { r with
          cols := Function.update r.cols j (r.cols j ++ [(k, value)])
          values := Function.update r.values j 0 } (Function.update marked j false) p' := by
  have hf := h.fits.framed ha
  have hncols := h.fits.ncols_eq
  have hpush := h.holds.push hf hncols hj hroom (k, value)
  obtain ⟨slot, hslot⟩ : ∃ slot, slot = p.factor.l.ptr j + (r.cols j).length := ⟨_, rfl⟩
  rw [← hslot] at hroom hpush ⊢
  have hend : slot < p.factor.l.rowIdx.size := Nat.lt_of_lt_of_le hroom (hf.ptr_le (by omega))
  refine ⟨{ p with
    factor := { p.factor with
      l := { p.factor.l with
        rowIdx := p.factor.l.rowIdx.setIfInBounds slot k
        vals := p.factor.l.vals.setIfInBounds slot value } }
    work := { p.work with
      next := p.work.next.setIfInBounds j (slot + 1)
      values := p.work.values.setIfInBounds j 0
      marked := p.work.marked.setIfInBounds j false } }, ?_, ?_⟩
  · rw [Progress.store]
    simp only [Option.bind_eq_bind, Option.bind_some, Option.pure_def, Access.write_of_lt hend,
      Access.write_of_lt (hf.size_vals ▸ hend), Access.write_of_lt (h.sized.next ▸ hj),
      Access.write_of_lt (h.sized.values ▸ hj), Access.write_of_lt (h.sized.marked ▸ hj)]
  · exact { h with
      fits := h.fits.setEntry slot hk value
      holds := hpush
      values := h.values.setIfInBounds j 0
      marked := h.marked.setIfInBounds j false }

theorem useColumn_spec {a : Csc α} {s : Symbolic} (ha : Analyzed a s) {f₀ : Factorization α}
    {r : RowSolve α} {marked : Nat → Bool} {p : Progress α} (h : Solving s f₀ r marked p)
    {k j : Nat} (hk : k < a.ncols) {rest : List Nat} (hp : Pending a s.parent k (j :: rest) r)
    {dInv : Nat → α} (hd : ∀ i < k, f₀.dInv[i]? = some (dInv i)) :
    ∃ q p', p.solveEntry k j = some (q, r.entry dInv k p.factor.l j) ∧
      q.store (r.entry dInv k p.factor.l j) = some p' ∧
      Solving s f₀ (r.use dInv k j) (Function.update marked j false) p' := by
  have hkn : k < s.n := ha.n_eq ▸ hk
  have hjk := (hp.inRow j List.mem_cons_self).lt
  have hjn := Nat.lt_trans hjk hkn
  have hrows : ∀ e ∈ r.cols j, e.1 < s.n := fun e he =>
    Nat.lt_trans (hp.mem_rest_of_row ha hk he).1 hkn
  obtain ⟨q, hsolve, hfactor, hq⟩ := h.solveEntry ha hjn hrows (hd j hjk) k
  have hroom := h.fits.room_of_pending ha hk hp
  rw [← hfactor] at hroom
  obtain ⟨p', hstore, h'⟩ := hq.store ha hjn hroom hkn (r.values j * dInv j)
  rw [hfactor] at hstore
  exact ⟨q, p', hsolve, hstore, h'⟩

/-- The next column is used, and the rest is still to be. -/
theorem useColumn_next {a : Csc α} {s : Symbolic} (ha : Analyzed a s) {f₀ : Factorization α}
    {k j : Nat} (hk : k < a.ncols) {dInv : Nat → α} (hd : ∀ i < k, f₀.dInv[i]? = some (dInv i))
    {rest : List Nat} {r : RowSolve α} {p : Progress α}
    (h : Solving s f₀ r (fun i => decide (i ∈ j :: rest)) p)
    (hp : Pending a s.parent k (j :: rest) r) :
    ∃ q p', p.solveEntry k j = some (q, r.entry dInv k p.factor.l j) ∧
      q.store (r.entry dInv k p.factor.l j) = some p' ∧
      Solving s f₀ (r.use dInv k j) (fun i => decide (i ∈ rest)) p' ∧
      Pending a s.parent k rest (r.use dInv k j) := by
  obtain ⟨q, p', hsolve, hstore, h'⟩ := useColumn_spec ha h hk hp hd
  have hmarked : Function.update (fun i => decide (i ∈ j :: rest)) j false =
      fun i => decide (i ∈ rest) := by
    funext i
    by_cases hij : i = j
    · subst hij
      simp [hp.ascending.1.2.1]
    · simp [hij]
  exact ⟨q, p', hsolve, hstore, hmarked ▸ h', hp.use ha hk dInv⟩

theorem useColumns_spec {a : Csc α} {s : Symbolic} (ha : Analyzed a s) {f₀ : Factorization α}
    {k : Nat} (hk : k < a.ncols) {dInv : Nat → α} (hd : ∀ i < k, f₀.dInv[i]? = some (dInv i))
    {rest : List Nat} {r : RowSolve α} {p : Progress α}
    (h : Solving s f₀ r (fun i => decide (i ∈ rest)) p) (hp : Pending a s.parent k rest r) :
    ∃ p', rest.foldlM (Progress.useColumn k) p = some p' ∧
      Solving s f₀ (rest.foldl (RowSolve.use dInv k) r) (fun _ => false) p' := by
  induction rest generalizing r p with
  | nil => exact ⟨p, rfl, by simpa using h⟩
  | cons j rest ih =>
      obtain ⟨q, p₁, hsolve, hstore, h₁, hp₁⟩ := useColumn_next ha hk hd h hp
      obtain ⟨p', hrest, h'⟩ := ih h₁ hp₁
      refine ⟨p', ?_, h'⟩
      rw [List.foldlM_cons, Progress.useColumn, hsolve]
      simp only [Option.bind_eq_bind, Option.bind_some, hstore]
      exact hrest

/-! ## Row after row -/

/-- The kernel has done `k` rows, and its state is that of the elimination. -/
structure Reached (a : Csc α) (s : Symbolic) (k : Nat) (st : Stage α) (p : Progress α) : Prop where
  fits : Fits s p.factor
  holds : Holds s.n st.cols p.factor.l p.work.next
  rows : HasRows a.ncols (rowsBefore a s.parent k) st.cols
  clean : Clean a.ncols p.work
  d : ∀ i < k, p.factor.d[i]? = some (st.d i)
  dInv : ∀ i < k, p.factor.dInv[i]? = some (st.dInv i)
  positive : p.factor.positive = st.positive

/-- Once its columns have been used, a row is closed. -/
theorem addRow_eq_closeRow {a : Csc α} (hr : a.Readable) {parent : Array (Option Nat)} {k : Nat}
    (hk : k < a.ncols) {p q : Progress α} {row : RowPattern α}
    (hrow : (a.col k).foldlM (RowPattern.addEntry parent k) ⟨p.work, 0, 0⟩ = some row)
    (hfound : Access.slice row.work.order 0 row.count = some (columnsOf a parent k).reverse)
    (hrun : (columnsOf a parent k).foldlM (Progress.useColumn k)
      { p with work := row.work, pivot := row.pivot } = some q) :
    p.addRow a parent k = q.closeRow k := by
  rw [Progress.addRow, hr.positions?_eq hk]
  simp only [Option.bind_eq_bind, Option.bind_some, hr.mapM_positions hk, hrow, hfound,
    List.reverse_reverse, hrun]

/-- The kernel gathers the columns of a row, and is ready to use them. -/
theorem solving_start {a : Csc α} (hu : a.Upper) {s : Symbolic} (ha : Analyzed a s) {k : Nat}
    (hk : k < a.ncols) {st : Stage α} {p : Progress α} (h : Reached a s k st p) :
    ∃ row, (a.col k).foldlM (RowPattern.addEntry s.parent k) ⟨p.work, 0, 0⟩ = some row ∧
      Gathered a s.parent k p.work.next (a.col k) row ∧ row.columns = columnsOf a s.parent k ∧
      Solving s p.factor (RowSolve.start a k st.cols)
        (fun i => decide (i ∈ columnsOf a s.parent k))
        { p with work := row.work, pivot := row.pivot } := by
  have hrise : ∀ i p, Parent s.parent i p → i < p := fun i p hp => (ha.rising i p hp).1
  have hn := ha.n_eq
  obtain ⟨row, hrow, hg⟩ := gather_spec hu ha.size_parent hrise hk h.clean
  have hcolumns : row.columns = columnsOf a s.parent k := hg.columns_eq
  rw [← hcolumns]
  exact ⟨row, hrow, hg, rfl,
    { fits := h.fits
      holds := by rw [hg.next_eq]; exact h.holds
      values := ⟨by rw [hg.size_values, hn], fun i hi => hg.values i (by omega)⟩
      marked := ⟨by rw [hg.size_marked, hn], fun i hi => hg.marked i (by omega)⟩
      size_order := by rw [hg.size_order, hn]
      size_path := by rw [hg.size_path, hn]
      pivot := hg.pivot
      d_eq := rfl
      dInv_eq := rfl
      positive_eq := rfl }⟩

theorem solveRow_spec {a : Csc α} (hr : a.Readable) (hu : a.Upper) {s : Symbolic}
    (ha : Analyzed a s) {k : Nat} (hk : k < a.ncols) {st : Stage α} {p : Progress α}
    (h : Reached a s k st p) :
    ∃ q, p.addRow a s.parent k = q.closeRow k ∧
      Solving s p.factor (st.solveRow a s.parent k) (fun _ => false) q := by
  obtain ⟨row, hrow, hg, -, hstart⟩ := solving_start hu ha hk h
  obtain ⟨q, hrun, hq⟩ :=
    useColumns_spec ha hk h.dInv hstart (pending_start hu ha hk h.rows)
  exact ⟨q, addRow_eq_closeRow hr hk hrow hg.slice_order hrun, hq⟩

theorem Solving.clean {a : Csc α} {s : Symbolic} (hn : s.n = a.ncols) {f₀ : Factorization α}
    {r : RowSolve α} {p : Progress α} (h : Solving s f₀ r (fun _ => false) p)
    (hzero : ∀ i, r.values i = 0) : Clean a.ncols p.work := by
  rw [← hn]
  exact ⟨h.marked.ext (.replicate _ _) fun _ _ => rfl,
    h.values.ext (.replicate _ _) fun i _ => hzero i, h.size_order, h.size_path⟩

omit [Scalar α] in
theorem getElem?_setIfInBounds_lt {xs : Array α} {f : Nat → α} {n k i : Nat} {x : α}
    (hsize : xs.size = n) (hk : k < n) (h : ∀ i < k, xs[i]? = some (f i)) (hi : i < k + 1) :
    (xs.setIfInBounds k x)[i]? = some (Function.update f k x i) := by
  rw [Array.getElem?_setIfInBounds]
  by_cases hik : k = i
  · subst hik
    simp [hsize, hk]
  · rw [if_neg hik, h i (by omega), Function.update_of_ne (Ne.symm hik)]

/-- One row of the kernel is one row of the elimination. -/
theorem addRow_spec {a : Csc α} (hr : a.Readable) (hu : a.Upper) {s : Symbolic}
    (ha : Analyzed a s) {k : Nat} (hk : k < a.ncols) {st : Stage α} {p : Progress α}
    (h : Reached a s k st p) :
    ∃ p', p.addRow a s.parent k = some (p', (st.addRow a s.parent k).2) ∧ Ready s p'.finish ∧
      ((st.addRow a s.parent k).2 = true →
        Reached a s (k + 1) (st.addRow a s.parent k).1 p') := by
  have hn := ha.n_eq
  obtain ⟨q, hclose, hq⟩ := solveRow_spec hr hu ha hk h
  have hclean := hq.clean hn fun i => (pending_solveRow hu ha hk h.rows).zero i (by simp)
  have hd : k < q.factor.d.size := by rw [hq.fits.size_d]; omega
  have hdInv : k < q.factor.dInv.size := by rw [hq.fits.size_dInv]; omega
  have hfits : Fits s { q.factor with d := q.factor.d.setIfInBounds k q.pivot } :=
    { hq.fits with size_d := by simpa using hq.fits.size_d }
  rw [hclose, Progress.closeRow, Access.write_of_lt hd, Stage.addRow, ← hq.pivot]
  by_cases hz : Scalar.isZero q.pivot = true
  · refine ⟨{ q with factor := { q.factor with d := q.factor.d.setIfInBounds k q.pivot } },
      ?_, ⟨hfits, hq.sized⟩, ?_⟩
    · simp [hz]
    · simp [hz]
  · refine ⟨{ q with factor := { q.factor with
        d := q.factor.d.setIfInBounds k q.pivot
        dInv := q.factor.dInv.setIfInBounds k (1 / q.pivot)
        positive := if Scalar.isPositive q.pivot then q.factor.positive + 1
          else q.factor.positive } }, ?_, ?_, fun _ => ?_⟩
    · simp [hz, Access.write_of_lt hdInv]
    · exact ⟨{ hfits with size_dInv := by simpa [Progress.finish] using hq.fits.size_dInv },
        hq.sized⟩
    · simp only [hz]
      exact
        { fits := { hfits with size_dInv := by simpa using hq.fits.size_dInv }
          holds := hq.holds
          rows := hasRows_solveRow hu ha hk h.rows
          clean := hclean
          d := fun i hi => getElem?_setIfInBounds_lt hq.fits.size_d (by omega)
            (fun i hi => by rw [hq.d_eq]; exact h.d i hi) hi
          dInv := fun i hi => getElem?_setIfInBounds_lt hq.fits.size_dInv (by omega)
            (fun i hi => by rw [hq.dInv_eq]; exact h.dInv i hi) hi
          positive := by rw [hq.positive_eq, h.positive]; rfl }

theorem Reached.ready {a : Csc α} {s : Symbolic} (ha : Analyzed a s) {k : Nat} {st : Stage α}
    {p : Progress α} (h : Reached a s k st p) : Ready s p.finish where
  fits := h.fits
  sized := by
    have hn := ha.n_eq
    have hclean := h.clean
    exact ⟨by simp [Progress.finish, hclean.marked_eq, hn], hclean.size_order.trans hn.symm,
      hclean.size_path.trans hn.symm, h.holds.next.size_eq,
      by simp [Progress.finish, hclean.values_eq, hn]⟩

theorem addRows_spec {a : Csc α} (hr : a.Readable) (hu : a.Upper) {s : Symbolic}
    (ha : Analyzed a s) :
    ∀ {m k : Nat} {st : Stage α} {p : Progress α}, k + m = a.ncols → Reached a s k st p →
      ∃ p', p.addRows a s.parent (List.range' k m) =
          some (p', (st.addRows a s.parent (List.range' k m)).2) ∧ Ready s p'.finish ∧
        ((st.addRows a s.parent (List.range' k m)).2 = none →
          Reached a s a.ncols (st.addRows a s.parent (List.range' k m)).1 p') := by
  intro m
  induction m with
  | zero =>
      intro k st p hkm h
      obtain rfl : k = a.ncols := by omega
      exact ⟨p, rfl, h.ready ha, fun _ => h⟩
  | succ m ih =>
      intro k st p hkm h
      obtain ⟨p₁, hrun, hready, hnext⟩ := addRow_spec hr hu ha (by omega) h
      rw [List.range'_succ, Progress.addRows, hrun, Stage.addRows]
      cases hadd : st.addRow a s.parent k with
      | mk st₁ b =>
          rw [hadd] at hnext
          cases b with
          | true => exact ih (by omega) (hnext rfl)
          | false => exact ⟨p₁, rfl, hready, fun hnone => by cases hnone⟩

/-! ## The whole factor -/

/-- The arrays of the factor hold the result of an elimination. -/
structure Complete (a : Csc α) (s : Symbolic) (st : Stage α) (f : Factorization α) : Prop where
  fits : Fits s f
  col_eq : ∀ j < a.ncols, f.l.col j = st.cols j
  rows : HasRows a.ncols (rowsBefore a s.parent a.ncols) st.cols
  d : Access.Tabulates f.d a.ncols st.d
  dInv : Access.Tabulates f.dInv a.ncols st.dInv
  positive : f.positive = st.positive

omit [Scalar α] in
/-- The result of an elimination can be held in one way only. -/
theorem Complete.unique {a : Csc α} {s : Symbolic} (ha : Analyzed a s) {st : Stage α}
    {f g : Factorization α} (hf : Complete a s st f) (hg : Complete a s st g) : f = g := by
  have hl : f.l = g.l := by
    refine (hf.fits.framed ha).ext (hg.fits.framed ha) ?_ ?_ ?_ fun j hj => ?_
    · rw [hf.fits.nrows_eq, hg.fits.nrows_eq]
    · rw [hf.fits.ncols_eq, hg.fits.ncols_eq]
    · exact hf.fits.colPtr.ext hg.fits.colPtr fun _ _ => rfl
    · rw [hf.fits.ncols_eq, ha.n_eq] at hj
      rw [hf.col_eq j hj, hg.col_eq j hj]
  have hd := hf.d.ext hg.d fun _ _ => rfl
  have hdInv := hf.dInv.ext hg.dInv fun _ _ => rfl
  have hpos := hf.positive.trans hg.positive.symm
  cases f
  cases g
  simp_all

theorem Reached.complete {a : Csc α} {s : Symbolic} (ha : Analyzed a s) {st : Stage α}
    {p : Progress α} (h : Reached a s a.ncols st p) : Complete a s st p.factor where
  fits := h.fits
  col_eq j hj := by
    have hn := ha.n_eq
    have hlen : (st.cols j).length = (rowsBefore a s.parent a.ncols j).length := by
      rw [← h.rows j hj, List.length_map]
    rw [Csc.col, h.fits.ptr_succ ha hj, ← hlen]
    exact h.holds.entries j (by omega)
  rows := h.rows
  d := ⟨by rw [h.fits.size_d, ha.n_eq], h.d⟩
  dInv := ⟨by rw [h.fits.size_dInv, ha.n_eq], h.dInv⟩
  positive := h.positive

/-- A run starts in a state in which no row has been done. -/
theorem exists_prepare {a : Csc α} {s : Symbolic} (ha : Analyzed a s) {f : Numeric α}
    (hf : Ready s f) : ∃ p, f.prepare s.n = some p ∧ Reached a s 0 Stage.start p := by
  have hn := ha.n_eq
  have hncols := hf.fits.ncols_eq
  have hframed := hf.fits.framed ha
  have hsize := hframed.size_colPtr
  have hslice : Access.slice f.l.colPtr 0 s.n = some (f.l.colPtr.extract 0 s.n).toList :=
    Access.slice_of_le (Nat.zero_le _) (by omega)
  have hlength : (f.l.colPtr.extract 0 s.n).toList.length = f.work.next.size := by
    rw [Array.length_toList, Array.size_extract, hf.sized.next]
    omega
  refine ⟨{
    factor := { f.toFactorization with positive := 0 }
    work := { f.work with
      marked := Array.replicate f.work.marked.size false
      next := (f.l.colPtr.extract 0 s.n).toList.toArray
      values := Array.replicate f.work.values.size 0 }
    pivot := 0 }, ?_, ?_⟩
  · rw [Numeric.prepare, hslice]
    simp only [Option.bind_eq_bind, Option.bind_some, Workspace.reset, hlength, if_true,
      Option.pure_def]
  · exact
      { fits := { hf.fits with }
        holds := by
          rw [Array.toArray_toList]
          refine ⟨⟨?_, fun i hi => ?_⟩, fun i hi => ?_, fun i hi => Csc.entriesAt_self _ _⟩
          · rw [Array.size_extract]
            omega
          · rw [Array.getElem?_extract, if_pos (by omega), Nat.zero_add]
            exact hframed.getElem?_colPtr (by omega)
          · exact hframed.ptr_succ i (by omega)
        rows := fun i hi => by simp [rowsBefore, Stage.start]
        clean := ⟨by rw [hf.sized.marked, hn], by rw [hf.sized.values, hn],
          hf.sized.order.trans hn, hf.sized.path.trans hn⟩
        d := fun i hi => absurd hi (Nat.not_lt_zero i)
        dInv := fun i hi => absurd hi (Nat.not_lt_zero i)
        positive := rfl }

/-- Overwriting a factor computes the elimination, whatever the factor held. -/
theorem overwrite_spec {a : Csc α} (hr : a.Readable) (hu : a.Upper) {s : Symbolic}
    (ha : Analyzed a s) {f : Numeric α} (hf : Ready s f) :
    ∃ f', overwrite a s f = some (f', (eliminate a s.parent).2) ∧ Ready s f' ∧
      ((eliminate a s.parent).2 = none →
        Complete a s (eliminate a s.parent).1 f'.toFactorization) := by
  obtain ⟨start, hstart, h0⟩ := exists_prepare ha hf
  obtain ⟨p, hrun, hready, hdone⟩ := addRows_spec hr hu ha (m := a.ncols) (Nat.zero_add _) h0
  rw [← List.range_eq_range'] at hrun hdone
  refine ⟨p.finish, ?_, hready, fun hnone => (hdone hnone).complete ha⟩
  rw [overwrite, hstart, ha.n_eq]
  simp only [Option.bind_eq_bind, Option.bind_some, hrun]
  rfl

omit [Scalar α] in
/-- The pointers lead from room to room. -/
theorem exists_columnPointers {a : Csc α} {s : Symbolic} (ha : Analyzed a s) :
    ∃ colPtr, columnPointers s = some colPtr ∧ Access.Tabulates colPtr (s.n + 1) s.start := by
  have hsize : s.counts.size = s.n := by rw [ha.size_counts, ha.n_eq]
  have hstart : Access.Tabulates (Array.replicate (s.n + 1) 0) (s.n + 1)
      fun j => if j ≤ 0 then s.start j else 0 := by
    refine (Access.Tabulates.replicate (s.n + 1) 0).congr fun j _ => ?_
    by_cases hj : j ≤ 0
    · rw [if_pos hj, Nat.le_zero.mp hj]
      rfl
    · rw [if_neg hj]
  obtain ⟨colPtr, hrun, htab⟩ := foldlM_range_total (f := s.setPointer) (n := s.n)
    (fun k colPtr => Access.Tabulates colPtr (s.n + 1) fun j => if j ≤ k then s.start j else 0)
    hstart fun k colPtr hk h => by
      have hlt : k < s.counts.size := by omega
      obtain ⟨next, hwrite, hnext⟩ := h.write (i := k + 1) (by omega) (s.start k + s.counts[k])
      refine ⟨next, ?_, hnext.congr fun j _ => ?_⟩
      · rw [Symbolic.setPointer, h.get k (by omega), if_pos (Nat.le_refl k),
          Array.getElem?_eq_getElem hlt]
        exact hwrite
      · rw [Function.update_apply]
        by_cases hj : j = k + 1
        · rw [if_pos hj, if_pos hj.le, hj, Symbolic.start_succ hlt]
        · simp only [if_neg hj, show (j ≤ k + 1) ↔ (j ≤ k) by omega]
  exact ⟨colPtr, hrun, htab.congr fun j hj => if_pos (Nat.le_of_lt_succ hj)⟩

/-- There is room for a run in new arrays. -/
theorem exists_blank {a : Csc α} {s : Symbolic} (ha : Analyzed a s) :
    ∃ f : Numeric α, blank s = some f ∧ Ready s f := by
  obtain ⟨colPtr, hcolPtr, htab⟩ := exists_columnPointers ha
  refine ⟨_, by rw [blank, hcolPtr]; rfl, ?_, ?_⟩
  · exact
      { nrows_eq := rfl
        ncols_eq := rfl
        colPtr := htab
        size_rowIdx := by simp
        size_vals := by simp
        size_d := by simp
        size_dInv := by simp
        row_lt := fun p row hp => by
          obtain ⟨htotal, rfl⟩ : p < s.total ∧ 0 = row := by
            simp only [Array.getElem?_replicate] at hp
            split at hp
            · next htotal => exact ⟨htotal, Option.some.inj hp⟩
            · cases hp
          rcases Nat.eq_zero_or_pos s.n with h0 | hpos
          · -- Without columns there is nothing to count.
            rw [← ha.start_n, h0] at htotal
            exact absurd htotal (Nat.not_lt_zero p)
          · exact hpos }
  · constructor <;> simp [Workspace.blank]

omit [Scalar α] in
theorem checkDimensions_eq_ok {a : Csc α} (hu : a.Upper) {s : Symbolic} (ha : Analyzed a s) :
    checkDimensions a s = .ok () := by
  rw [checkDimensions, if_neg (not_not_intro hu.square), if_neg (not_not_intro ha.n_eq.symm)]

/-- How an elimination that ended at the given column is reported. -/
def outcome : Option Nat → Except Error Unit
  | none => .ok ()
  | some column => .error (.zeroPivot column)

theorem factor_of_overwrite {a : Csc α} (hu : a.Upper) {s : Symbolic} (ha : Analyzed a s)
    {f₀ f : Numeric α} {stop : Option Nat} (h₀ : blank s = some f₀)
    (h : overwrite a s f₀ = some (f, stop)) :
    (factor a s).run = some ((outcome stop).map fun _ => f) := by
  rw [factor, checkDimensions_eq_ok hu ha, h₀, Checked.run_ok_bind, Checked.run_some_bind, h,
    Checked.run_some_bind]
  cases stop <;> rfl

theorem refactor_of_overwrite {a : Csc α} (hu : a.Upper) {s : Symbolic} (ha : Analyzed a s)
    {f g : Numeric α} (hf : Fits s f.toFactorization) {stop : Option Nat}
    (h : overwrite a s f = some (g, stop)) : refactor a s f = some (g, outcome stop) := by
  have hcheck : checkRefactor a s f = .ok () := by
    have hroom : ¬ (f.n ≠ s.n ∨ f.l.nnz ≠ s.total) := by
      rw [Factorization.n, Csc.nnz, hf.size_d, hf.size_rowIdx]
      simp
    rw [checkRefactor, checkDimensions_eq_ok hu ha]
    simp only [hroom]
    rfl
  rw [refactor, hcheck, h]
  cases stop <;> rfl

/-- Factoring reports what the elimination comes to. -/
theorem factor_spec {a : Csc α} (hr : a.Readable) (hu : a.Upper) {s : Symbolic}
    (ha : Analyzed a s) :
    ∃ f, (factor a s).run = some ((outcome (eliminate a s.parent).2).map fun _ => f) ∧
      Ready s f ∧
      ((eliminate a s.parent).2 = none →
        Complete a s (eliminate a s.parent).1 f.toFactorization) := by
  obtain ⟨f₀, hblank, hready⟩ := exists_blank (α := α) ha
  obtain ⟨f, hrun, hf, hdone⟩ := overwrite_spec hr hu ha hready
  exact ⟨f, factor_of_overwrite hu ha hblank hrun, hf, hdone⟩

/-- What a factor is that has been returned. -/
theorem factor_eq_ok {a : Csc α} (hr : a.Readable) (hu : a.Upper) {s : Symbolic}
    (ha : Analyzed a s) {f : Numeric α} (hf : (factor a s).run = some (.ok f)) :
    (eliminate a s.parent).2 = none ∧ Ready s f ∧
      Complete a s (eliminate a s.parent).1 f.toFactorization := by
  obtain ⟨g, hrun, hg, hdone⟩ := factor_spec hr hu ha
  rw [hf] at hrun
  cases hstop : (eliminate a s.parent).2 with
  | none =>
      rw [hstop] at hrun
      cases hrun
      exact ⟨rfl, hg, hdone hstop⟩
  | some k =>
      rw [hstop] at hrun
      cases hrun

/-- So does refactoring, whatever the factor held before. -/
theorem refactor_spec {a : Csc α} (hr : a.Readable) (hu : a.Upper) {s : Symbolic}
    (ha : Analyzed a s) {f : Numeric α} (hf : Ready s f) :
    ∃ g, refactor a s f = some (g, outcome (eliminate a s.parent).2) ∧ Ready s g ∧
      ((eliminate a s.parent).2 = none →
        Complete a s (eliminate a s.parent).1 g.toFactorization) := by
  obtain ⟨g, hrun, hg, hdone⟩ := overwrite_spec hr hu ha hf
  exact ⟨g, refactor_of_overwrite hu ha hf.fits hrun, hg, hdone⟩

end Saddle.Factor
