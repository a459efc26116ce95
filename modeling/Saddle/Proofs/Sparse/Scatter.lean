import Saddle.Proofs.Sparse.Permute
import Saddle.Sparse.Permute

/-!
# Scattering and sorting

A relabelling moves entries twice. First each is put at the next free position of its new
column, so that the columns have their entries but not in order. Then each column is
sorted, and with every entry goes the number that it had in the old matrix.

`Lies` is what both passes keep: the entry with number `p` is at position `moved[p]`, which
is in its column, and no other entry is there. The first pass establishes it for one entry
after the other; a column that is sorted keeps it because the entries that are written are
those that have been read, each with its own number. In the end nothing is left but one
order, so the result is the one that a single stable sort of all moved cells gives.
-/

namespace Saddle.Csc

open Cell

variable {α : Type}

/-! ## The positions of a column -/

/-- How many of the entries are in the columns before `j`. -/
def before (columns : List Nat) (j : Nat) : Nat := columns.countP (· < j)

section Before

variable {columns : List Nat} {j k q : Nat}

theorem before_succ (columns : List Nat) (j : Nat) :
    before columns (j + 1) = before columns j + columns.count j :=
  countP_lt_succ columns j

theorem before_mono (columns : List Nat) (h : j ≤ k) : before columns j ≤ before columns k :=
  List.countP_mono_left fun c _ hc => by
    rw [decide_eq_true_eq] at hc ⊢
    omega

theorem before_le_length (columns : List Nat) (j : Nat) :
    before columns j ≤ columns.length := List.countP_le_length

/-- No position is in two columns. -/
theorem column_unique_of_before (hj : before columns j ≤ q) (hj' : q < before columns (j + 1))
    (hk : before columns k ≤ q) (hk' : q < before columns (k + 1)) : j = k := by
  rcases Nat.lt_trichotomy j k with hlt | heq | hgt
  · have := before_mono columns (j := j + 1) hlt
    omega
  · exact heq
  · have := before_mono columns (j := k + 1) hgt
    omega

end Before

/-! ## Putting one entry -/

/-- The arrays have room for entries in the given columns, and the column pointers are theirs. -/
structure Moving.Sized (n : Nat) (columns : List Nat) (s : Moving α) : Prop where
  nrows_eq : s.matrix.nrows = n
  ncols_eq : s.matrix.ncols = n
  colPtr_eq : s.matrix.colPtr = pointers n columns
  size_rowIdx : s.matrix.rowIdx.size = columns.length
  size_vals : s.matrix.vals.size = columns.length
  size_moved : s.moved.size = columns.length

section Put

variable {n p q row : Nat} {value : α} {columns : List Nat} {s s' : Moving α}

/-- The entry is at its new position, and nothing else has changed. -/
structure Moving.Put (s : Moving α) (p q : Nat) (e : Nat × α) (s' : Moving α) : Prop where
  moved_self : s'.moved[p]? = some q
  moved_of_ne : ∀ p' ≠ p, s'.moved[p']? = s.moved[p']?
  entry_self : s'.matrix.entry? q = some e
  entry_of_ne : ∀ q' ≠ q, s'.matrix.entry? q' = s.matrix.entry? q'

theorem Moving.Sized.lt_length (h : s.Sized n columns) (hq : s.moved[p]? = some q) :
    p < columns.length :=
  h.size_moved ▸ (Array.getElem?_eq_some_iff.mp hq).1

theorem Moving.Sized.exists_cell {cells : List (Cell α)} (h : s.Sized n (cells.map column))
    (hq : s.moved[p]? = some q) : ∃ c, cells[p]? = some c :=
  ⟨_, List.getElem?_eq_getElem (by simpa using h.lt_length hq)⟩

theorem Moving.Sized.put (h : s.Sized n columns) (hp : p < columns.length)
    (hq : q < columns.length) (row : Nat) (value : α) :
    ∃ s', s.put p q row value = some s' ∧ s'.Sized n columns ∧ s.Put p q (row, value) s' := by
  obtain ⟨rowIdx, hrow⟩ := Access.exists_write (h.size_rowIdx.symm ▸ hq) row
  obtain ⟨vals, hvals⟩ := Access.exists_write (h.size_vals.symm ▸ hq) value
  obtain ⟨moved, hmoved⟩ := Access.exists_write (h.size_moved.symm ▸ hp) q
  refine ⟨⟨{ s.matrix with rowIdx, vals }, moved⟩, ?_, ?_, ?_⟩
  · rw [Moving.put, hrow, hvals, hmoved]
    rfl
  · exact ⟨h.nrows_eq, h.ncols_eq, h.colPtr_eq, (Access.size_of_write hrow).trans h.size_rowIdx,
      (Access.size_of_write hvals).trans h.size_vals,
      (Access.size_of_write hmoved).trans h.size_moved⟩
  · refine ⟨Access.getElem?_of_write_self hmoved, fun p' => Access.getElem?_of_write hmoved, ?_,
      fun q' hq' => ?_⟩
    · rw [ entry?, Access.getElem?_of_write_self hrow, Access.getElem?_of_write_self hvals]
      rfl
    · rw [ entry?, Access.getElem?_of_write hrow hq', Access.getElem?_of_write hvals hq', entry?]

end Put

/-! ## Counting -/

section Walk

variable {a : Csc α} {n : Nat} {labels : Array Nat} {label : Nat → Nat}

theorem label_row (ht : Access.Tabulates labels n label) (htri : InTriangle n a.cellList)
    {c : Cell α} (hc : c ∈ a.cellList) : labels[c.row]? = some (label c.row) :=
  ht.get _ (Nat.lt_of_le_of_lt (htri c hc).1 (htri c hc).2)

theorem moveCell_column (label : Nat → Nat) (c : Cell α) :
    (moveCell label c).column = max (label c.row) (label c.column) := rfl

theorem column_moveCell_lt (hl : Labels n label) (htri : InTriangle n a.cellList) {c : Cell α}
    (hc : c ∈ a.cellList) : (moveCell label c).column < n := by
  have h := htri c hc
  rw [moveCell_column]
  exact Nat.max_lt.mpr ⟨hl.lt _ (Nat.lt_of_le_of_lt h.1 h.2), hl.lt _ h.2⟩

theorem countMoved_spec (ha : a.Framed) (hn : a.ncols = n) (ht : Access.Tabulates labels n label)
    (hl : Labels n label) (htri : InTriangle n a.cellList) :
    ∃ counts, (List.range a.ncols).foldlM (a.countMoved labels)
        (Array.replicate (a.ncols + 1) 0) = some counts ∧
      Access.Tabulates counts (n + 1)
        (countBehind ((a.cellList.map (moveCell label)).map column)) := by
  subst hn
  refine foldlM_range_total (I := fun k counts => Access.Tabulates counts (a.ncols + 1)
    (countBehind (((a.cellsBefore k).map (moveCell label)).map column)))
    (tabulates_countBehind_nil a.ncols) fun j counts hj hcounts => ?_
  rw [countMoved, ht.get j hj, ha.column?_eq hj]
  refine ha.foldlM_col hj (I := fun done counts => Access.Tabulates counts (a.ncols + 1)
    (countBehind ((done.map (moveCell label)).map column))) hcounts
    fun done c rest counts hsplit hcj hcounts => ?_
  have hc : c ∈ a.cellList := by rw [hsplit]; simp
  obtain ⟨counts', hadjust, hcounts'⟩ :=
    tabulates_countBehind_snoc hcounts (column_moveCell_lt hl htri hc)
  refine ⟨counts', ?_, by simpa using hcounts'⟩
  simp only [entry, label_row ht htri hc, ← hcj, Option.bind_eq_bind, Option.bind_some]
  exact hadjust

end Walk

/-! ## Scattering -/

section Scatter

variable {n : Nat} {done rest cells : List (Cell α)} {next : Array Nat} {s : Moving α} {c : Cell α}

/-- The first cells have been put into their columns, each column being filled from its start. -/
structure Scattered (n : Nat) (done rest : List (Cell α)) (next : Array Nat) (s : Moving α) :
    Prop where
  sized : s.Sized n ((done ++ rest).map column)
  next : Access.Tabulates next (n + 1) fun j =>
    before ((done ++ rest).map column) j + (done.map column).count j
  put : ∀ (p : Nat) (c : Cell α), done[p]? = some c → ∃ q, s.moved[p]? = some q ∧
    s.matrix.entry? q = some c.entry ∧ before ((done ++ rest).map column) c.column ≤ q ∧
    q < before ((done ++ rest).map column) c.column + (done.map column).count c.column
  inj : ∀ p p' q : Nat, p < done.length → p' < done.length → s.moved[p]? = some q →
    s.moved[p']? = some q → p = p'

theorem before_add_count_le (done rest : List (Cell α)) (j : Nat) :
    before ((done ++ rest).map column) j + (done.map column).count j ≤
      before ((done ++ rest).map column) (j + 1) := by
  rw [before_succ, List.map_append, List.count_append]
  omega

/-- A column has a free position until it has all its cells. -/
theorem before_add_count_lt (done rest : List (Cell α)) (c : Cell α) :
    before ((done ++ c :: rest).map column) c.column + (done.map column).count c.column <
      before ((done ++ c :: rest).map column) (c.column + 1) := by
  rw [before_succ, List.map_append, List.count_append, List.map_cons, List.count_cons_self]
  omega

theorem count_concat (done : List (Cell α)) (c : Cell α) (j : Nat) :
    ((done ++ [c]).map column).count j =
      (done.map column).count j + if c.column = j then 1 else 0 := by
  rw [List.map_append, List.count_append, List.map_singleton, List.count_singleton]
  simp only [beq_iff_eq]

/-- The next free position of a column is behind those taken in this column, and outside the
others. -/
theorem Scattered.ne_free (h : Scattered n done (c :: rest) next s) {p q : Nat}
    (hp : p < done.length) (hq : s.moved[p]? = some q) :
    q ≠ before ((done ++ c :: rest).map column) c.column + (done.map column).count c.column := by
  rintro rfl
  obtain ⟨q, hq', -, hle, hlt⟩ := h.put p done[p] (List.getElem?_eq_getElem hp)
  obtain rfl := Option.some.inj (hq.symm.trans hq')
  have hcolumn := column_unique_of_before (Nat.le_add_right _ _) (before_add_count_lt done rest c)
    hle (Nat.lt_of_lt_of_le hlt (before_add_count_le done (c :: rest) done[p].column))
  rw [← hcolumn] at hlt
  exact Nat.lt_irrefl _ hlt

/-- The next cell is put at the next free position of its column. -/
theorem Scattered.step (h : Scattered n done (c :: rest) next s) (hc : c.column < n) :
    ∃ q next' s', next[c.column]? = some q ∧
      Access.adjust next c.column (· + 1) = some next' ∧
      s.put done.length q c.row c.value = some s' ∧ Scattered n (done ++ [c]) rest next' s' := by
  have hall : done ++ c :: rest = done ++ [c] ++ rest := List.append_cons done c rest
  obtain ⟨next', hadjust, hnext⟩ := h.next.adjust (i := c.column) (by omega) (· + 1)
  have hfree := Nat.lt_of_lt_of_le (before_add_count_lt done rest c) (before_le_length _ _)
  have hlength : done.length < ((done ++ c :: rest).map column).length := by simp
  obtain ⟨s', hput, hsized, hs'⟩ := h.sized.put hlength hfree c.row c.value
  refine ⟨_, next', s', h.next.get _ (by omega), hadjust, hput, hall ▸ hsized,
    hall ▸ hnext.congr fun j _ => ?_, fun p d hd => ?_, fun p p' q hp hp' hq hq' => ?_⟩
  · rw [Function.update_apply, count_concat]
    by_cases hj : j = c.column
    · rw [if_pos hj, if_pos hj.symm, hj, Nat.add_assoc]
    · rw [if_neg hj, if_neg (Ne.symm hj), Nat.add_zero]
  · rw [← hall, count_concat]
    rcases Nat.lt_or_ge p done.length with hp | hp
    · rw [List.getElem?_append_left hp] at hd
      obtain ⟨q, hq, hentry, hle, hlt⟩ := h.put p d hd
      refine ⟨q, by rw [hs'.moved_of_ne p (Nat.ne_of_lt hp), hq], ?_, hle, by omega⟩
      rw [hs'.entry_of_ne q (h.ne_free hp hq), hentry]
    · obtain rfl : p = done.length := by
        have := (List.getElem?_eq_some_iff.mp hd).1
        rw [List.length_append, List.length_singleton] at this
        omega
      obtain rfl : c = d := by simpa using hd
      exact ⟨_, hs'.moved_self, hs'.entry_self, Nat.le_add_right _ _, by simp⟩
  · have hold : ∀ p < done.length, ∀ q, s'.moved[p]? = some q → s.moved[p]? = some q ∧
        q ≠ before ((done ++ c :: rest).map column) c.column +
          (done.map column).count c.column := by
      intro p hp q hq
      rw [hs'.moved_of_ne p (Nat.ne_of_lt hp)] at hq
      exact ⟨hq, h.ne_free hp hq⟩
    have hlast : ∀ q, s'.moved[done.length]? = some q →
        q = before ((done ++ c :: rest).map column) c.column +
          (done.map column).count c.column := fun q hq =>
      Option.some.inj (hq.symm.trans hs'.moved_self)
    rw [List.length_append, List.length_singleton] at hp hp'
    rcases Nat.lt_or_eq_of_le (Nat.le_of_lt_succ hp) with hp | rfl
    · rcases Nat.lt_or_eq_of_le (Nat.le_of_lt_succ hp') with hp' | rfl
      · exact h.inj p p' q hp hp' (hold p hp q hq).1 (hold p' hp' q hq').1
      · exact absurd (hlast q hq') (hold p hp q hq).2
    · rcases Nat.lt_or_eq_of_le (Nat.le_of_lt_succ hp') with hp' | rfl
      · exact absurd (hlast q hq) (hold p' hp' q hq').2
      · rfl

end Scatter

/-! ## Every entry at a position of its own -/

/-- The entry with number `p` is at position `moved[p]`, which is in its column, and no other entry
is there. -/
structure Lies (n : Nat) (cells : List (Cell α)) (s : Moving α) : Prop where
  sized : s.Sized n (cells.map column)
  put : ∀ (p : Nat) (c : Cell α), cells[p]? = some c → ∃ q, s.moved[p]? = some q ∧
    s.matrix.entry? q = some c.entry ∧ before (cells.map column) c.column ≤ q ∧
    q < before (cells.map column) (c.column + 1)
  inj : ∀ p p' q : Nat, s.moved[p]? = some q → s.moved[p']? = some q → p = p'

section Lies

variable {n j p q : Nat} {cells : List (Cell α)} {s : Moving α}

theorem lies_of_scattered {next : Array Nat} (h : Scattered n cells [] next s) :
    Lies n cells s := by
  have hnil : cells ++ [] = cells := List.append_nil cells
  have hsized := hnil ▸ h.sized
  have hlt : ∀ p q, s.moved[p]? = some q → p < cells.length := fun p q hq => by
    simpa using hsized.lt_length hq
  refine ⟨hsized, fun p c hc => ?_, fun p p' q hq hq' =>
    h.inj p p' q (hlt p q hq) (hlt p' q hq') hq hq'⟩
  obtain ⟨q, hq, hentry, hle, hq'⟩ := h.put p c hc
  have hend := before_add_count_le cells [] c.column
  rw [hnil] at hle hq' hend
  exact ⟨q, hq, hentry, hle, Nat.lt_of_lt_of_le hq' hend⟩

namespace Lies

/-- What the entry that has moved to a position of column `j` is. -/
theorem of_moved (h : Lies n cells s) (hq : s.moved[p]? = some q)
    (hle : before (cells.map column) j ≤ q) (hlt : q < before (cells.map column) (j + 1)) :
    ∃ c, cells[p]? = some c ∧ c.column = j ∧ s.matrix.entry? q = some c.entry := by
  obtain ⟨c, hc⟩ := h.sized.exists_cell hq
  obtain ⟨q', hq', hentry, hle', hlt'⟩ := h.put p c hc
  obtain rfl := Option.some.inj (hq.symm.trans hq')
  exact ⟨c, hc, column_unique_of_before hle' hlt' hle hlt, hentry⟩

theorem perm_range (h : Lies n cells s) : s.moved.toList.Perm (List.range cells.length) := by
  have hsize : s.moved.size = cells.length := by rw [h.sized.size_moved, List.length_map]
  have hnodup : s.moved.toList.Nodup := by
    rw [List.nodup_iff_injective_get]
    intro p p' heq
    refine Fin.ext (h.inj p p' (s.moved.toList.get p) ?_ ?_)
    · rw [← Array.getElem?_toList, List.get_eq_getElem, List.getElem?_eq_getElem]
    · rw [heq, ← Array.getElem?_toList, List.get_eq_getElem, List.getElem?_eq_getElem]
  refine perm_range_of_nodup hnodup (fun q hq => ?_) (Array.length_toList.trans hsize)
  obtain ⟨p, hp⟩ := List.mem_iff_getElem?.mp hq
  rw [Array.getElem?_toList] at hp
  obtain ⟨c, hc⟩ := h.sized.exists_cell hp
  obtain ⟨q', hq', -, -, hlt⟩ := h.put p c hc
  obtain rfl := Option.some.inj (hp.symm.trans hq')
  have hle := before_le_length (cells.map column) (c.column + 1)
  rw [List.length_map] at hle
  exact Nat.lt_of_lt_of_le hlt hle

/-- Some entry has moved to each position. -/
theorem exists_moved (h : Lies n cells s) (hq : q < cells.length) :
    ∃ p : Nat, s.moved[p]? = some q := by
  obtain ⟨p, hp⟩ := List.mem_iff_getElem?.mp
    (h.perm_range.mem_iff.mpr (List.mem_range.mpr hq))
  exact ⟨p, by rwa [Array.getElem?_toList] at hp⟩

/-- The sources undo the map. -/
theorem sources_spec (h : Lies n cells s) :
    ∃ source, sources s.moved = some source ∧
      ∀ p q : Nat, s.moved[p]? = some q → source[q]? = some p := by
  have hperm := h.perm_range
  have hnodup : s.moved.toList.Nodup := hperm.nodup_iff.mpr List.nodup_range
  have hsize : s.moved.size = cells.length := by rw [h.sized.size_moved, List.length_map]
  obtain ⟨source, hrun, -, hsource⟩ := foldlM_total (l := s.moved.toList.zipIdx)
    (f := fun source (x : Nat × Nat) => Access.write source x.1 x.2)
    (I := fun done source => source.size = s.moved.size ∧ ∀ x ∈ done, source[x.1]? = some x.2)
    (s := Array.replicate s.moved.size 0) ⟨Array.size_replicate, fun x hx => nomatch hx⟩
    fun done x rest hsplit source ⟨hsource, hdone⟩ => by
      have hfst := congrArg (List.map Prod.fst) hsplit
      rw [List.zipIdx_map_fst] at hfst
      have hlt : x.1 < source.size := by
        rw [hsource, hsize, ← List.mem_range, ← hperm.mem_iff, hfst]
        simp
      obtain ⟨source', hwrite⟩ := Access.exists_write hlt x.2
      refine ⟨source', hwrite, (Access.size_of_write hwrite).trans hsource, fun y hy => ?_⟩
      rcases List.mem_append.mp hy with hy | hy
      · have hne : y.1 ≠ x.1 := by
          rw [hfst, List.map_append, List.nodup_append] at hnodup
          exact hnodup.2.2 _ (List.mem_map_of_mem hy) _ (by simp)
        rw [Access.getElem?_of_write hwrite hne, hdone y hy]
      · obtain rfl := List.mem_singleton.mp hy
        exact Access.getElem?_of_write_self hwrite
  refine ⟨source, hrun, fun p q hq => hsource (q, p) ?_⟩
  rw [List.mk_mem_zipIdx_iff_getElem?, Array.getElem?_toList, hq]

end Lies

end Lies

section Scattering

variable {a : Csc α} {n : Nat} {labels : Array Nat} {label : Nat → Nat} {s : Moving α}
  {next : Array Nat}

/-- The cells `done` of a matrix have been put into their columns. -/
def ScatteredUpTo (a : Csc α) (label : Nat → Nat) (done : List (Cell α))
    (t : Array Nat × Moving α) : Prop :=
  ∃ rest, a.cellList = done ++ rest ∧
    Scattered a.ncols (done.map (moveCell label)) (rest.map (moveCell label)) t.1 t.2

theorem ScatteredUpTo.step (ha : a.Framed) (ht : Access.Tabulates labels a.ncols label)
    (hl : Labels a.ncols label) (htri : InTriangle a.ncols a.cellList) {done rest : List (Cell α)}
    {c : Cell α} {t : Array Nat × Moving α} (hsplit : a.cellList = done ++ c :: rest)
    (h : a.ScatteredUpTo label done t) :
    ∃ t', a.scatterEntry labels (label c.column) t done.length = some t' ∧
      a.ScatteredUpTo label (done ++ [c]) t' := by
  obtain ⟨rest', hrest, hscattered⟩ := h
  obtain rfl : rest' = c :: rest := List.append_cancel_left (hrest.symm.trans hsplit)
  have hc : c ∈ a.cellList := by rw [hsplit]; simp
  obtain ⟨q, next', s', hq, hadjust, hput, hs'⟩ :=
    hscattered.step (column_moveCell_lt hl htri hc)
  have hrow : a.rowIdx[done.length]? = some c.row := by
    rw [← Array.getElem?_toList, ← ha.map_row_cellList, hsplit]
    simp
  have hval : a.vals[done.length]? = some c.value := by
    rw [← Array.getElem?_toList, ← ha.map_value_cellList, hsplit]
    simp
  refine ⟨(next', s'), ?_, rest, hsplit.trans (List.append_cons ..), by simpa using hs'⟩
  rw [List.length_map] at hput
  rw [moveCell_column] at hq hadjust
  simp only [scatterEntry, hrow, hval, label_row ht htri hc, hq, hadjust, Option.bind_eq_bind,
    Option.bind_some]
  exact congrArg (Option.bind · _) hput

/-- All entries are put into their columns. -/
theorem scatter_spec (ha : a.Framed) (hn : a.ncols = n) (ht : Access.Tabulates labels n label)
    (hl : Labels n label) (htri : InTriangle n a.cellList)
    (h : Scattered n [] (a.cellList.map (moveCell label)) next s) :
    ∃ next' s', (List.range a.ncols).foldlM (a.scatterColumn labels) (next, s) = some (next', s') ∧
      Lies n (a.cellList.map (moveCell label)) s' := by
  subst hn
  obtain ⟨⟨next', s'⟩, hrun, rest, hrest, hs'⟩ := foldlM_range_total (f := a.scatterColumn labels)
    (s := (next, s)) (I := fun k t => a.ScatteredUpTo label (a.cellsBefore k) t)
    ⟨a.cellList, rfl, h⟩ fun j t hj ht' => by
      rw [scatterColumn, ht.get j hj, ha.positions?_eq hj]
      exact ha.foldlM_positions hj ht' fun done c rest t hsplit hcj hdone =>
        hcj ▸ hdone.step ha ht hl htri hsplit
  obtain rfl : rest = [] := List.append_right_eq_self.mp hrest.symm
  rw [show a.cellsBefore a.ncols = a.cellList from rfl] at hs'
  exact ⟨next', s', hrun, lies_of_scattered hs'⟩

end Scattering

/-! ## Sorting a column -/

/-- The entries are those of column `j`, each with its number. -/
structure Group (cells : List (Cell α)) (j : Nat) (es : List (Nat × α × Nat)) : Prop where
  mem_iff : ∀ row value p, (row, value, p) ∈ es ↔ cells[p]? = some ⟨j, row, value⟩
  nodup : (es.map (·.2.2)).Nodup
  length_eq : es.length = (cells.map column).count j

section Group

variable {n j : Nat} {cells : List (Cell α)} {es es' : List (Nat × α × Nat)} {s : Moving α}
  {source : Array Nat}

theorem perm_sortRows (es : List (Nat × α × Nat)) : (sortRows es).Perm es := List.mergeSort_perm _ _

theorem sortRows_eq_insertionSort (es : List (Nat × α × Nat)) :
    sortRows es = es.insertionSort fun x y => decide (x.1 ≤ y.1) = true := by
  rw [sortRows, mergeSort_eq_insertionSort]
  · exact fun x y z h h' => decide_eq_true
      (Nat.le_trans (of_decide_eq_true h) (of_decide_eq_true h'))
  · exact fun x y => by simpa using Nat.le_total x.1 y.1

/-- A form in which a column can be sorted in a proof. -/
theorem sortColumn_eq_insertionSort :
    @sortColumn α = fun (source : Array Nat) (s : Moving α) (j : Nat) => (do
      let start ← s.matrix.start? j
      let stop ← s.matrix.stop? j
      let entries ← (List.range' start (stop - start)).mapM fun q => do
        return (← s.matrix.rowIdx[q]?, ← s.matrix.vals[q]?, ← source[q]?)
      let sorted := entries.insertionSort fun x y => decide (x.1 ≤ y.1) = true
      (sorted.zipIdx start).foldlM (fun s x => s.put x.1.2.2 x.2 x.1.1 x.1.2.1) s :
        Option (Moving α)) := by
  funext source s j
  simp only [sortColumn, sortRows_eq_insertionSort]

theorem pairwise_sortRows (es : List (Nat × α × Nat)) :
    (sortRows es).Pairwise fun x y => x.1 ≤ y.1 := by
  refine (List.pairwise_mergeSort (fun x y z h h' => ?_) (fun x y => ?_) es).imp of_decide_eq_true
  · exact decide_eq_true (Nat.le_trans (of_decide_eq_true h) (of_decide_eq_true h'))
  · simpa using Nat.le_total x.1 y.1

theorem Group.before_add_length (h : Group cells j es) :
    before (cells.map column) j + es.length = before (cells.map column) (j + 1) := by
  rw [before_succ, h.length_eq]

theorem Group.sort (h : Group cells j es) : Group cells j (sortRows es) where
  mem_iff row value p := (perm_sortRows es).mem_iff.trans (h.mem_iff row value p)
  nodup := ((perm_sortRows es).map _).nodup_iff.mpr h.nodup
  length_eq := (perm_sortRows es).length_eq.trans h.length_eq

/-- Entries of one column are in different rows, so that their order is strict. -/
theorem Group.increasing (h : Group cells j es) (hplaces : (cells.map place).Nodup)
    (hsorted : es.Pairwise fun x y => x.1 ≤ y.1) : es.Pairwise fun x y => x.1 < y.1 := by
  have hnodup := h.nodup
  rw [List.Nodup, List.pairwise_map] at hnodup
  refine (hsorted.and hnodup).imp_of_mem fun {x y} hx hy hxy =>
    Nat.lt_of_le_of_ne hxy.1 fun heq => ?_
  have hcx := (h.mem_iff x.1 x.2.1 x.2.2).mp hx
  have hcy := (h.mem_iff y.1 y.2.1 y.2.2).mp hy
  have hplace : (cells.map place)[x.2.2]? = (cells.map place)[y.2.2]? := by
    rw [List.getElem?_map, List.getElem?_map, hcx, hcy, Option.map_some, Option.map_some, place,
      place, heq]
  have hlt : x.2.2 < (cells.map place).length := by
    rw [List.length_map]
    exact (List.getElem?_eq_some_iff.mp hcx).1
  exact hxy.2 ((List.getElem?_inj hlt hplaces).mp hplace)

/-- What is read at a position of column `j`. -/
theorem Lies.exists_entry (h : Lies n cells s) {q : Nat}
    (hsource : ∃ p, source[q]? = some p ∧ s.moved[p]? = some q)
    (hle : before (cells.map column) j ≤ q) (hlt : q < before (cells.map column) (j + 1)) :
    ∃ p c, source[q]? = some p ∧ s.moved[p]? = some q ∧ cells[p]? = some c ∧ c.column = j ∧
      s.matrix.rowIdx[q]? = some c.row ∧ s.matrix.vals[q]? = some c.value := by
  obtain ⟨p, hp, hq⟩ := hsource
  obtain ⟨c, hc, hcj, hentry⟩ := h.of_moved hq hle hlt
  simp only [ entry?, Option.bind_eq_bind, Option.bind_eq_some_iff] at hentry
  obtain ⟨row, hrow, value, hvalue, hentry⟩ := hentry
  obtain ⟨rfl, rfl⟩ := Prod.mk.inj (Option.some.inj hentry)
  exact ⟨p, c, hp, hq, hc, hcj, hrow, hvalue⟩

/-- What has been read from one position of a column after the other are its entries. -/
theorem Lies.group (h : Lies n cells s) (hlength : es.length = (cells.map column).count j)
    (hget : ∀ (i : Nat) (x : Nat × α × Nat), es[i]? = some x →
      s.moved[x.2.2]? = some (before (cells.map column) j + i) ∧
        cells[x.2.2]? = some ⟨j, x.1, x.2.1⟩) : Group cells j es := by
  refine ⟨fun row value p => ⟨fun hx => ?_, fun hc => ?_⟩, ?_, hlength⟩
  · obtain ⟨i, hi⟩ := List.mem_iff_getElem?.mp hx
    exact (hget i _ hi).2
  · obtain ⟨q, hq, -, hle, hlt⟩ := h.put p _ hc
    simp only [before_succ] at hle hlt
    have hi : q - before (cells.map column) j < es.length := by omega
    have hx := List.getElem?_eq_getElem hi
    obtain ⟨hmoved, hcell⟩ := hget _ _ hx
    rw [Nat.add_sub_cancel' hle] at hmoved
    obtain rfl := h.inj p _ q hq hmoved
    rw [hc, Option.some.injEq, Cell.mk.injEq] at hcell
    obtain ⟨-, rfl, rfl⟩ := hcell
    exact List.mem_of_getElem? hx
  · rw [List.nodup_iff_injective_get]
    intro i k heq
    simp only [List.get_eq_getElem, List.getElem_map] at heq
    have hi := (hget i _ (List.getElem?_eq_getElem (by simpa using i.2))).1
    have hk := (hget k _ (List.getElem?_eq_getElem (by simpa using k.2))).1
    rw [heq, hk, Option.some.injEq, Nat.add_left_cancel_iff] at hi
    exact Fin.ext hi.symm

/-- What is read from the positions of a column. -/
theorem Lies.read_column (h : Lies n cells s)
    (hsource : ∀ q, before (cells.map column) j ≤ q → q < before (cells.map column) (j + 1) →
      ∃ p, source[q]? = some p ∧ s.moved[p]? = some q) :
    ∃ es, (List.range' (before (cells.map column) j) ((cells.map column).count j)).mapM
        (fun q => do return (← s.matrix.rowIdx[q]?, ← s.matrix.vals[q]?, ← source[q]?)) = some es ∧
      Group cells j es := by
  have hend := before_succ (cells.map column) j
  have hread := fun q hle hlt => h.exists_entry (hsource q hle hlt) hle hlt
  obtain ⟨es, hes⟩ := exists_mapM
    (l := List.range' (before (cells.map column) j) ((cells.map column).count j))
    (f := fun q => do return (← s.matrix.rowIdx[q]?, ← s.matrix.vals[q]?, ← source[q]?))
    fun q hq => by
      rw [List.mem_range'_1, ← hend] at hq
      obtain ⟨p, c, hp, -, -, -, hrow, hvalue⟩ := hread q hq.1 hq.2
      exact ⟨(c.row, c.value, p), by rw [hrow, hvalue, hp]; rfl⟩
  have hmap := mapM_eq_some.mp hes
  have hlength : es.length = (cells.map column).count j := by
    have := congrArg List.length hmap
    rw [List.length_map, List.length_map, List.length_range'] at this
    exact this.symm
  refine ⟨es, hes, h.group hlength fun i x hx => ?_⟩
  have hi : i < (cells.map column).count j := hlength ▸ (List.getElem?_eq_some_iff.mp hx).1
  obtain ⟨p, c, hp, hq, hc, rfl, hrow, hvalue⟩ :=
    hread (before (cells.map column) j + i) (Nat.le_add_right _ _) (by omega)
  have hi' := congrArg (·[i]?) hmap
  simp only [List.getElem?_map, List.getElem?_range' hi, hx, Nat.one_mul, Option.map_some, hrow,
    hvalue, hp, Option.bind_eq_bind, Option.bind_some] at hi'
  obtain rfl := Option.some.inj (Option.some.inj hi')
  exact ⟨hq, hc⟩

/-- Entries with different numbers are put at positions one after the other. -/
theorem Moving.Sized.putAll {columns : List Nat} (h : s.Sized n columns)
    (hnodup : (es.map (·.2.2)).Nodup) (hlt : ∀ x ∈ es, x.2.2 < columns.length) (start : Nat)
    (hlength : start + es.length ≤ columns.length) :
    ∃ s', (es.zipIdx start).foldlM (fun s ((row, value, p), q) => s.put p q row value) s = some s' ∧
      s'.Sized n columns ∧
      (∀ (i : Nat) (x : Nat × α × Nat), es[i]? = some x → s'.moved[x.2.2]? = some (start + i) ∧
        s'.matrix.entry? (start + i) = some (x.1, x.2.1)) ∧
      (∀ p, p ∉ es.map (·.2.2) → s'.moved[p]? = s.moved[p]?) ∧
      ∀ q, q < start ∨ start + es.length ≤ q → s'.matrix.entry? q = s.matrix.entry? q := by
  induction es generalizing start s with
  | nil => exact ⟨s, rfl, h, fun i x hx => by simp at hx, fun _ _ => rfl, fun _ _ => rfl⟩
  | cons x es ih =>
      rw [List.forall_mem_cons] at hlt
      rw [List.map_cons, List.nodup_cons] at hnodup
      rw [List.length_cons] at hlength
      obtain ⟨s₁, hput, hsized, hs₁⟩ := h.put hlt.1 (show start < columns.length by omega) x.1 x.2.1
      obtain ⟨s', hrun, hsized', hin, hmoved, hentry⟩ :=
        ih hsized hnodup.2 hlt.2 (start + 1) (by omega)
      refine ⟨s', ?_, hsized', fun i y hy => ?_, fun p hp => ?_, fun q hq => ?_⟩
      · rw [List.zipIdx_cons, List.foldlM_cons]
        exact (congrArg (· >>= _) hput).trans hrun
      · cases i with
        | zero =>
            obtain rfl : x = y := by simpa using hy
            exact ⟨(hmoved _ hnodup.1).trans hs₁.moved_self,
              (hentry start (Or.inl (Nat.lt_succ_self start))).trans hs₁.entry_self⟩
        | succ i =>
            rw [List.getElem?_cons_succ] at hy
            have := hin i y hy
            rwa [Nat.add_right_comm, Nat.add_assoc] at this
      · rw [List.map_cons, List.mem_cons, not_or] at hp
        rw [hmoved p hp.2, hs₁.moved_of_ne p hp.1]
      · rw [List.length_cons] at hq
        rw [hentry q (by omega), hs₁.entry_of_ne q (by omega)]

/-- The columns before `j` are in order, and the sources of the others are still those that have
been noted. -/
structure SortedTo (n : Nat) (cells : List (Cell α)) (source : Array Nat) (j : Nat)
    (s : Moving α) : Prop extends Lies n cells s where
  source : ∀ k, j ≤ k → ∀ q, before (cells.map column) k ≤ q →
    q < before (cells.map column) (k + 1) → ∃ p, source[q]? = some p ∧ s.moved[p]? = some q
  increasing : ∀ k < j, (s.matrix.col k).Pairwise (·.1 < ·.1)

theorem Moving.Sized.ptr_eq {columns : List Nat} (h : s.Sized n columns) {k : Nat} (hk : k ≤ n) :
    s.matrix.ptr k = before columns k := by
  rw [ptr, h.colPtr_eq, Array.getD_eq_getD_getElem?, getElem?_pointers columns hk]
  rfl

/-- The entries of column `j` have been rewritten, each with its own number. -/
structure Rewritten (cells : List (Cell α)) (j : Nat) (es : List (Nat × α × Nat))
    (s s' : Moving α) : Prop where
  own : ∀ (i : Nat) (x : Nat × α × Nat), es[i]? = some x →
    s'.moved[x.2.2]? = some (before (cells.map column) j + i) ∧
      s'.matrix.entry? (before (cells.map column) j + i) = some (x.1, x.2.1)
  other : ∀ (p : Nat) (c : Cell α), cells[p]? = some c → c.column ≠ j →
    s'.moved[p]? = s.moved[p]?
  outside : ∀ q, q < before (cells.map column) j ∨ before (cells.map column) (j + 1) ≤ q →
    s'.matrix.entry? q = s.matrix.entry? q

theorem Lies.rewrite (h : Lies n cells s) (hg : Group cells j es) :
    ∃ s', (es.zipIdx (before (cells.map column) j)).foldlM
        (fun s ((row, value, p), q) => s.put p q row value) s = some s' ∧
      s'.Sized n (cells.map column) ∧ Rewritten cells j es s s' := by
  have hend := hg.before_add_length
  have hcell : ∀ x ∈ es, cells[x.2.2]? = some ⟨j, x.1, x.2.1⟩ := fun x hx =>
    (hg.mem_iff x.1 x.2.1 x.2.2).mp hx
  obtain ⟨s', hrun, hsized, hin, hout, hentry⟩ := h.sized.putAll hg.nodup
    (fun x hx => by
      rw [List.length_map]
      exact (List.getElem?_eq_some_iff.mp (hcell x hx)).1)
    (before (cells.map column) j) (hend ▸ before_le_length _ _)
  refine ⟨s', hrun, hsized, hin, fun p c hc hne => hout p fun hp => hne ?_, hend ▸ hentry⟩
  obtain ⟨x, hx, rfl⟩ := List.mem_map.mp hp
  obtain rfl := Option.some.inj (hc.symm.trans (hcell x hx))
  rfl

section Rewritten

variable {s' : Moving α} {p q : Nat} {c : Cell α}

/-- An entry of the column is where the order of the column has it. -/
theorem Rewritten.goes (h : Rewritten cells j es s s') (hg : Group cells j es)
    (hc : cells[p]? = some c) (hcj : c.column = j) (hq : s'.moved[p]? = some q) :
    ∃ i, es[i]? = some (c.row, c.value, p) ∧ q = before (cells.map column) j + i ∧
      i < es.length := by
  subst hcj
  obtain ⟨i, hi⟩ := List.mem_iff_getElem?.mp ((hg.mem_iff c.row c.value p).mpr hc)
  exact ⟨i, hi, Option.some.inj (hq.symm.trans (h.own i _ hi).1),
    (List.getElem?_eq_some_iff.mp hi).1⟩

/-- An entry of another column stays where it was, which is outside this one. -/
theorem Rewritten.stays (h : Rewritten cells j es s s') (hl : Lies n cells s)
    (hc : cells[p]? = some c) (hcj : c.column ≠ j) (hq : s'.moved[p]? = some q) :
    s.moved[p]? = some q ∧
      (q < before (cells.map column) j ∨ before (cells.map column) (j + 1) ≤ q) := by
  rw [h.other p c hc hcj] at hq
  refine ⟨hq, ?_⟩
  obtain ⟨q', hq', -, hle, hlt⟩ := hl.put p c hc
  obtain rfl := Option.some.inj (hq.symm.trans hq')
  by_contra hmid
  exact hcj (column_unique_of_before hle hlt (by omega) (by omega))

theorem Rewritten.inj (h : Rewritten cells j es s s') (hl : Lies n cells s)
    (hg : Group cells j es) {p' : Nat} {c' : Cell α} (hc : cells[p]? = some c)
    (hc' : cells[p']? = some c') (hq : s'.moved[p]? = some q) (hq' : s'.moved[p']? = some q) :
    p = p' := by
  have hend := hg.before_add_length
  by_cases hcj : c.column = j <;> by_cases hcj' : c'.column = j
  · obtain ⟨i, hi, hqi, -⟩ := h.goes hg hc hcj hq
    obtain ⟨i', hi', hqi', -⟩ := h.goes hg hc' hcj' hq'
    obtain rfl : i = i' := by omega
    rw [hi, Option.some.injEq, Prod.mk.injEq, Prod.mk.injEq] at hi'
    exact hi'.2.2
  · obtain ⟨i, -, hqi, hlt⟩ := h.goes hg hc hcj hq
    have := (h.stays hl hc' hcj' hq').2
    omega
  · obtain ⟨i, -, hqi, hlt⟩ := h.goes hg hc' hcj' hq'
    have := (h.stays hl hc hcj hq).2
    omega
  · exact hl.inj p p' q (h.stays hl hc hcj hq).1 (h.stays hl hc' hcj' hq').1

theorem Rewritten.lies (h : Rewritten cells j es s s') (hl : Lies n cells s)
    (hg : Group cells j es) (hsized : s'.Sized n (cells.map column)) : Lies n cells s' := by
  have hend := hg.before_add_length
  refine ⟨hsized, fun p c hc => ?_, fun p p' q hq hq' => ?_⟩
  · by_cases hcj : c.column = j
    · subst hcj
      obtain ⟨i, hi⟩ := List.mem_iff_getElem?.mp ((hg.mem_iff c.row c.value p).mpr hc)
      have hlt := (List.getElem?_eq_some_iff.mp hi).1
      exact ⟨_, (h.own i _ hi).1, (h.own i _ hi).2, Nat.le_add_right _ _, by omega⟩
    · obtain ⟨q, hq, hqe, hle, hlt⟩ := hl.put p c hc
      have hq' := (h.other p c hc hcj).trans hq
      exact ⟨q, hq', (h.outside q (h.stays hl hc hcj hq').2).trans hqe, hle, hlt⟩
  · obtain ⟨c, hc⟩ := hsized.exists_cell hq
    obtain ⟨c', hc'⟩ := hsized.exists_cell hq'
    exact h.inj hl hg hc hc' hq hq'

/-- The column holds the entries in their order. -/
theorem Rewritten.col_eq (h : Rewritten cells j es s s') (hg : Group cells j es)
    (hsized : s'.Sized n (cells.map column)) (hj : j < n) :
    s'.matrix.col j = es.map fun x => (x.1, x.2.1) := by
  refine List.ext_getElem? fun i => ?_
  rw [col, getElem?_entriesAt, hsized.ptr_eq (Nat.le_of_lt hj), hsized.ptr_eq hj, before_succ,
    ← hg.length_eq, List.getElem?_map]
  by_cases hi : i < es.length
  · rw [if_pos (by omega), (h.own i _ (List.getElem?_eq_getElem hi)).2,
      List.getElem?_eq_getElem hi, Option.map_some]
  · rw [if_neg (by omega), List.getElem?_eq_none (by omega), Option.map_none]

/-- The other columns are as they were. -/
theorem Rewritten.col_of_ne (h : Rewritten cells j es s s') (hs : s.Sized n (cells.map column))
    (hs' : s'.Sized n (cells.map column)) {k : Nat} (hk : k < n) (hkj : k ≠ j) :
    s'.matrix.col k = s.matrix.col k := by
  rw [col, col, hs'.ptr_eq (Nat.le_of_lt hk), hs'.ptr_eq hk, hs.ptr_eq (Nat.le_of_lt hk),
    hs.ptr_eq hk]
  refine entriesAt_congr fun q hle hlt => h.outside q ?_
  by_contra hmid
  exact hkj (column_unique_of_before hle hlt (by omega) (by omega))

end Rewritten

/-- One more column is sorted. -/
theorem SortedTo.step (h : SortedTo n cells source j s) (hj : j < n)
    (hplaces : (cells.map place).Nodup) :
    ∃ s', sortColumn source s j = some s' ∧ SortedTo n cells source (j + 1) s' := by
  obtain ⟨es, hread, hg⟩ := h.toLies.read_column (h.source j (Nat.le_refl j))
  obtain ⟨s', hrun, hsized, hs'⟩ := h.toLies.rewrite hg.sort
  have hpointer : ∀ k ≤ n, s.matrix.colPtr[k]? = some (before (cells.map column) k) := by
    intro k hk
    rw [h.sized.colPtr_eq, getElem?_pointers _ hk]
    rfl
  refine ⟨s', ?_, hs'.lies h.toLies hg.sort hsized, fun k hk q hle hlt => ?_, fun k hk => ?_⟩
  · rw [sortColumn, start?, stop?, hpointer j (Nat.le_of_lt hj), hpointer (j + 1) hj]
    simp only [Option.bind_eq_bind, Option.bind_some] at hread ⊢
    rw [before_succ, Nat.add_sub_cancel_left, hread]
    exact hrun
  · obtain ⟨p, hp, hq⟩ := h.source k (by omega) q hle hlt
    obtain ⟨c, hc, hck, -⟩ := h.toLies.of_moved hq hle hlt
    exact ⟨p, hp, (hs'.other p c hc (by omega)).trans hq⟩
  · rcases Nat.lt_or_eq_of_le (Nat.le_of_lt_succ hk) with hk | rfl
    · rw [hs'.col_of_ne h.sized hsized (by omega) (by omega)]
      exact h.increasing k hk
    · rw [hs'.col_eq hg.sort hsized hj, List.pairwise_map]
      exact hg.sort.increasing hplaces (pairwise_sortRows es)

end Group

/-! ## The relabelled matrix -/

section Permute

variable {n : Nat} {label : Nat → Nat} {cells : List (Cell α)} {a : Csc α} {s : Moving α}

theorem SortedTo.framed {source : Array Nat} (h : SortedTo n cells source n s)
    (hcolumn : ∀ c ∈ cells, c.column < n) : s.matrix.Framed where
  size_colPtr := by rw [h.sized.colPtr_eq, size_pointers, h.sized.ncols_eq]
  ptr_zero := by
    rw [h.sized.ptr_eq (Nat.zero_le n), before]
    simp
  ptr_succ j hj := by
    rw [h.sized.ncols_eq] at hj
    rw [h.sized.ptr_eq (Nat.le_of_lt hj), h.sized.ptr_eq hj]
    exact before_mono _ (Nat.le_succ j)
  ptr_last := by
    rw [h.sized.ncols_eq, h.sized.ptr_eq (Nat.le_refl n), before, nnz, h.sized.size_rowIdx,
      List.countP_eq_length]
    intro j hj
    obtain ⟨c, hc, rfl⟩ := List.mem_map.mp hj
    exact decide_eq_true (hcolumn c hc)
  size_vals := by rw [h.sized.size_vals, h.sized.size_rowIdx]

/-- With all columns in order, every cell is at its position in the matrix. -/
theorem SortedTo.getElem?_cellList {source : Array Nat} (h : SortedTo n cells source n s)
    (hcolumn : ∀ c ∈ cells, c.column < n) {p : Nat} {c : Cell α} (hc : cells[p]? = some c) :
    ∃ q, s.moved[p]? = some q ∧ s.matrix.cellList[q]? = some c := by
  obtain ⟨q, hq, hentry, hle, hlt⟩ := h.put p c hc
  have hj := hcolumn c (List.mem_of_getElem? hc)
  refine ⟨q, hq, ?_⟩
  rw [(h.framed hcolumn).getElem?_cellList (h.sized.ncols_eq.symm ▸ hj)
    (h.sized.ptr_eq (Nat.le_of_lt hj) ▸ hle) (h.sized.ptr_eq hj ▸ hlt), hentry]
  rfl

/-- The sorted matrix is that of the moved cells. -/
theorem moved_of_sorted {source : Array Nat}
    (h : SortedTo n (cells.map (moveCell label)) source n s)
    (hplaces : ((cells.map (moveCell label)).map place).Nodup)
    (hcolumn : ∀ c ∈ cells.map (moveCell label), c.column < n) :
    s.matrix = ofCells n n s.matrix.cellList ∧
      Moved label cells s.matrix.cellList s.moved := by
  have hframed := h.framed hcolumn
  have hself := hframed.ofCells_cellList
  rw [h.sized.nrows_eq, h.sized.ncols_eq] at hself
  have hsize : s.moved.size = cells.length := by
    rw [h.sized.size_moved, List.length_map, List.length_map]
  refine ⟨hself.symm, ?_, ?_, ?_⟩
  · exact pairwise_cellList fun j hj => h.increasing j (h.sized.ncols_eq ▸ hj)
  · -- As many cells as there are positions, all different and each at one.
    have hnodup := List.Nodup.of_map place hplaces
    refine ((List.subperm_of_subset hnodup fun c hc => ?_).perm_of_length_le ?_).symm
    · obtain ⟨p, hp⟩ := List.mem_iff_getElem?.mp hc
      obtain ⟨q, -, hq⟩ := h.getElem?_cellList hcolumn hp
      exact List.mem_of_getElem? hq
    · rw [hframed.length_cellList, nnz, h.sized.size_rowIdx, List.length_map]
  · refine List.forall₂_of_length_eq_of_get (hsize.symm.trans Array.length_toList.symm)
      fun p hp hp' => ?_
    obtain ⟨q, hq, hcell⟩ := h.getElem?_cellList hcolumn (p := p) (c := moveCell label cells[p])
      (by rw [List.getElem?_map, List.getElem?_eq_getElem hp]; rfl)
    rw [List.get_eq_getElem, List.get_eq_getElem, Array.getElem_toList,
      (Array.getElem?_eq_some_iff.mp hq).2, hcell]

/-- The entries of a triangle are moved without leaving the arrays, each to a position of its
own. -/
theorem moveEntries_spec [Zero α] {labels : Array Nat} (ha : a.Framed) (hsquare : a.nrows = a.ncols)
    (ht : Access.Tabulates labels a.ncols label) (hl : Labels a.ncols label)
    (htri : InTriangle a.ncols a.cellList) (hinc : (a.cellList.map place).Pairwise PlaceLt) :
    ∃ cells' moved, a.moveEntries labels = some (ofCells a.ncols a.ncols cells', moved) ∧
      Moved label a.cellList cells' moved := by
  obtain ⟨columns, hcolumns⟩ : ∃ columns, (a.cellList.map (moveCell label)).map column = columns :=
    ⟨_, rfl⟩
  have hplaces := nodup_moveCell hl htri hinc
  have hcolumn : ∀ c ∈ a.cellList.map (moveCell label), c.column < a.ncols := by
    intro c hc
    obtain ⟨d, hd, rfl⟩ := List.mem_map.mp hc
    exact column_moveCell_lt hl htri hd
  have hnnz : a.nnz = columns.length := by
    rw [← hcolumns, List.length_map, List.length_map, ha.length_cellList]
  obtain ⟨counts, hcounts, htab⟩ := countMoved_spec ha rfl ht hl htri
  rw [hcolumns] at htab
  -- Nothing has been put anywhere yet.
  have hstart : Scattered a.ncols [] (a.cellList.map (moveCell label)) (pointers a.ncols columns)
      ⟨⟨a.nrows, a.ncols, pointers a.ncols columns, Array.replicate a.nnz 0,
        Array.replicate a.nnz 0⟩, Array.replicate a.nnz 0⟩ := by
    rw [hnnz]
    refine ⟨?_, ?_, fun p c hc => by simp at hc, fun p p' q hp => absurd hp (Nat.not_lt_zero p)⟩
    · rw [List.nil_append, hcolumns]
      exact ⟨hsquare, rfl, rfl, Array.size_replicate, Array.size_replicate, Array.size_replicate⟩
    · rw [List.nil_append, hcolumns]
      exact tabulates_pointers _ _
  obtain ⟨next, scattered, hscatter, hlies⟩ := scatter_spec ha rfl ht hl htri hstart
  obtain ⟨source, hsource, hback⟩ := hlies.sources_spec
  obtain ⟨s, hsort, hsorted⟩ := foldlM_range_total (n := a.ncols) (f := sortColumn source)
    (I := fun k s => SortedTo a.ncols (a.cellList.map (moveCell label)) source k s) (s := scattered)
    ⟨hlies, fun k _ q _ hlt => by
      have hlength := before_le_length ((a.cellList.map (moveCell label)).map column) (k + 1)
      rw [List.length_map] at hlength
      obtain ⟨p, hp⟩ := hlies.exists_moved (Nat.lt_of_lt_of_le hlt hlength)
      exact ⟨p, hback p q hp, hp⟩, fun k hk => absurd hk (Nat.not_lt_zero k)⟩
    fun j s hj hs => hs.step hj hplaces
  obtain ⟨hself, hmoved⟩ := moved_of_sorted hsorted hplaces hcolumn
  refine ⟨s.matrix.cellList, s.moved, ?_, hmoved⟩
  rw [moveEntries, hcounts, ← hself]
  simp only [Option.bind_eq_bind, Option.bind_some, accumulate_countBehind htab, hscatter, hsource,
    hsort]
  rfl

/-- Relabelling a triangle succeeds, and moves every cell to a position of its
own. -/
theorem permuteSymmetric_spec [Zero α] {labels : Array Nat}
    (ht : Access.Tabulates labels n label) (hl : Labels n label) (h : InTriangle n cells)
    (hinc : (cells.map place).Pairwise PlaceLt) :
    ∃ cells' moved,
      ((ofCells n n cells).permuteSymmetric labels).run =
          some (.ok (ofCells n n cells', moved)) ∧
        Moved label cells cells' moved := by
  have hvalid := valid_ofTriangle h hinc
  have hcells := cellList_ofTriangle h hinc
  have hcheck := (checkUpper_eq_ok hvalid).mpr (upper_ofCells h hinc)
  have hlength : ¬ labels.size ≠ (ofCells n n cells).ncols := not_not_intro ht.size_eq
  obtain ⟨cells', moved, hmove, hmoved⟩ := moveEntries_spec (a := ofCells n n cells)
    hvalid.toFramed rfl ht hl (hcells.symm ▸ h) (hcells.symm ▸ hinc)
  rw [hcells] at hmoved
  refine ⟨cells', moved, ?_, hmoved⟩
  rw [permuteSymmetric, Checked.run_bind_ok hcheck, Checked.run_guard, if_neg hlength, hmove]
  rfl

/-- Cells that have moved are in the order of a stable sort, and where it leaves them. -/
theorem Moved.eq_sortNumbered {cells' : List (Cell α)} {moved : Array Nat}
    (h : Moved label cells cells' moved) :
    cells' = (sortNumbered (cells.map (moveCell label)).zipIdx).map (·.1) ∧
      ∀ (q : Nat) (x : Cell α × Nat),
        (sortNumbered (cells.map (moveCell label)).zipIdx)[q]? = some x → moved[x.2]? = some q := by
  have hperm := perm_sortNumbered (cells.map (moveCell label)).zipIdx
  have hfst := hperm.map Prod.fst
  rw [List.zipIdx_map_fst] at hfst
  have hnodup : cells'.Nodup := List.Nodup.of_map place (h.increasing.imp PlaceLt.ne)
  have hsorted : cells' = (sortNumbered (cells.map (moveCell label)).zipIdx).map (·.1) := by
    have hinc := increasing_sortNumbered (cells.map (moveCell label)).zipIdx (by
      have hplaces := (h.perm.map place).nodup_iff.mp (h.increasing.imp PlaceLt.ne)
      rwa [← List.zipIdx_map_fst 0 (cells.map (moveCell label)), List.map_map] at hplaces)
    have hinc' := h.increasing
    rw [List.pairwise_map] at hinc hinc'
    refine (h.perm.trans hfst.symm).eq_of_pairwise
      (fun c d _ _ hcd hdc => absurd rfl (hcd.trans hdc).ne) hinc' ?_
    exact List.pairwise_map.mpr hinc
  refine ⟨hsorted, fun q x hq => ?_⟩
  have hx := hperm.mem_iff.mp (List.mem_of_getElem? hq)
  rw [List.mem_zipIdx_iff_getElem?, List.getElem?_map, Option.map_eq_some_iff] at hx
  obtain ⟨c, hc, hcx⟩ := hx
  obtain ⟨hp, rfl⟩ := List.getElem?_eq_some_iff.mp hc
  have hp' : x.2 < moved.toList.length := h.position.length_eq ▸ hp
  have hget := h.position.get hp hp'
  rw [List.get_eq_getElem, List.get_eq_getElem, Array.getElem_toList, hcx] at hget
  have hq' : cells'[q]? = some x.1 := by rw [hsorted, List.getElem?_map, hq]; rfl
  have hlt := (List.getElem?_eq_some_iff.mp hq').1
  rw [(List.getElem?_inj hlt hnodup).mp (hq'.trans hget.symm)]
  exact Array.getElem?_eq_getElem hp'

/-- The two passes do what one stable sort of all moved cells would. -/
theorem permuteSymmetric_eq_sortNumbered [Zero α] {labels : Array Nat}
    (ht : Access.Tabulates labels n label) (hl : Labels n label) (h : InTriangle n cells)
    (hinc : (cells.map place).Pairwise PlaceLt) :
    ∃ moved : Array Nat,
      ((ofCells n n cells).permuteSymmetric labels).run = some (.ok (ofCells n n
        ((sortNumbered (cells.map (moveCell label)).zipIdx).map (·.1)), moved)) ∧
      ∀ (q : Nat) (x : Cell α × Nat),
        (sortNumbered (cells.map (moveCell label)).zipIdx)[q]? = some x → moved[x.2]? = some q := by
  obtain ⟨cells', moved, hrun, hmoved⟩ := permuteSymmetric_spec ht hl h hinc
  obtain ⟨rfl, hposition⟩ := hmoved.eq_sortNumbered
  exact ⟨moved, hrun, hposition⟩

end Permute

end Saddle.Csc
