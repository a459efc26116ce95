import Mathlib.Data.List.Forall2
import Mathlib.Data.List.Nodup
import Mathlib.Data.List.Sort
import Saddle.Proofs.Sparse.Cells
import Saddle.Sparse.Triplets

/-!
# What is built from entries

Sorting brings the entries of one place together and keeps them in the order in
which they were pushed; the sums are then taken in one pass. So the value in a
slot is the sum of the entries of its place, from the first one on and in this
order, whatever else was pushed between them. This is said of any addition: of
one that rounds, the order matters.

`Built` states it for entries that may still be moved. A relabelling takes places
to other places without bringing two of them together, so that the same entries
are built into a matrix with other places, and into the same values.
-/

namespace Saddle

/-- What is read from one list agrees, place by place, with what is read from another. -/
theorem map_eq_map_of_forall₂ {β γ δ : Type} {f : β → δ} {g : γ → δ} {xs : List β} {ys : List γ}
    (h : List.Forall₂ (fun x y => g y = f x) xs ys) : ys.map g = xs.map f := by
  rw [← List.forall₂_eq_eq_eq, List.forall₂_map_left_iff, List.forall₂_map_right_iff]
  exact h.flip

/-- There is one stable sort only. The one by insertion can be evaluated in a proof. -/
theorem mergeSort_eq_insertionSort {β : Type} {le : β → β → Bool}
    (htrans : ∀ x y z, le x y → le y z → le x z) (htotal : ∀ x y, le x y || le y x) (l : List β) :
    l.mergeSort le = l.insertionSort fun x y => le x y = true := by
  induction l with
  | nil => simp
  | cons x l ih =>
      -- Stable sorting leaves `x` before all that it may precede.
      obtain ⟨front, back, hsort, hrest, hfront⟩ := List.mergeSort_cons htrans htotal x l
      have hsorted := List.pairwise_mergeSort htrans htotal (x :: l)
      rw [hsort, List.pairwise_append, List.pairwise_cons] at hsorted
      have hback := hsorted.2.1.1
      rw [List.insertionSort_cons, ← ih, hrest, hsort]
      clear hsort hrest hsorted ih
      induction front with
      | nil =>
          cases back with
          | nil => rfl
          | cons y back =>
              exact (List.orderedInsert_cons_of_le _ back (hback y List.mem_cons_self)).symm
      | cons y front ih =>
          rw [List.forall_mem_cons] at hfront
          rw [List.cons_append, List.cons_append,
            List.orderedInsert_of_not_le _ _ (by simpa using hfront.1), ih hfront.2]

namespace Cell

variable {α : Type}

/-! ## Sorting -/

theorem notAfter_iff {c d : Cell α} :
    c.notAfter d = true ↔ PlaceLt c.place d.place ∨ c.place = d.place := by
  obtain ⟨_, _, _⟩ := c
  obtain ⟨_, _, _⟩ := d
  simp only [notAfter, place, PlaceLt, Prod.mk.injEq, Bool.or_eq_true, Bool.and_eq_true,
    decide_eq_true_eq, beq_iff_eq]
  omega

theorem notAfter_trans {c d e : Cell α} (h : c.notAfter d = true) (h' : d.notAfter e = true) :
    c.notAfter e = true := by
  rw [notAfter_iff] at *
  rcases h with h | h
  · rcases h' with h' | h'
    · exact Or.inl (h.trans h')
    · exact Or.inl (h' ▸ h)
  · rw [h]
    exact h'

theorem notAfter_total (c d : Cell α) : (c.notAfter d || d.notAfter c) = true := by
  rw [Bool.or_eq_true, notAfter_iff, notAfter_iff]
  rcases placeLt_trichotomy c.place d.place with h | h | h
  · exact Or.inl (Or.inl h)
  · exact Or.inl (Or.inr h)
  · exact Or.inr (Or.inl h)

theorem perm_sortNumbered (cells : List (Cell α × Nat)) : (sortNumbered cells).Perm cells :=
  List.mergeSort_perm _ _

theorem pairwise_sortNumbered (cells : List (Cell α × Nat)) :
    (sortNumbered cells).Pairwise fun x y =>
      PlaceLt x.1.place y.1.place ∨ x.1.place = y.1.place := by
  rw [sortNumbered]
  refine (List.pairwise_mergeSort ?_ ?_ cells).imp notAfter_iff.mp
  · exact fun _ _ _ h h' => notAfter_trans h h'
  · exact fun x y => notAfter_total x.1 y.1

/-- The sort is stable: cells at one place keep their order. -/
theorem filter_sortNumbered (cells : List (Cell α × Nat)) (p : Nat × Nat) :
    (sortNumbered cells).filter (·.1.place = p) = cells.filter (·.1.place = p) := by
  have hsorted : (cells.filter (·.1.place = p)).Pairwise fun x y => x.1.notAfter y.1 = true := by
    refine List.pairwise_of_forall_mem_list fun x hx y hy => ?_
    rw [notAfter_iff]
    simp only [List.mem_filter, decide_eq_true_eq] at hx hy
    exact Or.inr (hx.2.trans hy.2.symm)
  have hsub : (cells.filter (·.1.place = p)).Sublist (sortNumbered cells) := by
    rw [sortNumbered]
    apply List.sublist_mergeSort
    · exact fun _ _ _ h h' => notAfter_trans h h'
    · exact fun x y => notAfter_total x.1 y.1
    · exact hsorted
    · exact List.filter_sublist
  replace hsub := hsub.filter fun x => decide (x.1.place = p)
  rw [List.filter_filter] at hsub
  simp only [Bool.and_self] at hsub
  exact (hsub.eq_of_length ((perm_sortNumbered cells).filter _).length_eq.symm).symm

theorem sortNumbered_eq_insertionSort (cells : List (Cell α × Nat)) :
    sortNumbered cells = cells.insertionSort fun x y => x.1.notAfter y.1 = true := by
  rw [sortNumbered, mergeSort_eq_insertionSort]
  · exact fun _ _ _ h h' => notAfter_trans h h'
  · exact fun x y => notAfter_total x.1 y.1

/-- Cells at different places are sorted strictly. -/
theorem increasing_sortNumbered (cells : List (Cell α × Nat))
    (h : (cells.map (·.1.place)).Nodup) :
    ((sortNumbered cells).map (·.1.place)).Pairwise PlaceLt := by
  have hnodup : ((sortNumbered cells).map (·.1.place)).Nodup :=
    ((perm_sortNumbered cells).map _).nodup_iff.mpr h
  rw [List.Nodup, List.pairwise_map] at hnodup
  rw [List.pairwise_map]
  exact (List.pairwise_and_iff.mpr ⟨pairwise_sortNumbered cells, hnodup⟩).imp
    fun h => h.1.resolve_right h.2

end Cell

namespace Triplets

open Cell

variable {α : Type}

/-! ## Pushes -/

theorem push_of_inside {t : Triplets α} {c : Cell α} (h : c.column < t.ncols ∧ c.row < t.nrows) :
    t.push c.column c.row c.value =
      .ok ({ t with entries := t.entries.push c }, t.size) := by
  rw [push, if_neg (Nat.not_le.mpr h.1), if_neg (Nat.not_le.mpr h.2)]
  rfl

/-- Entries inside the matrix are collected. -/
theorem pushAll_of_inside {t : Triplets α} {cells : List (Cell α)}
    (h : ∀ c ∈ cells, c.column < t.ncols ∧ c.row < t.nrows) :
    t.pushAll cells = .ok { t with entries := t.entries ++ cells.toArray } := by
  induction cells generalizing t with
  | nil => simp [pushAll, pure, Except.pure]
  | cons c cells ih =>
      rw [List.forall_mem_cons] at h
      rw [pushAll, List.foldlM_cons, push_of_inside h.1]
      refine (ih (t := { t with entries := t.entries.push c }) h.2).trans ?_
      simp

variable [Add α]

/-! ## Sums in order -/

/-- The sum of some values, from the first one on. -/
def chain? (values : List α) : Option α :=
  values.foldl (fun sum x => some (sum.elim x (· + x))) none

theorem chain?_concat (values : List α) (x : α) :
    chain? (values ++ [x]) = some ((chain? values).elim x (· + x)) := by
  rw [chain?, List.foldl_append]
  rfl

theorem chain?_singleton (x : α) : chain? [x] = some x := rfl

theorem chain?_eq_none {values : List α} (h : chain? values = none) : values = [] := by
  rcases List.eq_nil_or_concat values with hnil | ⟨init, last, hinit⟩
  · exact hnil
  · rw [hinit, List.concat_eq_append, chain?_concat] at h
    cases h

/-- The values at a place, in the order of the entries. -/
def valuesAt (p : Nat × Nat) (cells : List (Cell α)) : List α :=
  (cells.filter (·.place = p)).map (·.value)

/-! ## One pass -/

/-- The sorted entries `done` have been added up in the cells, and the arrays hold the cells. Each
entry has its slot. -/
structure Merged (ncols count : Nat) (done : List (Cell α × Nat)) (cells : List (Cell α))
    (m : Merge α) : Prop where
  increasing : (cells.map place).Pairwise PlaceLt
  origin : ∀ d ∈ cells, ∃ x ∈ done, x.1.place = d.place
  value : ∀ d ∈ cells, chain? (valuesAt d.place (done.map (·.1))) = some d.value
  colPtr : Access.Tabulates m.colPtr (ncols + 1) (Csc.countBehind (cells.map column))
  rowIdx : m.rowIdx = (cells.map row).toArray
  vals : m.vals = (cells.map Cell.value).toArray
  last : m.last = cells.getLast?.map place
  size_slots : m.slots.size = count
  slot : ∀ x ∈ done, ∃ q, m.slots[x.2]? = some q ∧ (cells.map place)[q]? = some x.1.place

theorem merged_start (ncols count : Nat) :
    Merged ncols count ([] : List (Cell α × Nat)) [] (.start ncols count) where
  increasing := List.Pairwise.nil
  origin d hd := by cases hd
  value d hd := by cases hd
  colPtr := Csc.tabulates_countBehind_nil ncols
  rowIdx := rfl
  vals := rfl
  last := rfl
  size_slots := Array.size_replicate
  slot x hx := by cases hx

omit [Add α] in
theorem valuesAt_append (p : Nat × Nat) (cells cells' : List (Cell α)) :
    valuesAt p (cells ++ cells') = valuesAt p cells ++ valuesAt p cells' := by
  rw [valuesAt, List.filter_append, List.map_append]
  rfl

omit [Add α] in
theorem valuesAt_concat (p : Nat × Nat) (cells : List (Cell α)) (c : Cell α) :
    valuesAt p (cells ++ [c]) = valuesAt p cells ++ if c.place = p then [c.value] else [] := by
  rw [valuesAt_append, valuesAt, valuesAt]
  by_cases hc : c.place = p <;> simp [hc]

omit [Add α] in
theorem valuesAt_of_notMem {p : Nat × Nat} {cells : List (Cell α)}
    (h : p ∉ cells.map place) : valuesAt p cells = [] := by
  rw [valuesAt, List.map_eq_nil_iff, List.filter_eq_nil_iff]
  intro c hc
  rw [decide_eq_true_eq]
  rintro rfl
  exact h (List.mem_map_of_mem hc)

omit [Add α] in
/-- A cell that shares its place with no other. -/
theorem valuesAt_of_nodup {cells : List (Cell α)} (h : (cells.map place).Nodup) {c : Cell α}
    (hc : c ∈ cells) : valuesAt c.place cells = [c.value] := by
  obtain ⟨pre, post, rfl⟩ := List.append_of_mem hc
  rw [List.map_append, List.map_cons, List.nodup_append, List.nodup_cons] at h
  have hpre : c.place ∉ pre.map place := fun hmem => h.2.2 _ hmem _ (by simp) rfl
  rw [valuesAt_append, valuesAt_of_notMem hpre, List.nil_append, valuesAt,
    List.filter_cons_of_pos (by simp), List.map_cons]
  exact congrArg (c.value :: ·) (valuesAt_of_notMem h.2.1.1)

omit [Add α] in
/-- Entries elsewhere do not matter. -/
theorem valuesAt_congr {p : Nat × Nat} {cells cells' : List (Cell α)}
    (hplaces : cells.map place = cells'.map place)
    (h : ∀ (e : Nat) (c : Cell α), cells[e]? = some c → c.place = p → cells'[e]? = some c) :
    valuesAt p cells = valuesAt p cells' := by
  induction cells generalizing cells' with
  | nil =>
      rw [List.map_nil, eq_comm, List.map_eq_nil_iff] at hplaces
      rw [hplaces]
  | cons c cells ih =>
      cases cells' with
      | nil => cases hplaces
      | cons c' cells' =>
          rw [List.map_cons, List.map_cons, List.cons.injEq] at hplaces
          have ih := ih hplaces.2 fun e d hd hdp => h (e + 1) d hd hdp
          rw [valuesAt, valuesAt] at ih ⊢
          by_cases hc : c.place = p
          · have hcc : c' = c := by simpa using h 0 c rfl hc
            rw [hcc, List.filter_cons_of_pos (by simpa using hc),
              List.filter_cons_of_pos (by simpa using hc), List.map_cons, List.map_cons, ih]
          · rw [List.filter_cons_of_neg (by simpa using hc),
              List.filter_cons_of_neg (by simpa using hplaces.1 ▸ hc), ih]

namespace Merged

variable {done : List (Cell α × Nat)} {m : Merge α} {x : Cell α × Nat} {ncols count : Nat}
  {cells : List (Cell α)}

theorem place_mem (h : Merged ncols count done cells m) {y : Cell α × Nat} (hy : y ∈ done) :
    y.1.place ∈ cells.map place := by
  obtain ⟨q, -, hq⟩ := h.slot y hy
  exact List.mem_of_getElem? hq

/-- The entries so far keep their slots when one more has been given its own. -/
theorem slot_snoc (h : Merged ncols count done cells m) (cells' : List (Cell α))
    {slots : Array Nat} {q : Nat} (hnew : ∀ y ∈ done, y.2 ≠ x.2)
    (hwrite : Access.write m.slots x.2 q = some slots)
    (hkeep : ∀ (q : Nat) (p : Nat × Nat), (cells.map place)[q]? = some p →
      (cells'.map place)[q]? = some p)
    (hq : (cells'.map place)[q]? = some x.1.place) :
    slots.size = count ∧
      ∀ y ∈ done ++ [x], ∃ q, slots[y.2]? = some q ∧ (cells'.map place)[q]? = some y.1.place := by
  refine ⟨(Access.size_of_write hwrite).trans h.size_slots, fun y hy => ?_⟩
  rcases List.mem_append.mp hy with hy | hy
  · obtain ⟨q', hq', hplace⟩ := h.slot y hy
    exact ⟨q', by rw [Access.getElem?_of_write hwrite (hnew y hy), hq'], hkeep q' _ hplace⟩
  · obtain rfl : y = x := List.mem_singleton.mp hy
    exact ⟨q, Access.getElem?_of_write_self hwrite, hq⟩

variable {entries : Array (Cell α)} (hentry : entries[x.2]? = some x.1)
  (hcount : x.2 < count) (hnew : ∀ y ∈ done, y.2 ≠ x.2)

include hentry hcount hnew

/-- An entry at the last place is added to its value. -/
theorem extend {pre : List (Cell α)} {last : Cell α}
    (h : Merged ncols count done (pre ++ [last]) m) (hx : last.place = x.1.place) :
    ∃ m', m.add entries x.2 = some m' ∧ Merged ncols count (done ++ [x])
      (pre ++ [{ last with value := last.value + x.1.value }]) m' := by
  have hinc := h.increasing
  have hplaces : (pre ++ [{ last with value := last.value + x.1.value }]).map place =
      (pre ++ [last]).map place := by
    rw [List.map_append, List.map_append]
    rfl
  have hcolumns : (pre ++ [{ last with value := last.value + x.1.value }]).map column =
      (pre ++ [last]).map column := by
    rw [List.map_append, List.map_append]
    rfl
  have hrows : (pre ++ [{ last with value := last.value + x.1.value }]).map row =
      (pre ++ [last]).map row := by
    rw [List.map_append, List.map_append]
    rfl
  have hvals : m.vals = (pre.map Cell.value).toArray.push last.value := by
    rw [h.vals, List.map_append, List.push_toArray]
    rfl
  have hsize : m.vals.size - 1 = (pre.map Cell.value).toArray.size := by
    rw [hvals, Array.size_push, Nat.add_sub_cancel]
  have hlast : m.last = some (x.1.column, x.1.row) := by
    rw [h.last, List.getLast?_append_cons, List.getLast?_singleton, Option.map_some, hx]
    rfl
  obtain ⟨slots, hwrite⟩ := Access.exists_write (h.size_slots.symm ▸ hcount) (m.vals.size - 1)
  obtain ⟨hslots, hslot⟩ := h.slot_snoc _ hnew hwrite (fun q p hq => hplaces ▸ hq) (by
    rw [hplaces, hsize, List.size_toArray, List.length_map, ← hx]
    simp)
  refine ⟨{ m with
    vals := (pre.map Cell.value).toArray.push (last.value + x.1.value), slots }, ?_, ?_⟩
  · rw [Merge.add, hentry]
    simp only [Option.bind_eq_bind, Option.bind_some]
    rw [if_pos hlast, hwrite, hsize, hvals, Access.adjust_push]
    rfl
  · refine ⟨hplaces ▸ hinc, fun d hd => ?_, fun d hd => ?_, hcolumns ▸ h.colPtr,
      hrows ▸ h.rowIdx, ?_, ?_, hslots, hslot⟩
    · obtain ⟨d', hd', hdd⟩ := List.mem_map.mp (hplaces ▸ List.mem_map_of_mem (f := place) hd)
      obtain ⟨y, hy, hyd⟩ := h.origin d' hd'
      exact ⟨y, List.mem_append_left _ hy, hyd.trans hdd⟩
    · rw [List.map_append, List.map_singleton, valuesAt_concat]
      rcases List.mem_append.mp hd with hd | hd
      · rw [List.map_append, List.pairwise_append] at hinc
        have hne : x.1.place ≠ d.place := by
          rw [← hx]
          exact (hinc.2.2 _ (List.mem_map_of_mem hd) _ (by simp)).ne.symm
        rw [if_neg hne, List.append_nil]
        exact h.value d (List.mem_append_left _ hd)
      · have hsum := h.value last (by simp)
        have hsame : ({ last with value := last.value + x.1.value } : Cell α).place = last.place :=
          rfl
        rw [List.mem_singleton.mp hd, hsame, if_pos hx.symm, chain?_concat, hsum]
        rfl
    · rw [List.push_toArray, List.map_append]
      rfl
    · rw [h.last, List.getLast?_append_cons, List.getLast?_append_cons]
      rfl

/-- An entry at a later place opens a slot. -/
theorem new (h : Merged ncols count done cells m) (hcolumn : x.1.column < ncols)
    (hx : ∀ d ∈ cells, PlaceLt d.place x.1.place) :
    ∃ m', m.add entries x.2 = some m' ∧ Merged ncols count (done ++ [x]) (cells ++ [x.1]) m' := by
  have hfresh : x.1.place ∉ cells.map place := by
    intro hmem
    obtain ⟨d, hd, hdx⟩ := List.mem_map.mp hmem
    exact (hx d hd).ne hdx
  have hlast : m.last ≠ some (x.1.column, x.1.row) := by
    rw [h.last]
    intro heq
    obtain ⟨d, hd, hdx⟩ := Option.map_eq_some_iff.mp heq
    exact hfresh (List.mem_map.mpr ⟨d, List.mem_of_getLast? hd, hdx⟩)
  have hsize : m.vals.size = cells.length := by
    rw [h.vals, List.size_toArray, List.length_map]
  obtain ⟨counts, hadjust, hcounts⟩ := Csc.tabulates_countBehind_snoc h.colPtr hcolumn
  obtain ⟨slots, hwrite⟩ := Access.exists_write (h.size_slots.symm ▸ hcount) m.vals.size
  obtain ⟨hslots, hslot⟩ := h.slot_snoc (cells ++ [x.1]) hnew hwrite
    (fun q p hq => by
      rw [List.map_append, List.getElem?_append_left (List.getElem?_eq_some_iff.mp hq).1, hq])
    (by rw [hsize]; simp)
  refine ⟨⟨counts, m.rowIdx.push x.1.row, m.vals.push x.1.value, slots,
    some (x.1.column, x.1.row)⟩, ?_, ?_, fun d hd => ?_, fun d hd => ?_, ?_, ?_, ?_, ?_, hslots,
    hslot⟩
  · rw [Merge.add, hentry]
    simp only [Option.bind_eq_bind, Option.bind_some]
    rw [if_neg hlast, hadjust, hwrite]
    rfl
  · rw [List.map_append, List.pairwise_append]
    refine ⟨h.increasing, List.pairwise_singleton _ _, fun p hp q hq => ?_⟩
    obtain ⟨d, hd, rfl⟩ := List.mem_map.mp hp
    exact List.mem_singleton.mp hq ▸ hx d hd
  · rcases List.mem_append.mp hd with hd | hd
    · obtain ⟨y, hy, hyd⟩ := h.origin d hd
      exact ⟨y, List.mem_append_left _ hy, hyd⟩
    · exact ⟨x, by simp, by rw [List.mem_singleton.mp hd]⟩
  · rw [List.map_append, List.map_singleton, valuesAt_concat]
    rcases List.mem_append.mp hd with hd | hd
    · rw [if_neg (hx d hd).ne.symm, List.append_nil]
      exact h.value d hd
    · have hnil : valuesAt x.1.place (done.map (·.1)) = [] := by
        refine valuesAt_of_notMem fun hmem => hfresh ?_
        rw [List.map_map] at hmem
        obtain ⟨y, hy, hyx⟩ := List.mem_map.mp hmem
        exact hyx ▸ h.place_mem hy
      rw [List.mem_singleton.mp hd, hnil, if_pos rfl, List.nil_append, chain?_singleton]
  · rw [List.map_append]
    exact hcounts
  · simp only [h.rowIdx, List.push_toArray, List.map_append]
    rfl
  · simp only [h.vals, List.push_toArray, List.map_append]
    rfl
  · rw [List.getLast?_append_cons]
    rfl

theorem step (h : Merged ncols count done cells m) (hcolumn : x.1.column < ncols)
    (hx : ∀ y ∈ done, PlaceLt y.1.place x.1.place ∨ y.1.place = x.1.place) :
    ∃ cells' m', m.add entries x.2 = some m' ∧ Merged ncols count (done ++ [x]) cells' m' := by
  rcases List.eq_nil_or_concat cells with rfl | ⟨pre, last, hcells⟩
  · exact ⟨_, h.new hentry hcount hnew hcolumn fun d hd => by cases hd⟩
  · rw [List.concat_eq_append] at hcells
    subst hcells
    by_cases hplace : last.place = x.1.place
    · exact ⟨_, h.extend hentry hcount hnew hplace⟩
    · -- The last slot is that of an entry, and the others come before it.
      obtain ⟨y, hy, hyl⟩ := h.origin last (by simp)
      have hlast : PlaceLt last.place x.1.place :=
        hyl ▸ (hx y hy).resolve_right fun heq => hplace (hyl ▸ heq)
      have hinc := h.increasing
      rw [List.map_append, List.pairwise_append] at hinc
      refine ⟨_, h.new hentry hcount hnew hcolumn fun d hd => ?_⟩
      rcases List.mem_append.mp hd with hd | hd
      · exact (hinc.2.2 _ (List.mem_map_of_mem hd) _ (by simp)).trans hlast
      · exact List.mem_singleton.mp hd ▸ hlast

end Merged

/-! ## What has been built -/

/-- The entries have been built into the cells, with the given slots, and moved to
other places on the way. -/
structure Built (move : Nat × Nat → Nat × Nat) (entries cells : List (Cell α))
    (slots : Array Nat) : Prop where
  increasing : (cells.map place).Pairwise PlaceLt
  origin : ∀ d ∈ cells, ∃ c ∈ entries, move c.place = d.place
  value : ∀ c ∈ entries, ∀ d ∈ cells, move c.place = d.place →
    chain? (valuesAt c.place entries) = some d.value
  slots : List.Forall₂ (fun c slot => (cells.map place)[slot]? = some (move c.place))
    entries slots.toList

/-- Every entry is in some cell. -/
theorem Built.place_mem {move : Nat × Nat → Nat × Nat} {entries cells : List (Cell α)}
    {slots : Array Nat} (h : Built move entries cells slots) {c : Cell α} (hc : c ∈ entries) :
    ∃ d ∈ cells, d.place = move c.place := by
  obtain ⟨e, he, rfl⟩ := List.mem_iff_getElem.mp hc
  have hslot := h.slots.get he (h.slots.length_eq ▸ he)
  exact List.mem_map.mp (List.mem_of_getElem? hslot)

/-- Only where the places of the entries move to counts. -/
theorem Built.of_move_eq {move move' : Nat × Nat → Nat × Nat} {entries cells : List (Cell α)}
    {slots : Array Nat} (h : Built move entries cells slots)
    (hmove : ∀ c ∈ entries, move c.place = move' c.place) : Built move' entries cells slots where
  increasing := h.increasing
  origin d hd := by
    obtain ⟨c, hc, hcd⟩ := h.origin d hd
    exact ⟨c, hc, (hmove c hc).symm.trans hcd⟩
  value c hc d hd hcd := h.value c hc d hd ((hmove c hc).trans hcd)
  slots := by
    refine List.forall₂_of_length_eq_of_get h.slots.length_eq fun e he he' => ?_
    rw [← hmove _ (List.get_mem entries ⟨e, he⟩)]
    exact h.slots.get he he'

section Slots

variable {move move' : Nat × Nat → Nat × Nat} {entries entries' cells cells' : List (Cell α)}
  {slots slots' : Array Nat} {e q : Nat} {c : Cell α}

theorem Built.nodup (h : Built move entries cells slots) : (cells.map place).Nodup :=
  h.increasing.imp fun h => h.ne

theorem Built.size_slots (h : Built move entries cells slots) : slots.size = entries.length := by
  rw [← Array.length_toList, h.slots.length_eq]

theorem Built.place_slot (h : Built move entries cells slots) (hc : entries[e]? = some c)
    (hq : slots[e]? = some q) : (cells.map place)[q]? = some (move c.place) := by
  obtain ⟨he, rfl⟩ := List.getElem?_eq_some_iff.mp hc
  obtain ⟨he', rfl⟩ := Array.getElem?_eq_some_iff.mp hq
  exact h.slots.get he he'

/-- A slot is that of every entry whose place has moved there. -/
theorem Built.slot_eq (h : Built move entries cells slots) (hc : entries[e]? = some c)
    (hq : (cells.map place)[q]? = some (move c.place)) : slots[e]? = some q := by
  have he : e < slots.size := by
    rw [h.size_slots]
    exact (List.getElem?_eq_some_iff.mp hc).1
  have hslot := h.place_slot hc (Array.getElem?_eq_getElem he)
  obtain ⟨hlt, hget⟩ := List.getElem?_eq_some_iff.mp hslot
  obtain ⟨hlt', hget'⟩ := List.getElem?_eq_some_iff.mp hq
  rw [Array.getElem?_eq_getElem he, Option.some.injEq]
  exact h.nodup.getElem_inj_iff.mp (hget.trans hget'.symm)

/-- What is in the slot of an entry. -/
theorem Built.value_slot (h : Built move entries cells slots) (hc : entries[e]? = some c)
    (hq : slots[e]? = some q) :
    (cells.map (·.value))[q]? = chain? (valuesAt c.place entries) := by
  have hplace := h.place_slot hc hq
  rw [List.getElem?_map, Option.map_eq_some_iff] at hplace
  obtain ⟨d, hd, hdp⟩ := hplace
  rw [List.getElem?_map, hd,
    h.value c (List.mem_of_getElem? hc) d (List.mem_of_getElem? hd) hdp.symm]
  rfl

theorem Built.mem_places_iff (h : Built move entries cells slots) (p : Nat × Nat) :
    p ∈ cells.map place ↔ p ∈ entries.map fun c => move c.place := by
  rw [List.mem_map, List.mem_map]
  constructor
  · rintro ⟨d, hd, rfl⟩
    exact h.origin d hd
  · rintro ⟨c, hc, rfl⟩
    exact h.place_mem hc

/-- The places of the entries settle those of the cells, and the slots. -/
theorem Built.congr (h : Built move entries cells slots)
    (h' : Built move' entries' cells' slots')
    (hplaces : entries.map (fun c => move c.place) = entries'.map (fun c => move' c.place)) :
    cells.map place = cells'.map place ∧ slots = slots' := by
  have hcells : cells.map place = cells'.map place := by
    refine eq_of_perm_of_placeLt h.increasing h'.increasing ?_
    rw [List.perm_ext_iff_of_nodup h.nodup h'.nodup]
    intro p
    rw [h.mem_places_iff, h'.mem_places_iff, hplaces]
  refine ⟨hcells, Array.ext_getElem? fun e => ?_⟩
  have hentry := congrArg (·[e]?) hplaces
  simp only [List.getElem?_map] at hentry
  cases hc : entries[e]? with
  | none =>
      rw [hc, Option.map_none, eq_comm, Option.map_eq_none_iff] at hentry
      rw [Array.getElem?_eq_none (by rw [h.size_slots]; exact List.getElem?_eq_none_iff.mp hc),
        Array.getElem?_eq_none (by
          rw [h'.size_slots]; exact List.getElem?_eq_none_iff.mp hentry)]
  | some c =>
      rw [hc, Option.map_some, eq_comm, Option.map_eq_some_iff] at hentry
      obtain ⟨c', hc', hplace⟩ := hentry
      have he : e < slots'.size := by
        rw [h'.size_slots]
        exact (List.getElem?_eq_some_iff.mp hc').1
      rw [Array.getElem?_eq_getElem he]
      refine h.slot_eq hc ?_
      rw [hcells, h'.place_slot hc' (Array.getElem?_eq_getElem he), hplace]

/-- A slot keeps its value if its entries keep theirs. -/
theorem Built.value_congr (h : Built move entries cells slots)
    (h' : Built move entries' cells' slots) (hplaces : entries.map place = entries'.map place)
    (hsame : ∀ e : Nat, slots[e]? = some q → entries[e]? = entries'[e]?) :
    (cells.map (·.value))[q]? = (cells'.map (·.value))[q]? := by
  have hmoved := congrArg (List.map move) hplaces
  rw [List.map_map, List.map_map] at hmoved
  have hcells := (h.congr h' hmoved).1
  cases hd : cells[q]? with
  | none =>
      have hlength := congrArg List.length hcells
      rw [List.length_map, List.length_map] at hlength
      rw [List.getElem?_eq_none_iff] at hd
      rw [List.getElem?_eq_none (by simpa using hd),
        List.getElem?_eq_none (by simpa using hlength ▸ hd)]
  | some d =>
      have hq : (cells.map place)[q]? = some d.place := by rw [List.getElem?_map, hd]; rfl
      obtain ⟨c, hc, hcd⟩ := h.origin d (List.mem_of_getElem? hd)
      obtain ⟨e, he, hec⟩ := List.mem_iff_getElem.mp hc
      have hec : entries[e]? = some c := hec ▸ List.getElem?_eq_getElem he
      have hslot := h.slot_eq hec (hcd ▸ hq)
      rw [h.value_slot hec hslot, h'.value_slot (hsame e hslot ▸ hec) hslot]
      congr 1
      refine valuesAt_congr hplaces fun e' c' hc' hplace => ?_
      rw [← hsame e' (h.slot_eq hc' (by rw [hplace, hcd]; exact hq)), hc']

end Slots

/-- The sorted entries are merged without leaving the arrays. -/
theorem merged_sort {t : Triplets α} (hin : ∀ c ∈ t.entries.toList, c.column < t.ncols) :
    ∃ cells m, ((sortNumbered t.entries.toList.zipIdx).map (·.2)).foldlM (Merge.add t.entries)
        (.start t.ncols t.size) = some m ∧
      Merged t.ncols t.size (sortNumbered t.entries.toList.zipIdx) cells m := by
  have hmem : ∀ x ∈ sortNumbered t.entries.toList.zipIdx, t.entries[x.2]? = some x.1 := by
    intro x hx
    rw [(perm_sortNumbered _).mem_iff, List.mem_zipIdx_iff_getElem?, Array.getElem?_toList] at hx
    exact hx
  have hnumbers : (sortNumbered t.entries.toList.zipIdx).Pairwise fun x y => x.2 ≠ y.2 := by
    have hperm := (perm_sortNumbered t.entries.toList.zipIdx).map (·.2)
    rw [List.zipIdx_map_snd, ← List.range_eq_range'] at hperm
    exact List.pairwise_map.mp (hperm.nodup_iff.mpr List.nodup_range)
  have hsorted := (pairwise_sortNumbered t.entries.toList.zipIdx).and hnumbers
  obtain ⟨m, hm, cells, hmerged⟩ := foldlM_total (l := sortNumbered t.entries.toList.zipIdx)
    (f := fun m x => Merge.add t.entries m x.2)
    (I := fun done m => ∃ cells, Merged t.ncols t.size done cells m)
    ⟨[], merged_start t.ncols t.size⟩ fun done x rest hsplit m ⟨cells, hm⟩ => by
      rw [hsplit, List.pairwise_append] at hsorted
      have hx := hmem x (by rw [hsplit]; simp)
      have hlt : x.2 < t.entries.size := (Array.getElem?_eq_some_iff.mp hx).1
      obtain ⟨cells', m', hadd, hm'⟩ := hm.step hx hlt
        (fun y hy => (hsorted.2.2 y hy x List.mem_cons_self).2)
        (hin x.1 (List.mem_of_getElem? ((Array.getElem?_toList ..).trans hx)))
        fun y hy => (hsorted.2.2 y hy x List.mem_cons_self).1
      exact ⟨m', hadd, cells', hm'⟩
  exact ⟨cells, m, (List.foldlM_map ..).trans hm, hmerged⟩

omit [Add α] in
theorem valuesAt_sort (p : Nat × Nat) (entries : List (Cell α)) :
    valuesAt p ((sortNumbered entries.zipIdx).map (·.1)) = valuesAt p entries := by
  have hfst : entries = entries.zipIdx.map (·.1) := (List.zipIdx_map_fst 0 entries).symm
  conv_rhs => rw [hfst]
  rw [valuesAt, valuesAt, List.filter_map, List.filter_map]
  exact congrArg (fun l => (l.map (·.1)).map (·.value)) (filter_sortNumbered entries.zipIdx p)

theorem built_build {t : Triplets α} (hin : ∀ c ∈ t.entries.toList, c.column < t.ncols) :
    ∃ cells slots, t.build = some (Csc.ofCells t.nrows t.ncols cells, slots) ∧
      Built id t.entries.toList cells slots := by
  obtain ⟨cells, m, hmerge, h⟩ := merged_sort hin
  have hperm := perm_sortNumbered t.entries.toList.zipIdx
  refine ⟨cells, m.slots, ?_, h.increasing, fun d hd => ?_, fun c hc d hd hcd => ?_, ?_⟩
  · rw [build]
    simp only [hmerge, Csc.accumulate_countBehind h.colPtr, h.rowIdx, h.vals,
      Option.bind_eq_bind, Option.bind_some]
    rfl
  · obtain ⟨x, hx, hxd⟩ := h.origin d hd
    rw [hperm.mem_iff] at hx
    exact ⟨x.1, List.fst_mem_of_mem_zipIdx hx, hxd⟩
  · have hvalue := h.value d hd
    rw [valuesAt_sort, ← hcd] at hvalue
    exact hvalue
  · refine List.forall₂_of_length_eq_of_get ?_ fun e he he' => ?_
    · rw [Array.length_toList, Array.length_toList, h.size_slots]
      rfl
    · have hmem : (t.entries.toList[e], e) ∈ sortNumbered t.entries.toList.zipIdx := by
        rw [hperm.mem_iff, List.mk_mem_zipIdx_iff_getElem?]
        exact List.getElem?_eq_getElem he
      obtain ⟨q, hq, hplace⟩ := h.slot _ hmem
      rw [List.get_eq_getElem, Array.getElem_toList, (Array.getElem?_eq_some_iff.mp hq).2]
      exact hplace

/-! ## What the entries determine -/

/-- The matrix stores the sums of the entries, and nothing else. -/
structure Sums (entries : List (Cell α)) (a : Csc α) : Prop where
  valid : a.Valid
  places : ∀ p, p ∈ a.cellList.map place ↔ p ∈ entries.map place
  value : ∀ c ∈ a.cellList, chain? (valuesAt c.place entries) = some c.value

section Sums

variable {entries cells : List (Cell α)} {slots : Array Nat} {a b : Csc α} {c : Cell α}

theorem mem_iff_of_sums (hplaces : ∀ p, p ∈ cells.map place ↔ p ∈ entries.map place)
    (hvalue : ∀ c ∈ cells, chain? (valuesAt c.place entries) = some c.value) :
    c ∈ cells ↔ chain? (valuesAt c.place entries) = some c.value := by
  refine ⟨hvalue c, fun h => ?_⟩
  have hmem : c.place ∈ entries.map place := by
    by_contra hnot
    rw [valuesAt_of_notMem hnot] at h
    cases h
  obtain ⟨d, hd, hplace⟩ := List.mem_map.mp ((hplaces c.place).mpr hmem)
  have hd' := hvalue d hd
  rw [hplace, h, Option.some.injEq] at hd'
  obtain ⟨_, _, _⟩ := c
  obtain ⟨_, _, _⟩ := d
  simp only [place, Prod.mk.injEq] at hplace hd'
  rw [hplace.1, hplace.2, ← hd'] at hd
  exact hd

theorem Built.chain?_eq (h : Built id entries cells slots) (hc : c ∈ cells) :
    chain? (valuesAt c.place entries) = some c.value := by
  obtain ⟨e, he, hec⟩ := h.origin c hc
  exact hec ▸ h.value e he c hc hec

/-- The cells that have been built are those whose value is the sum at their place. -/
theorem mem_cells_iff (h : Built id entries cells slots) :
    c ∈ cells ↔ chain? (valuesAt c.place entries) = some c.value :=
  mem_iff_of_sums h.mem_places_iff fun _ => h.chain?_eq

/-- What has been built are the cells of a matrix in order. -/
theorem built_cellList {t : Triplets α}
    (hin : ∀ c ∈ t.entries.toList, c.column < t.ncols ∧ c.row < t.nrows) :
    ∃ a slots, t.build = some (a, slots) ∧ (a.nrows = t.nrows ∧ a.ncols = t.ncols) ∧ a.Valid ∧
      Built id t.entries.toList a.cellList slots := by
  obtain ⟨cells, slots, hbuild, hbuilt⟩ := built_build fun c hc => (hin c hc).1
  have hinside : ∀ c ∈ cells, c.column < t.ncols ∧ c.row < t.nrows := by
    intro c hc
    obtain ⟨e, he, hec⟩ := hbuilt.origin c hc
    obtain ⟨hcolumn, hrow⟩ := Prod.mk.inj hec
    exact hcolumn ▸ hrow ▸ hin e he
  have hlist : (Csc.ofCells t.nrows t.ncols cells).cellList = cells := by
    refine Csc.cellList_ofCells ?_ fun c hc => (hinside c hc).1
    have hincreasing := hbuilt.increasing
    rw [List.pairwise_map] at hincreasing
    exact hincreasing.imp PlaceLt.column_le
  exact ⟨_, slots, hbuild, ⟨rfl, rfl⟩, Csc.valid_ofCells (fun c hc => (hinside c hc).2)
    (fun c hc => (hinside c hc).1) hbuilt.increasing, hlist.symm ▸ hbuilt⟩

theorem sums_build {t : Triplets α}
    (hin : ∀ c ∈ t.entries.toList, c.column < t.ncols ∧ c.row < t.nrows) :
    ∃ a slots, t.build = some (a, slots) ∧ (a.nrows = t.nrows ∧ a.ncols = t.ncols) ∧
      Sums t.entries.toList a := by
  obtain ⟨a, slots, hbuild, hsize, hvalid, hbuilt⟩ := built_cellList hin
  exact ⟨a, slots, hbuild, hsize, hvalid, hbuilt.mem_places_iff, fun _ => hbuilt.chain?_eq⟩

/-- There is one such matrix of each size. -/
theorem Sums.unique (h : Sums entries a) (h' : Sums entries b) (hnrows : a.nrows = b.nrows)
    (hncols : a.ncols = b.ncols) : a = b := by
  refine h.valid.eq_of_mem_iff h'.valid hnrows hncols fun c => ?_
  rw [mem_iff_of_sums h.places h.value, mem_iff_of_sums h'.places h'.value]

/-- Of its own cells, in whatever order, a matrix stores the sums: there is nothing to add. -/
theorem sums_of_perm (ha : a.Valid) (hperm : entries.Perm a.cellList) : Sums entries a := by
  have hnodup : (entries.map place).Nodup := (hperm.map place).nodup_iff.mpr ha.nodup_places
  refine ⟨ha, fun _ => (hperm.map place).mem_iff.symm, fun c hc => ?_⟩
  rw [valuesAt_of_nodup hnodup (hperm.mem_iff.mpr hc), chain?_singleton]

end Sums

end Triplets

end Saddle
