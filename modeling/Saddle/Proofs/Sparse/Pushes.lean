import Saddle.Proofs.Sparse.Triplets

/-!
# Entries pushed one after the other

Entries come in any order, and some of them may lie outside the matrix. A push looks at
its own entry only: it refuses one that lies outside and leaves what has been collected,
and numbers the others in the order in which they come. So what is collected in the end
are the entries inside the matrix, and the numbers given out are the places at which they
stand there.

By these numbers an entry finds its slot after the matrix has been built. There is one
slot for each place that has been named, and all entries of the place share it. Its value
is their sum in the order of the pushes, and a single entry is not touched at all. That a
sum comes out as zero, or that an entry was zero from the start, takes no slot away.
-/

namespace Saddle.Triplets

open Cell

variable {α : Type}

/-! ## Pushes -/

/-- What has been collected after a push, and what the push answers. -/
def offer (t : Triplets α) (c : Cell α) : Triplets α × Except Csc.Error Nat :=
  match t.push c.column c.row c.value with
  | .ok (t', number) => (t', .ok number)
  | .error e => (t, .error e)

/-- What has been collected after a number of pushes, and what each of them answers. -/
def offerAll : Triplets α → List (Cell α) → Triplets α × List (Except Csc.Error Nat)
  | t, [] => (t, [])
  | t, c :: cells =>
      let (t', answer) := t.offer c
      let (t'', answers) := offerAll t' cells
      (t'', answer :: answers)

section Offer

variable {t : Triplets α} {c : Cell α} {cells : List (Cell α)}

theorem offer_of_inside (h : c.column < t.ncols ∧ c.row < t.nrows) :
    t.offer c = ({ t with entries := t.entries.push c }, .ok t.size) := by
  rw [offer, push_of_inside h]

theorem offer_of_outside (h : ¬ (c.column < t.ncols ∧ c.row < t.nrows)) :
    ∃ e, t.offer c = (t, .error e) := by
  rw [offer, push]
  by_cases hcolumn : t.ncols ≤ c.column
  · rw [if_pos hcolumn]
    exact ⟨_, rfl⟩
  · rw [if_neg hcolumn, if_pos (by omega)]
    exact ⟨_, rfl⟩

theorem offerAll_cons (t : Triplets α) (c : Cell α) (cells : List (Cell α)) :
    t.offerAll (c :: cells) =
      (((t.offer c).1.offerAll cells).1, (t.offer c).2 :: ((t.offer c).1.offerAll cells).2) := rfl

theorem offerAll_append (t : Triplets α) (before after : List (Cell α)) :
    t.offerAll (before ++ after) =
      (((t.offerAll before).1.offerAll after).1,
        (t.offerAll before).2 ++ ((t.offerAll before).1.offerAll after).2) := by
  induction before generalizing t with
  | nil => rfl
  | cons c before ih => rw [List.cons_append, offerAll_cons, offerAll_cons, ih, List.cons_append]

theorem length_answers (t : Triplets α) (cells : List (Cell α)) :
    (t.offerAll cells).2.length = cells.length := by
  induction cells generalizing t with
  | nil => rfl
  | cons c cells ih => rw [offerAll_cons, List.length_cons, List.length_cons, ih]

/-- The entries inside the matrix have been collected, in their order. -/
theorem fst_offerAll (t : Triplets α) (cells : List (Cell α)) :
    (t.offerAll cells).1 = { t with
      entries := t.entries ++
        (cells.filter fun c => c.column < t.ncols ∧ c.row < t.nrows).toArray } := by
  induction cells generalizing t with
  | nil => simp [offerAll]
  | cons c cells ih =>
      rw [offerAll_cons]
      by_cases hc : c.column < t.ncols ∧ c.row < t.nrows
      · rw [offer_of_inside hc, ih, List.filter_cons_of_pos (by simpa using hc)]
        simp
      · obtain ⟨e, he⟩ := offer_of_outside hc
        rw [he, ih, List.filter_cons_of_neg (by simpa using hc)]

/-- The numbers given out go on from how many entries there were. -/
theorem numbers_offerAll (t : Triplets α) (cells : List (Cell α)) :
    (t.offerAll cells).2.filterMap Except.toOption =
      List.range' t.size (cells.filter fun c => c.column < t.ncols ∧ c.row < t.nrows).length := by
  induction cells generalizing t with
  | nil => rfl
  | cons c cells ih =>
      rw [offerAll_cons]
      by_cases hc : c.column < t.ncols ∧ c.row < t.nrows
      · have hsome : Except.toOption (.ok t.size : Except Csc.Error Nat) = some t.size := rfl
        rw [offer_of_inside hc, List.filter_cons_of_pos (by simpa using hc), List.length_cons,
          List.range'_succ, List.filterMap_cons_some hsome, ih]
        simp [size]
      · obtain ⟨e, he⟩ := offer_of_outside hc
        have hnone : Except.toOption (.error e : Except Csc.Error Nat) = none := rfl
        rw [he, List.filter_cons_of_neg (by simpa using hc), List.filterMap_cons_none hnone, ih]

/-- What a push answers depends on the pushes before it only. -/
theorem getElem?_answers (t : Triplets α) {k : Nat} (hk : k < cells.length) :
    (t.offerAll cells).2[k]? = some ((t.offerAll (cells.take k)).1.offer cells[k]).2 := by
  have hsplit := offerAll_append t (cells.take k) (cells.drop k)
  have hlength : (t.offerAll (cells.take k)).2.length = k := by
    rw [length_answers, List.length_take, Nat.min_eq_left (Nat.le_of_lt hk)]
  rw [List.take_append_drop, List.drop_eq_getElem_cons hk, offerAll_cons] at hsplit
  rw [hsplit, List.getElem?_append_right (Nat.le_of_eq hlength), hlength, Nat.sub_self]
  rfl

theorem fst_offerAll_succ (t : Triplets α) {k : Nat} (hk : k < cells.length) :
    (t.offerAll (cells.take (k + 1))).1 = ((t.offerAll (cells.take k)).1.offer cells[k]).1 := by
  rw [List.take_succ_eq_append_getElem hk, offerAll_append]
  rfl

/-- A push is refused exactly if its entry lies outside, and a refused push changes nothing. -/
theorem refused_iff (t : Triplets α) {k : Nat} (hc : cells[k]? = some c) :
    ((∃ e, (t.offerAll cells).2[k]? = some (.error e)) ↔
        ¬ (c.column < t.ncols ∧ c.row < t.nrows)) ∧
      ((∃ e, (t.offerAll cells).2[k]? = some (.error e)) →
        (t.offerAll (cells.take (k + 1))).1 = (t.offerAll (cells.take k)).1) := by
  obtain ⟨hk, rfl⟩ := List.getElem?_eq_some_iff.mp hc
  have hnrows : (t.offerAll (cells.take k)).1.nrows = t.nrows := by rw [fst_offerAll]
  have hncols : (t.offerAll (cells.take k)).1.ncols = t.ncols := by rw [fst_offerAll]
  rw [getElem?_answers t hk, fst_offerAll_succ t hk, ← hnrows, ← hncols]
  by_cases hin : cells[k].column < (t.offerAll (cells.take k)).1.ncols ∧
      cells[k].row < (t.offerAll (cells.take k)).1.nrows
  · rw [offer_of_inside hin]
    exact ⟨iff_of_false (by simp) (not_not_intro hin), by simp⟩
  · obtain ⟨e, he⟩ := offer_of_outside hin
    rw [he]
    exact ⟨iff_of_true ⟨e, rfl⟩ hin, fun _ => rfl⟩

end Offer

/-! ## Slots -/

section Slots

variable [Add α]

/-- The matrix holds the sums of the entries, each place once, and each entry has its slot. -/
structure Gathers (entries : List (Cell α)) (a : Csc α) (slots : Array Nat) : Prop where
  check : a.check.run = some (.ok ())
  /-- What is stored is what is named. -/
  places : ∀ p, p ∈ a.cellList.map place ↔ p ∈ entries.map place
  /-- Values of one place are added up in the order of the pushes. -/
  value : ∀ c ∈ a.cellList, chain? (valuesAt c.place entries) = some c.value
  size_slots : slots.size = entries.length
  /-- The slot of an entry is at its place. -/
  place_slot : ∀ (e : Nat) (c : Cell α), entries[e]? = some c →
    ∃ q d, slots[e]? = some q ∧ a.cellList[q]? = some d ∧ d.place = c.place
  /-- Entries share a slot if they share a place. -/
  slot_eq_iff : ∀ (e e' : Nat) (c c' : Cell α), entries[e]? = some c → entries[e']? = some c' →
    (slots[e]? = slots[e']? ↔ c.place = c'.place)
  /-- Every slot is that of an entry. -/
  exists_entry : ∀ q < a.nnz, ∃ e : Nat, slots[e]? = some q

theorem gathers_build {t : Triplets α}
    (hin : ∀ c ∈ t.entries.toList, c.column < t.ncols ∧ c.row < t.nrows) :
    ∃ a slots, t.build = some (a, slots) ∧ (a.nrows = t.nrows ∧ a.ncols = t.ncols) ∧
      Gathers t.entries.toList a slots := by
  obtain ⟨a, slots, hbuild, hsize, hvalid, hbuilt⟩ := built_cellList hin
  have hslot : ∀ (e : Nat) (c : Cell α), t.entries.toList[e]? = some c →
      ∃ q, slots[e]? = some q ∧ (a.cellList.map place)[q]? = some c.place := by
    intro e c hc
    have he : e < slots.size := by
      rw [hbuilt.size_slots]
      exact (List.getElem?_eq_some_iff.mp hc).1
    have hq := Array.getElem?_eq_getElem he
    exact ⟨_, hq, hbuilt.place_slot hc hq⟩
  refine ⟨a, slots, hbuild, hsize, Csc.check_eq_ok.mpr hvalid, hbuilt.mem_places_iff,
    fun _ => hbuilt.chain?_eq, hbuilt.size_slots, fun e c hc => ?_, fun e e' c c' hc hc' => ?_,
    fun q hq => ?_⟩
  · obtain ⟨q, hq, hplace⟩ := hslot e c hc
    rw [List.getElem?_map, Option.map_eq_some_iff] at hplace
    obtain ⟨d, hd, hdc⟩ := hplace
    exact ⟨q, d, hq, hd, hdc⟩
  · obtain ⟨q, hq, hplace⟩ := hslot e c hc
    constructor
    · intro heq
      rw [hq] at heq
      have hplace' := hbuilt.place_slot hc' heq.symm
      rw [hplace] at hplace'
      exact Option.some.inj hplace'
    · intro heq
      rw [hq, hbuilt.slot_eq hc' (hplace.trans (congrArg some heq))]
  · have hlt : q < a.cellList.length := by rwa [hvalid.toFramed.length_cellList]
    obtain ⟨c, hc, hcd⟩ := hbuilt.origin _ (List.getElem_mem hlt)
    obtain ⟨e, he, rfl⟩ := List.mem_iff_getElem.mp hc
    refine ⟨e, hbuilt.slot_eq (List.getElem?_eq_getElem he) ?_⟩
    rw [hcd, List.getElem?_map, List.getElem?_eq_getElem hlt]
    rfl

end Slots

/-! ## From pushes to the matrix -/

/-- Pushes are refused exactly outside the matrix, and number what they accept. What is built of
it has one slot for each place named, with the sum of its entries, and each entry finds its own. -/
theorem gathers_of_pushes [Add α] (nrows ncols : Nat) (cells : List (Cell α)) :
    let run := (empty nrows ncols).offerAll cells
    (∀ (k : Nat) (c : Cell α), cells[k]? = some c →
      ((∃ e, run.2[k]? = some (.error e)) ↔ ¬ (c.column < ncols ∧ c.row < nrows)) ∧
      ((∃ e, run.2[k]? = some (.error e)) →
        ((empty nrows ncols).offerAll (cells.take (k + 1))).1 =
          ((empty nrows ncols).offerAll (cells.take k)).1)) ∧
    run.2.length = cells.length ∧
    run.2.filterMap Except.toOption = List.range run.1.size ∧
    run.1.entries.toList = cells.filter (fun c => decide (c.column < ncols ∧ c.row < nrows)) ∧
    ∃ a slots, run.1.build = some (a, slots) ∧ (a.nrows = nrows ∧ a.ncols = ncols) ∧
      Gathers run.1.entries.toList a slots := by
  intro run
  have hrun : run.1 = ⟨nrows, ncols,
      (cells.filter fun c => decide (c.column < ncols ∧ c.row < nrows)).toArray⟩ := by
    rw [show run.1 = _ from fst_offerAll _ cells, empty, Array.empty_append]
  refine ⟨fun k c hc => refused_iff _ hc, length_answers _ _, ?_, by rw [hrun], ?_⟩
  · rw [show run.2 = _ from rfl, numbers_offerAll, List.range_eq_range', hrun]
    rfl
  · rw [hrun]
    exact gathers_build fun c hc => by simpa using (List.mem_filter.mp hc).2

/-- Terms in the order in which they have been added up. -/
structure Terms where
  list : List Nat
deriving DecidableEq

instance : Add Terms := ⟨fun x y => ⟨x.list ++ y.list⟩⟩

/-- Entries two of which share a place, with another one between them, and one outside. -/
def scattered : List (Cell Terms) := [⟨1, 0, ⟨[1]⟩⟩, ⟨2, 0, ⟨[2]⟩⟩, ⟨0, 1, ⟨[3]⟩⟩, ⟨1, 0, ⟨[4]⟩⟩]

/-- The matrix of those inside. -/
def gathered : Csc Terms := ⟨2, 2, #[0, 1, 2], #[1, 0], #[⟨[3]⟩, ⟨[1, 4]⟩]⟩

theorem gathers_of_pushes_scattered :
    ((empty 2 2).offerAll scattered).2 =
        [.ok 0, .error (.outOfBounds 2 2), .ok 1, .ok 2] ∧
      Gathers [⟨1, 0, ⟨[1]⟩⟩, ⟨0, 1, ⟨[3]⟩⟩, ⟨1, 0, ⟨[4]⟩⟩] gathered #[1, 0, 1] := by
  obtain ⟨-, -, -, hentries, a, slots, hrun, -, hgathers⟩ := gathers_of_pushes 2 2 scattered
  have hbuild : ((empty 2 2).offerAll scattered).1.build = some (gathered, #[1, 0, 1]) := by
    simp only [build, sortNumbered_eq_insertionSort]
    decide +kernel
  obtain ⟨rfl, rfl⟩ := Prod.mk.inj (Option.some.inj (hbuild.symm.trans hrun))
  rw [hentries] at hgathers
  exact ⟨rfl, hgathers⟩

end Saddle.Triplets
