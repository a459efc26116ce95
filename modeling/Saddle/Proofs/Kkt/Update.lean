import Saddle.Proofs.Sparse.Pattern
import Saddle.Proofs.Kkt.Assembly
import Saddle.Kkt.Update

/-!
# New values lead to the matrix assembled from them

Assembling sees the places of entries before it sees their values, so the slots
depend on the patterns of the blocks and on the order alone. Two matrices assembled
on the same patterns in the same order differ only in what is in the slots, and an
update that writes the new values of the changed entries into theirs leads from one
to the other.

An entry of a block shares its slot with no other entry of the blocks. What is in
the slot is the value of the entry, on the diagonal of `P` added to the `sigma` that
was put there first. An update adds the two the other way round. That is the one
law of arithmetic which the comparison needs: that a sum of two does not depend on
their order.
-/

namespace Saddle

namespace Csc

variable {α β : Type}

/-- The matrix with the values of another one of the same pattern, the changed ones or all. -/
def overwrite (a b : Csc α) (changed : Option (List Nat)) : Csc α :=
  { a with
    vals := a.vals.mapIdx fun i x =>
      if i ∈ Kkt.replaced changed b.nnz then b.vals.getD i x else x }

section Overwrite

variable {a b : Csc α} {changed : Option (List Nat)} {i : Nat}

theorem samePattern_overwrite (a b : Csc α) (changed : Option (List Nat)) :
    SamePattern (a.overwrite b changed) a :=
  ⟨rfl, rfl, rfl, rfl, by simp [overwrite]⟩

theorem cell_overwrite_of_mem (ha : a.Framed) (h : SamePattern b a)
    (hi : i ∈ Kkt.replaced changed b.nnz) :
    (a.overwrite b changed).cellList[i]? = b.cellList[i]? := by
  have hb := h.framed ha
  refine ((samePattern_overwrite a b changed).trans h.symm).cell_congr hb ?_
  rw [overwrite, Array.getElem?_mapIdx]
  by_cases hlt : i < a.vals.size
  · simp [hi, hlt, h.size_vals ▸ hlt]
  · simp [hlt, h.size_vals ▸ hlt]

theorem cell_overwrite_of_notMem (ha : a.Framed) (hi : i ∉ Kkt.replaced changed b.nnz) :
    (a.overwrite b changed).cellList[i]? = a.cellList[i]? := by
  refine (samePattern_overwrite a b changed).cell_congr ha ?_
  rw [overwrite, Array.getElem?_mapIdx]
  simp [hi]

end Overwrite

end Csc

namespace Kkt

open Cell Csc Triplets

variable {α β : Type} [Scalar α]

/-! ## The slots of the blocks -/

/-- The entries of the blocks, without the diagonal that comes first. -/
def blockList (p a : Csc α) (lower : PerConstraint α) : List (Cell α) :=
  p.cellList ++ a.cellList.map (shift p.ncols) ++
    (List.range a.nrows).map fun i => ⟨p.ncols + i, p.ncols + i, -lower.value i⟩

/-- What is put into the slot of an entry of the blocks. -/
def slotValue (n : Nat) (sigma : α) (c : Cell α) : α :=
  if c.row = c.column ∧ c.column < n then sigma + c.value else c.value

section Blocks

variable {p a p' a' : Csc α} {sigma sigma' : α} {lower lower' : PerConstraint α}

theorem entryList_eq (p a : Csc α) (sigma : α) (lower : PerConstraint α) :
    entryList p a sigma lower =
      (List.range p.ncols).map (fun j => ⟨j, j, sigma⟩) ++ blockList p a lower := by
  rw [entryList, blockList, List.append_assoc, List.append_assoc, List.append_assoc]

theorem getElem?_entryList (p a : Csc α) (sigma : α) (lower : PerConstraint α) (i : Nat) :
    (entryList p a sigma lower)[p.ncols + i]? = (blockList p a lower)[i]? := by
  rw [entryList_eq, List.getElem?_append_right (by simp), List.length_map, List.length_range,
    Nat.add_sub_cancel_left]

theorem getElem?_quadratic (hp : p.Framed) {i : Nat} (hi : i < p.nnz) :
    (blockList p a lower)[i]? = p.cellList[i]? := by
  rw [← hp.length_cellList] at hi
  rw [blockList, List.append_assoc, List.getElem?_append_left hi]

theorem getElem?_past_quadratic (hp : p.Framed) (i : Nat) :
    (blockList p a lower)[p.nnz + i]? = (a.cellList.map (shift p.ncols) ++
      (List.range a.nrows).map fun i => ⟨p.ncols + i, p.ncols + i, -lower.value i⟩)[i]? := by
  rw [← hp.length_cellList, blockList, List.append_assoc,
    List.getElem?_append_right (Nat.le_add_right _ _), Nat.add_sub_cancel_left]

theorem getElem?_constraints (hp : p.Framed) (ha : a.Framed) {i : Nat} (hi : i < a.nnz) :
    (blockList p a lower)[p.nnz + i]? = (a.cellList[i]?).map (shift p.ncols) := by
  rw [← ha.length_cellList] at hi
  rw [getElem?_past_quadratic hp, List.getElem?_append_left (by simpa using hi), List.getElem?_map]

theorem getElem?_past_constraints (hp : p.Framed) (ha : a.Framed) (i : Nat) :
    (blockList p a lower)[p.nnz + a.nnz + i]? = ((List.range a.nrows).map fun i =>
      (⟨p.ncols + i, p.ncols + i, -lower.value i⟩ : Cell α))[i]? := by
  rw [Nat.add_assoc, getElem?_past_quadratic hp, ← ha.length_cellList,
    List.getElem?_append_right (by simp), List.length_map, Nat.add_sub_cancel_left]

theorem getElem?_before_lower (hp : p.Framed) (ha : a.Framed) {i : Nat} (hi : i < p.nnz + a.nnz) :
    (blockList p a lower)[i]? = (p.cellList ++ a.cellList.map (shift p.ncols))[i]? := by
  rw [← hp.length_cellList, ← ha.length_cellList] at hi
  rw [blockList, List.getElem?_append_left (by simpa using hi)]

theorem length_blockList (hp : p.Framed) (ha : a.Framed) :
    (blockList p a lower).length = p.nnz + a.nnz + a.nrows := by
  simp [blockList, hp.length_cellList, ha.length_cellList, Nat.add_assoc]

theorem nodup_blockList (hb : Blocks p a lower) : ((blockList p a lower).map place).Nodup := by
  have hquadratic : (p.cellList.map place).Nodup := hb.pValid.nodup_places
  have hconstraints : ((a.cellList.map (shift p.ncols)).map place).Nodup := by
    rw [List.map_map, List.Nodup, List.pairwise_map]
    have hpairs := hb.aValid.pairwise_cellList
    rw [List.pairwise_map] at hpairs
    refine hpairs.imp fun {c d} h heq => h.ne ?_
    simp only [Function.comp_apply, shift, place, Prod.mk.injEq] at heq ⊢
    omega
  have hlower : (((List.range a.nrows).map fun i =>
      (⟨p.ncols + i, p.ncols + i, -lower.value i⟩ : Cell α)).map place).Nodup := by
    rw [List.map_map]
    refine List.nodup_range.map_on fun i _ j _ heq => ?_
    simp only [Function.comp_apply, place, Prod.mk.injEq] at heq
    omega
  rw [blockList, List.map_append, List.map_append, List.nodup_append, List.nodup_append]
  refine ⟨⟨hquadratic, hconstraints, fun q hq q' hq' heq => ?_⟩, hlower,
    fun q hq q' hq' heq => ?_⟩
  · obtain ⟨c, hc, rfl⟩ := List.mem_map.mp hq
    rw [List.map_map] at hq'
    obtain ⟨d, hd, rfl⟩ := List.mem_map.mp hq'
    have := (lt_of_mem_cellList hb.pValid hc).1
    have := congrArg Prod.fst heq
    simp only [Function.comp_apply, shift, place] at this
    omega
  · rw [List.map_map] at hq'
    obtain ⟨i, -, rfl⟩ := List.mem_map.mp hq'
    have hfst := congrArg Prod.fst heq
    have hsnd := congrArg Prod.snd heq
    simp only [Function.comp_apply, place] at hfst hsnd
    rcases List.mem_append.mp hq with hq | hq
    · obtain ⟨c, hc, rfl⟩ := List.mem_map.mp hq
      have := (lt_of_mem_cellList hb.pValid hc).1
      simp only [place] at hfst
      omega
    · rw [List.map_map] at hq
      obtain ⟨d, hd, rfl⟩ := List.mem_map.mp hq
      have := (lt_of_mem_cellList hb.aValid hd).1
      have := hb.columns
      simp only [Function.comp_apply, shift, place] at hsnd
      omega

omit [Scalar α] in
theorem valuesAt_diagonal (n : Nat) (sigma : α) (q : Nat × Nat) :
    valuesAt q ((List.range n).map fun j => (⟨j, j, sigma⟩ : Cell α)) =
      if q.2 = q.1 ∧ q.1 < n then [sigma] else [] := by
  by_cases hon : q.2 = q.1 ∧ q.1 < n
  · have hdiagonal : (((List.range n).map fun j => (⟨j, j, sigma⟩ : Cell α)).map place).Nodup := by
      rw [List.map_map]
      exact List.nodup_range.map_on fun i _ j _ heq => congrArg Prod.fst heq
    have hmem : (⟨q.1, q.1, sigma⟩ : Cell α) ∈
        (List.range n).map fun j => (⟨j, j, sigma⟩ : Cell α) :=
      List.mem_map.mpr ⟨q.1, List.mem_range.mpr hon.2, rfl⟩
    have hplace : q = (⟨q.1, q.1, sigma⟩ : Cell α).place := Prod.ext rfl hon.1
    rw [if_pos hon, hplace]
    exact valuesAt_of_nodup hdiagonal hmem
  · rw [if_neg hon]
    refine valuesAt_of_notMem fun hmem => hon ?_
    rw [List.map_map, List.mem_map] at hmem
    obtain ⟨j, hj, rfl⟩ := hmem
    exact ⟨rfl, List.mem_range.mp hj⟩

theorem valuesAt_entryList (hb : Blocks p a lower) {c : Cell α} (hc : c ∈ blockList p a lower) :
    chain? (valuesAt c.place (entryList p a sigma lower)) =
      some (slotValue p.ncols sigma c) := by
  rw [entryList_eq, valuesAt_append, valuesAt_of_nodup (nodup_blockList hb) hc, slotValue,
    valuesAt_diagonal]
  by_cases hon : c.row = c.column ∧ c.column < p.ncols
  · rw [if_pos hon, if_pos (show c.place.2 = c.place.1 ∧ c.place.1 < p.ncols from hon)]
    rfl
  · rw [if_neg hon, if_neg (show ¬ (c.place.2 = c.place.1 ∧ c.place.1 < p.ncols) from hon)]
    rfl

theorem places_entryList (hp : SamePattern p' p) (ha : SamePattern a' a) :
    (entryList p' a' sigma' lower').map place = (entryList p a sigma lower).map place := by
  have hshift : ∀ n (b : Csc α), (b.cellList.map (shift n)).map place =
      (b.cellList.map place).map fun q => (n + q.2, q.1) := by
    intro n b
    rw [List.map_map, List.map_map]
    rfl
  simp only [entryList, List.map_append, hshift, hp.places_eq, ha.places_eq, hp.ncols_eq,
    ha.nrows_eq, List.map_map]
  rfl

end Blocks

/-! ## Writing through the maps -/

section Write

variable {p a p' a' : Csc α} {sigma : α} {lower lower' : PerConstraint α} {new : Nat → Nat}
  {matrix matrix' : Csc α} {slots : Array Nat}

theorem Assembled.value_slot (h : Assembled p a sigma lower new matrix slots)
    (hb : Blocks p a lower) {i q : Nat} {c : Cell α} (hc : (blockList p a lower)[i]? = some c)
    (hq : slots[p.ncols + i]? = some q) :
    matrix.vals[q]? = some (slotValue p.ncols sigma c) := by
  obtain ⟨cells, rfl, hbuilt⟩ := h
  rw [← valuesAt_entryList hb (List.mem_of_getElem? hc),
    ← hbuilt.value_slot ((getElem?_entryList ..).trans hc) hq, ofCells, List.getElem?_toArray]

theorem Assembled.samePattern (h : Assembled p a sigma lower new matrix slots)
    {slots' : Array Nat} (h' : Assembled p' a' sigma lower' new matrix' slots')
    (hp : SamePattern p' p) (ha : SamePattern a' a) :
    SamePattern matrix' matrix ∧ slots' = slots := by
  obtain ⟨cells, rfl, hbuilt⟩ := h
  obtain ⟨cells', rfl, hbuilt'⟩ := h'
  have hplaces : (entryList p' a' sigma lower').map place = (entryList p a sigma lower).map place :=
    places_entryList hp ha
  have hmoved := congrArg (List.map (movePlace new)) hplaces
  rw [List.map_map, List.map_map] at hmoved
  obtain ⟨hcells, hslots⟩ := hbuilt'.congr hbuilt hmoved
  rw [hp.ncols_eq, ha.nrows_eq]
  exact ⟨samePattern_ofCells _ _ hcells, hslots⟩

/-- A slot keeps its value if the entries in it keep theirs. -/
theorem Assembled.value_congr (h : Assembled p a sigma lower new matrix slots)
    (h' : Assembled p' a' sigma lower' new matrix' slots) (hp : SamePattern p' p)
    (ha : SamePattern a' a) {q : Nat}
    (hsame : ∀ i, slots[p.ncols + i]? = some q →
      (blockList p' a' lower')[i]? = (blockList p a lower)[i]?) :
    matrix.vals[q]? = matrix'.vals[q]? := by
  obtain ⟨cells, rfl, hbuilt⟩ := h
  obtain ⟨cells', rfl, hbuilt'⟩ := h'
  have hvalue := hbuilt.value_congr hbuilt' (q := q) (places_entryList hp ha).symm
    fun e he => by
      rcases Nat.lt_or_ge e p.ncols with hen | hen
      · rw [entryList_eq, entryList_eq, List.getElem?_append_left (by simpa using hen),
          List.getElem?_append_left (by simpa [hp.ncols_eq] using hen), hp.ncols_eq]
      · obtain ⟨i, rfl⟩ := Nat.exists_eq_add_of_le hen
        rw [getElem?_entryList, ← hp.ncols_eq, getElem?_entryList, hsame i he]
  rw [ofCells, ofCells, List.getElem?_toArray, List.getElem?_toArray]
  exact hvalue

/-- A loop that writes the changed entries of the blocks into their slots. -/
theorem Assembled.foldlM_write (h : Assembled p a sigma lower new matrix slots)
    (h' : Assembled p' a' sigma lower' new matrix' slots) (hb' : Blocks p' a' lower')
    (hp : SamePattern p' p) (ha : SamePattern a' a)
    {step : Csc α → β → Option (Csc α)} {l : List β} (index : β → Nat)
    (hsame : ∀ i, (∀ x ∈ l, index x ≠ i) →
      (blockList p' a' lower')[i]? = (blockList p a lower)[i]?)
    (hstep : ∀ x ∈ l, ∃ c q, (blockList p' a' lower')[index x]? = some c ∧
      slots[p.ncols + index x]? = some q ∧
        ∀ b, step b x = b.setValue q (slotValue p.ncols sigma c)) :
    l.foldlM step matrix = some matrix' := by
  have hpattern := (h.samePattern h' hp ha).1
  have hslot : ∀ x ∈ l, matrix'.vals[slots.getD (p.ncols + index x) 0]? =
      some (matrix'.vals.getD (slots.getD (p.ncols + index x) 0) 0) ∧
        ∀ b, step b x = b.setValue (slots.getD (p.ncols + index x) 0)
          (matrix'.vals.getD (slots.getD (p.ncols + index x) 0) 0) := by
    intro x hx
    obtain ⟨c, q, hc, hq, hwrite⟩ := hstep x hx
    have hvalue := h'.value_slot hb' hc (hp.ncols_eq ▸ hq)
    rw [hp.ncols_eq] at hvalue
    have hgetD : slots.getD (p.ncols + index x) 0 = q := by
      rw [Array.getD_eq_getD_getElem?, hq]
      rfl
    have htarget : matrix'.vals.getD q 0 = slotValue p.ncols sigma c := by
      rw [Array.getD_eq_getD_getElem?, hvalue]
      rfl
    rw [hgetD, htarget]
    exact ⟨hvalue, hwrite⟩
  obtain ⟨vals, hrun, hsize, hget⟩ := setValues_spec (a := matrix)
    (fun x => slots.getD (p.ncols + index x) 0) (matrix'.vals.getD · 0)
    (fun x hx => (hslot x hx).2) fun x hx => by
      rw [← hpattern.size_vals]
      exact (Array.getElem?_eq_some_iff.mp (hslot x hx).1).1
  rw [hrun, Option.some.injEq]
  refine SamePattern.ext ⟨hpattern.nrows_eq.symm, hpattern.ncols_eq.symm,
    hpattern.colPtr_eq.symm, hpattern.rowIdx_eq.symm, hsize.trans hpattern.size_vals.symm⟩
    (Array.ext_getElem? fun q => ?_)
  rcases Nat.lt_or_ge q matrix.vals.size with hlt | hge
  · rw [hget q hlt]
    by_cases hq : q ∈ l.map fun x => slots.getD (p.ncols + index x) 0
    · obtain ⟨x, hx, rfl⟩ := List.mem_map.mp hq
      rw [if_pos hq, (hslot x hx).1]
    · -- The entries in this slot have not changed.
      rw [if_neg hq]
      refine h.value_congr h' hp ha fun i hi => ?_
      refine hsame i fun x hx hxi => hq (List.mem_map.mpr ⟨x, hx, ?_⟩)
      rw [hxi, Array.getD_eq_getD_getElem?, hi]
      rfl
  · rw [Array.getElem?_eq_none (by rw [hsize]; exact hge),
      Array.getElem?_eq_none (by rw [hpattern.size_vals]; exact hge)]

theorem Assembled.size_slots (h : Assembled p a sigma lower new matrix slots)
    (hb : Blocks p a lower) : slots.size = p.ncols + (p.nnz + a.nnz + a.nrows) := by
  obtain ⟨cells, -, hbuilt⟩ := h
  rw [hbuilt.size_slots, entryList_eq, List.length_append, List.length_map, List.length_range,
    length_blockList hb.pValid.toFramed hb.aValid.toFramed]

/-- The maps have a slot for each value of their block. -/
theorem Assembled.size_mapsOf (h : Assembled p a sigma lower new matrix slots)
    (hb : Blocks p a lower) :
    (mapsOf p a slots).p.size = p.nnz ∧ (mapsOf p a slots).a.size = a.nnz ∧
      (mapsOf p a slots).rho.size = a.nrows := by
  have hsize := h.size_slots hb
  simp only [mapsOf, Array.size_extract]
  omega

end Write

/-! ## The three updates -/

theorem checkUpdate_eq_ok {block : Block} {changed : Option (List Nat)} {map : Array Nat}
    {nnz : Nat} :
    checkUpdate block changed map nnz = .ok () ↔
      map.size = nnz ∧ ∀ i ∈ changed.getD [], i < nnz := by
  rw [checkUpdate]
  by_cases hsize : map.size = nnz
  · rw [if_neg (not_not_intro hsize)]
    cases hfind : (changed.getD []).find? (nnz ≤ ·) with
    | none =>
        rw [List.find?_eq_none] at hfind
        simpa [hsize] using hfind
    | some i =>
        have hmem := List.mem_of_find?_eq_some hfind
        have hle : nnz ≤ i := by simpa using List.find?_some hfind
        simp only [reduceCtorEq, false_iff, not_and, not_forall]
        exact fun _ => ⟨i, hmem, Nat.not_lt.mpr hle⟩
  · rw [if_pos hsize]
    simp [hsize]

theorem lt_of_mem_replaced {changed : Option (List Nat)} {nnz i : Nat}
    (hchanged : ∀ i ∈ changed.getD [], i < nnz) (hi : i ∈ replaced changed nnz) : i < nnz := by
  cases changed with
  | none => exact List.mem_range.mp hi
  | some positions => exact hchanged i hi

section Update

variable {p a b : Csc α} {sigma : α} {lower lower' : PerConstraint α} {new : Nat → Nat}
  {matrix matrix' : Csc α} {slots : Array Nat} {changed : Option (List Nat)}

theorem getElem?_extract_slots {start count i : Nat} (hsize : start + count ≤ slots.size)
    (hi : i < count) : (slots.extract start (start + count))[i]? = slots[start + i]? := by
  rw [Array.getElem?_extract, if_pos (by omega)]

theorem updateP_spec (hcomm : ∀ x y : α, x + y = y + x)
    (h : Assembled p a sigma lower new matrix slots)
    (h' : Assembled (p.overwrite b changed) a sigma lower new matrix' slots)
    (hb : Blocks p a lower) (hnew : SamePattern b p)
    (hcheck : checkUpdate .p changed (mapsOf p a slots).p b.nnz = .ok ()) :
    (updateP matrix b changed (mapsOf p a slots).p sigma).run = some (.ok matrix') := by
  have hsize := h.size_slots hb
  have hpf := hb.pValid.toFramed
  have hpattern := samePattern_overwrite p b changed
  have hb' : Blocks (p.overwrite b changed) a lower :=
    ⟨hpattern.valid hb.pValid, hpattern.upper hb.pUpper, hb.aValid, hb.columns, hb.lower⟩
  obtain ⟨-, hchanged⟩ := checkUpdate_eq_ok.mp hcheck
  have hwrite : writeAllP b (mapsOf p a slots).p sigma matrix (replaced changed b.nnz) =
      some matrix' := by
    refine h.foldlM_write h' hb' hpattern (.refl a) id (fun i hi => ?_) fun i hi => ?_
    · rcases Nat.lt_or_ge i p.nnz with hlt | hge
      · rw [getElem?_quadratic hpf hlt, getElem?_quadratic hb'.pValid.toFramed hlt]
        exact cell_overwrite_of_notMem hpf fun hmem => hi i hmem rfl
      · obtain ⟨k, rfl⟩ := Nat.exists_eq_add_of_le hge
        rw [getElem?_past_quadratic hpf]
        exact getElem?_past_quadratic hb'.pValid.toFramed k
    · have hlt := lt_of_mem_replaced hchanged hi
      have hlt' : i < p.nnz := hnew.nnz_eq ▸ hlt
      have hbf := hnew.framed hpf
      obtain ⟨c, hc⟩ := hbf.exists_cell hlt
      obtain ⟨hcolumn, hentry⟩ := hbf.read_cell hc
      obtain ⟨q, hslot⟩ : ∃ q, slots[p.ncols + i]? = some q :=
        ⟨_, Array.getElem?_eq_getElem (by omega)⟩
      refine ⟨c, q, ?_, hslot, fun m => ?_⟩
      · rw [id, getElem?_quadratic hb'.pValid.toFramed hlt',
          cell_overwrite_of_mem hpf hnew hi, hc]
      · have hmap : (mapsOf p a slots).p[i]? = some q :=
          (getElem?_extract_slots (by omega) hlt').trans hslot
        have hlast : c.column < p.ncols := hnew.ncols_eq ▸
          (lt_of_mem_cellList (hnew.valid hb.pValid) (List.mem_of_getElem? hc)).1
        have hvalue : (if c.row = c.column then c.value + sigma else c.value) =
            slotValue p.ncols sigma c := by
          rw [slotValue, hcomm]
          simp only [hlast, and_true]
        rw [writeP, hcolumn, hentry, hmap]
        simp only [Option.bind_eq_bind, Option.bind_some, hvalue]
  rw [updateP, hcheck, Checked.run_ok_bind, hwrite]
  rfl

theorem updateA_spec (h : Assembled p a sigma lower new matrix slots)
    (h' : Assembled p (a.overwrite b changed) sigma lower new matrix' slots)
    (hb : Blocks p a lower) (hnew : SamePattern b a)
    (hcheck : checkUpdate .a changed (mapsOf p a slots).a b.nnz = .ok ()) :
    (updateA matrix b changed (mapsOf p a slots).a).run = some (.ok matrix') := by
  have hsize := h.size_slots hb
  have hpf := hb.pValid.toFramed
  have haf := hb.aValid.toFramed
  have hpattern := samePattern_overwrite a b changed
  have hb' : Blocks p (a.overwrite b changed) lower :=
    ⟨hb.pValid, hb.pUpper, hpattern.valid hb.aValid, hb.columns, hb.lower⟩
  obtain ⟨-, hchanged⟩ := checkUpdate_eq_ok.mp hcheck
  have hwrite : writeAllA b (mapsOf p a slots).a matrix (replaced changed b.nnz) =
      some matrix' := by
    refine h.foldlM_write h' hb' (.refl p) hpattern (p.nnz + ·) (fun i hi => ?_) fun i hi => ?_
    · rcases Nat.lt_or_ge i p.nnz with hlt | hge
      · rw [getElem?_quadratic hpf hlt, getElem?_quadratic hpf hlt]
      obtain ⟨k, rfl⟩ := Nat.exists_eq_add_of_le hge
      rcases Nat.lt_or_ge k a.nnz with hlt | hge
      · rw [getElem?_constraints hpf haf hlt, getElem?_constraints hpf hb'.aValid.toFramed hlt,
          cell_overwrite_of_notMem haf fun hmem => hi k hmem rfl]
      · obtain ⟨j, rfl⟩ := Nat.exists_eq_add_of_le hge
        rw [← Nat.add_assoc, getElem?_past_constraints hpf haf]
        exact getElem?_past_constraints hpf hb'.aValid.toFramed j
    · have hlt := lt_of_mem_replaced hchanged hi
      have hlt' : i < a.nnz := hnew.nnz_eq ▸ hlt
      have hbf := hnew.framed haf
      obtain ⟨c, hc⟩ := hbf.exists_cell hlt
      obtain ⟨q, hslot⟩ : ∃ q, slots[p.ncols + (p.nnz + i)]? = some q :=
        ⟨_, Array.getElem?_eq_getElem (by omega)⟩
      refine ⟨shift p.ncols c, q, ?_, hslot, fun m => ?_⟩
      · rw [getElem?_constraints hpf hb'.aValid.toFramed hlt',
          cell_overwrite_of_mem haf hnew hi, hc]
        rfl
      · have hmap : (mapsOf p a slots).a[i]? = some q := by
          rw [← Nat.add_assoc] at hslot
          exact (getElem?_extract_slots (by omega) hlt').trans hslot
        have hvalue : slotValue p.ncols sigma (shift p.ncols c) = c.value :=
          if_neg fun hon => by
            have := hon.2
            simp only [shift] at this
            omega
        rw [writeA, hmap, hbf.value_cell hc, hvalue]
        rfl
  rw [updateA, hcheck, Checked.run_ok_bind, hwrite]
  rfl

theorem updateRho_spec (h : Assembled p a sigma lower new matrix slots)
    (h' : Assembled p a sigma lower' new matrix' slots) (hb : Blocks p a lower)
    (hlower : lower'.Fits a.nrows) :
    (updateRho matrix lower' (mapsOf p a slots).rho).run = some (.ok matrix') := by
  have hsize := h.size_slots hb
  have hpf := hb.pValid.toFramed
  have haf := hb.aValid.toFramed
  have hb' : Blocks p a lower' := ⟨hb.pValid, hb.pUpper, hb.aValid, hb.columns, hlower⟩
  obtain ⟨-, -, hrho⟩ := h.size_mapsOf hb
  have hwrite : writeAllRho lower' (mapsOf p a slots).rho matrix = some matrix' := by
    refine h.foldlM_write h' hb' (.refl p) (.refl a) (p.nnz + a.nnz + ·.2) (fun i hi => ?_)
      fun x hx => ?_
    · rcases Nat.lt_or_ge i (p.nnz + a.nnz) with hlt | hge
      · rw [getElem?_before_lower hpf haf hlt, getElem?_before_lower hpf haf hlt]
      · obtain ⟨j, rfl⟩ := Nat.exists_eq_add_of_le hge
        rcases Nat.lt_or_ge j a.nrows with hlt | hge
        · have hj : j < (mapsOf p a slots).rho.toList.length := by
            rw [Array.length_toList, hrho]
            exact hlt
          refine absurd rfl (hi ((mapsOf p a slots).rho.toList[j], j) ?_)
          rw [List.mk_mem_zipIdx_iff_getElem?]
          exact List.getElem?_eq_getElem hj
        · rw [List.getElem?_eq_none, List.getElem?_eq_none]
          · rw [length_blockList hpf haf]
            omega
          · rw [length_blockList hpf haf]
            omega
    · obtain ⟨q, j⟩ := x
      rw [List.mk_mem_zipIdx_iff_getElem?, Array.getElem?_toList] at hx
      have hj : j < a.nrows := by
        rw [← hrho]
        exact (Array.getElem?_eq_some_iff.mp hx).1
      have hslot : slots[p.ncols + (p.nnz + a.nnz + j)]? = some q := by
        rw [← Nat.add_assoc, ← Nat.add_assoc]
        exact (getElem?_extract_slots (by omega) hj).symm.trans hx
      refine ⟨⟨p.ncols + j, p.ncols + j, -lower'.value j⟩, q, ?_, hslot, fun m => ?_⟩
      · rw [getElem?_past_constraints hpf haf, List.getElem?_map, List.getElem?_range hj]
        rfl
      · have hvalue : slotValue p.ncols sigma (⟨p.ncols + j, p.ncols + j, -lower'.value j⟩ :
            Cell α) = -lower'.value j :=
          if_neg fun hon => by
            have := hon.2
            simp only at this
            omega
        rw [writeRho, hlower.get?_eq hj, hvalue]
        rfl
  rw [updateRho, hrho, checkLength_eq_ok.mpr hlower, Checked.run_ok_bind, hwrite]
  rfl

end Update

end Kkt

end Saddle
