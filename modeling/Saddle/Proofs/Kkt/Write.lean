import Saddle.Proofs.InPlace
import Saddle.Proofs.Kkt.Bounds

/-!
# What an update writes

The three updates differ in what they read and agree in what they do with it: a check,
and after it a list of writes, each of a value into a slot. The list is known before
the first write. No two entries of the blocks share a slot, so a slot that is written
twice is written with one value, and in the end every slot of the list has its value,
whatever came before, while all others are as they were.
-/

namespace Saddle

namespace Csc

variable {α : Type}

/-- The values have been put into the slots they come with, and nothing else has changed. -/
structure Stored (matrix : Csc α) (writes : List (Nat × α)) (matrix' : Csc α) : Prop where
  pattern : SamePattern matrix' matrix
  stored : ∀ w ∈ writes, matrix'.vals[w.1]? = some w.2
  kept : ∀ q, q ∉ writes.map (·.1) → matrix'.vals[q]? = matrix.vals[q]?

theorem stored_nil (matrix : Csc α) : Stored matrix [] matrix :=
  ⟨.refl matrix, by simp, fun _ _ => rfl⟩

theorem Stored.append {matrix matrix₁ matrix₂ : Csc α} {ws₁ ws₂ : List (Nat × α)}
    (h₁ : Stored matrix ws₁ matrix₁) (h₂ : Stored matrix₁ ws₂ matrix₂)
    (hone : ∀ w ∈ ws₁, ∀ w' ∈ ws₂, w.1 = w'.1 → w.2 = w'.2) :
    Stored matrix (ws₁ ++ ws₂) matrix₂ where
  pattern := h₂.pattern.trans h₁.pattern
  stored w hw := by
    rcases List.mem_append.mp hw with hw | hw
    · by_cases hlater : w.1 ∈ ws₂.map (·.1)
      · obtain ⟨w', hw', heq⟩ := List.mem_map.mp hlater
        rw [hone w hw w' hw' heq.symm, ← heq]
        exact h₂.stored w' hw'
      · rw [h₂.kept w.1 hlater]
        exact h₁.stored w hw
    · exact h₂.stored w hw
  kept q hq := by
    rw [List.map_append, List.mem_append, not_or] at hq
    rw [h₂.kept q hq.2, h₁.kept q hq.1]

theorem stored_setValue {matrix : Csc α} {w : Nat × α} (h : w.1 < matrix.vals.size) :
    ∃ matrix', matrix.setValue w.1 w.2 = some matrix' ∧ Stored matrix [w] matrix' := by
  refine ⟨_, setValue_of_lt h w.2, ⟨rfl, rfl, rfl, rfl, Array.size_setIfInBounds⟩, ?_, ?_⟩
  · intro w' hw'
    rw [List.mem_singleton.mp hw']
    simp [h]
  · intro q hq
    rw [List.map_singleton, List.mem_singleton] at hq
    exact Array.getElem?_setIfInBounds_ne (Ne.symm hq)

/-- Writes that agree on the slots they share are all there in the end. -/
theorem stored_of_writes {matrix : Csc α} {ws : List (Nat × α)}
    (hlt : ∀ w ∈ ws, w.1 < matrix.vals.size)
    (hone : ∀ w ∈ ws, ∀ w' ∈ ws, w.1 = w'.1 → w.2 = w'.2) :
    ∃ matrix', ws.foldlM (fun m w => m.setValue w.1 w.2) matrix = some matrix' ∧
      Stored matrix ws matrix' := by
  refine foldlM_total (Stored matrix) (stored_nil matrix) ?_
  rintro done w rest rfl b hb
  obtain ⟨b', hset, hb'⟩ := stored_setValue (hb.pattern.size_vals ▸ hlt w (by simp))
  refine ⟨b', hset, hb.append hb' fun v hv v' hv' => ?_⟩
  exact hone v (by simp [hv]) v' (by simp [List.mem_singleton.mp hv'])

end Csc

namespace Kkt

open Csc

variable {α : Type}

/-- No slot of the maps is that of two entries. -/
def SlotMaps.Apart (maps : SlotMaps) : Prop :=
  (maps.p.toList ++ maps.a.toList ++ maps.rho.toList).Nodup

/-- New values for one of the blocks. -/
inductive Change (α : Type) where
  | quadratic (p : Csc α) (changed : Option (List Nat))
  | constraints (a : Csc α) (changed : Option (List Nat))
  | diagonal (lower : PerConstraint α)

namespace Change

/-- Whether the values fit their map. -/
def check (maps : SlotMaps) : Change α → Except Error Unit
  | .quadratic p changed => checkUpdate .p changed maps.p p.nnz
  | .constraints a changed => checkUpdate .a changed maps.a a.nnz
  | .diagonal lower => checkLength lower maps.rho.size

/-- The map of the block. -/
def mapOf (maps : SlotMaps) : Change α → Array Nat
  | .quadratic _ _ => maps.p
  | .constraints _ _ => maps.a
  | .diagonal _ => maps.rho

/-- The positions of the map whose slots are written. -/
def positions (maps : SlotMaps) : Change α → List Nat
  | .quadratic p changed => replaced changed p.nnz
  | .constraints a changed => replaced changed a.nnz
  | .diagonal _ => List.range maps.rho.size

/-- The pointers of the matrix that comes with the values are in order. -/
def Framed : Change α → Prop
  | .quadratic p _ => p.Framed
  | .constraints a _ => a.Framed
  | .diagonal _ => True

variable [Scalar α] (sigma : α) (maps : SlotMaps)

/-- What is written for a position. -/
def value? : Change α → Nat → Option α
  | .quadratic p _, i => do
      let column ← p.columnOf i
      let (row, value) ← p.entry? i
      return if row = column then value + sigma else value
  | .constraints a _, i => a.vals[i]?
  | .diagonal lower, i => (lower.get? i).map (-·)

/-- The slots that are written and what is written into them, in order. -/
def writes? (c : Change α) : Option (List (Nat × α)) :=
  (c.positions maps).mapM fun i => do return (← (c.mapOf maps)[i]?, ← c.value? sigma i)

/-- The matrix with the new values, if they fit. -/
def update (matrix : Csc α) : Change α → Checked Error (Csc α)
  | .quadratic p changed => updateP matrix p changed maps.p sigma
  | .constraints a changed => updateA matrix a changed maps.a
  | .diagonal lower => updateRho matrix lower maps.rho

/-- The matrix with the new values. -/
def writeAll (matrix : Csc α) : Change α → Option (Csc α)
  | .quadratic p changed => writeAllP p maps.p sigma matrix (replaced changed p.nnz)
  | .constraints a changed => writeAllA a maps.a matrix (replaced changed a.nnz)
  | .diagonal lower => writeAllRho lower maps.rho matrix

/-- The update in place. -/
def store (c : Change α) : InPlace Error (Csc α) :=
  (InPlace.check (c.check maps)).andThen (.change fun matrix => c.writeAll sigma maps matrix)

variable {sigma maps} {matrix : Csc α} {c : Change α} {ws : List (Nat × α)}

theorem update_eq : c.update sigma maps matrix =
    (do c.check maps; c.writeAll sigma maps matrix : Checked Error (Csc α)) := by
  cases c <;> rfl

theorem store_eq_settle : c.store sigma maps matrix =
    InPlace.settle matrix (c.update sigma maps matrix) := by
  rw [store, InPlace.check_andThen_change, update_eq]

/-- Whatever is written, the pattern stays. -/
theorem samePattern_of_update (sigma : α) (c : Change α) {matrix' : Csc α}
    (h : (c.update sigma maps matrix).run = some (.ok matrix')) : SamePattern matrix' matrix := by
  have hwrite : c.writeAll sigma maps matrix = some matrix' := by
    rw [update_eq, Checked.run_bind_eq_ok] at h
    obtain ⟨_, -, h⟩ := h
    cases hw : c.writeAll sigma maps matrix with
    | none => simp [hw] at h
    | some m =>
        rw [hw] at h
        exact congrArg some (by simpa using h)
  cases c with
  | quadratic p changed =>
      refine samePattern_of_foldlM (fun m i m' h => ?_) hwrite
      simp only [writeP, Option.bind_eq_bind, Option.bind_eq_some_iff] at h
      obtain ⟨_, -, _, -, _, -, h⟩ := h
      exact samePattern_of_setValue h
  | constraints a changed =>
      refine samePattern_of_foldlM (fun m i m' h => ?_) hwrite
      simp only [writeA, Option.bind_eq_bind, Option.bind_eq_some_iff] at h
      obtain ⟨_, -, _, -, h⟩ := h
      exact samePattern_of_setValue h
  | diagonal lower =>
      refine samePattern_of_foldlM (fun m i m' h => ?_) hwrite
      simp only [writeRho, Option.bind_eq_bind, Option.bind_eq_some_iff] at h
      obtain ⟨_, -, h⟩ := h
      exact samePattern_of_setValue h

/-! ## The list of writes -/

omit [Scalar α] in
theorem mapM_slots (map : Array Nat) :
    (List.range map.size).mapM (fun i => map[i]?.map (·, i)) = some map.toList.zipIdx := by
  rw [mapM_eq_some]
  refine List.ext_getElem? fun i => ?_
  simp only [List.getElem?_map, List.getElem?_zipIdx, Array.getElem?_toList, Nat.zero_add]
  rcases Nat.lt_or_ge i map.size with hi | hi
  · simp [List.getElem?_range hi, Array.getElem?_eq_getElem hi]
  · rw [List.getElem?_eq_none (by simpa using hi), Array.getElem?_eq_none hi]
    rfl

theorem writeAll_eq (h : c.writes? sigma maps = some ws) :
    c.writeAll sigma maps matrix = ws.foldlM (fun m w => m.setValue w.1 w.2) matrix := by
  rw [← foldlM_fetch h]
  cases c with
  | quadratic p changed =>
      rw [writeAll, writeAllP, positions]
      congr 1
      funext m i
      cases hq : maps.p[i]? <;> simp [writeP, value?, mapOf, hq, Option.bind_assoc]
  | constraints a changed =>
      rw [writeAll, writeAllA, positions]
      congr 1
      funext m i
      cases hq : maps.a[i]? <;> simp [writeA, value?, mapOf, hq, Option.bind_assoc]
  | diagonal lower =>
      rw [writeAll, writeAllRho, positions, ← foldlM_fetch (mapM_slots maps.rho)]
      congr 1
      funext m i
      cases hq : maps.rho[i]? <;> cases hv : lower.get? i <;>
        simp [writeRho, value?, mapOf, hq, hv]

theorem exists_write_of_mem (h : c.writes? sigma maps = some ws) {w : Nat × α} (hw : w ∈ ws) :
    ∃ i ∈ c.positions maps, (c.mapOf maps)[i]? = some w.1 ∧ c.value? sigma i = some w.2 := by
  obtain ⟨i, hi, hwrite⟩ := exists_of_mem_mapM h hw
  simp only [Option.bind_eq_bind, Option.bind_eq_some_iff] at hwrite
  obtain ⟨q, hq, v, hv, hqv⟩ := hwrite
  obtain rfl := Option.some.inj hqv
  exact ⟨i, hi, hq, hv⟩

theorem exists_value (sigma : α) (hc : c.Framed) (hcheck : c.check maps = .ok ()) {i : Nat}
    (hi : i ∈ c.positions maps) :
    i < (c.mapOf maps).size ∧ ∃ v, c.value? sigma i = some v := by
  cases c with
  | quadratic p changed =>
      obtain ⟨hsize, hchanged⟩ := checkUpdate_eq_ok.mp hcheck
      have hlt := lt_of_mem_replaced hchanged hi
      obtain ⟨c, hcell⟩ := Csc.Framed.exists_cell hc hlt
      obtain ⟨hcolumn, hentry⟩ := Csc.Framed.read_cell hc hcell
      exact ⟨hsize ▸ hlt, _, by rw [value?, hcolumn, hentry]; rfl⟩
  | constraints a changed =>
      obtain ⟨hsize, hchanged⟩ := checkUpdate_eq_ok.mp hcheck
      have hlt := lt_of_mem_replaced hchanged hi
      obtain ⟨c, hcell⟩ := Csc.Framed.exists_cell hc hlt
      exact ⟨hsize ▸ hlt, _, Csc.Framed.value_cell hc hcell⟩
  | diagonal lower =>
      have hlt := List.mem_range.mp hi
      exact ⟨hlt, _, by rw [value?, (checkLength_eq_ok.mp hcheck).get?_eq hlt]; rfl⟩

theorem exists_writes (sigma : α) (hc : c.Framed) (hcheck : c.check maps = .ok ()) :
    ∃ ws, c.writes? sigma maps = some ws := by
  refine exists_mapM fun i hi => ?_
  obtain ⟨hlt, v, hv⟩ := exists_value sigma hc hcheck hi
  rw [Array.getElem?_eq_getElem hlt, hv]
  exact ⟨_, rfl⟩

theorem mem_map_of_mem_writes (h : c.writes? sigma maps = some ws) {w : Nat × α} (hw : w ∈ ws) :
    w.1 ∈ (c.mapOf maps).toList := by
  obtain ⟨i, -, hq, -⟩ := exists_write_of_mem h hw
  rw [← Array.getElem?_toList] at hq
  exact List.mem_of_getElem? hq

/-- Two writes into one slot are for one position. -/
theorem writes_agree (h : c.writes? sigma maps = some ws) (hmap : (c.mapOf maps).toList.Nodup) :
    ∀ w ∈ ws, ∀ w' ∈ ws, w.1 = w'.1 → w.2 = w'.2 := by
  intro w hw w' hw' heq
  obtain ⟨i, -, hq, hv⟩ := exists_write_of_mem h hw
  obtain ⟨i', -, hq', hv'⟩ := exists_write_of_mem h hw'
  rw [← Array.getElem?_toList] at hq hq'
  obtain ⟨hlt, -⟩ := List.getElem?_eq_some_iff.mp hq
  obtain rfl := (List.getElem?_inj hlt hmap).mp (hq.trans (heq ▸ hq'.symm))
  exact Option.some.inj (hv.symm.trans hv')

end Change

/-! ## Slots that are kept apart -/

section Slots

variable {maps : SlotMaps} {size : Nat}

theorem SlotMaps.Apart.nodup (h : maps.Apart) (c : Change α) : (c.mapOf maps).toList.Nodup := by
  rw [Apart, List.nodup_append, List.nodup_append] at h
  cases c with
  | quadratic p changed => exact h.1.1
  | constraints a changed => exact h.1.2.1
  | diagonal lower => exact h.2.1

theorem SlotMaps.Inside.lt (h : maps.Inside size) (c : Change α) :
    ∀ q ∈ (c.mapOf maps).toList, q < size := by
  cases c with
  | quadratic p changed => exact h.p
  | constraints a changed => exact h.a
  | diagonal lower => exact h.rho

variable [Scalar α] {matrix : Csc α} {c : Change α}

/-- An update in place is refused before its first write, or makes all of them. -/
theorem Change.store_spec (sigma : α) (hc : c.Framed) (hinside : maps.Inside matrix.vals.size)
    (hapart : maps.Apart) :
    (∀ e, c.check maps = .error e → c.store sigma maps matrix = some (matrix, .error e)) ∧
    (c.check maps = .ok () → ∃ ws matrix', c.writes? sigma maps = some ws ∧
      c.store sigma maps matrix = some (matrix', .ok ()) ∧ Stored matrix ws matrix') := by
  refine ⟨fun e he => InPlace.andThen_of_error (by rw [InPlace.check, he]), fun hcheck => ?_⟩
  obtain ⟨ws, hws⟩ := exists_writes sigma hc hcheck
  obtain ⟨matrix', hrun, hstored⟩ := stored_of_writes
    (fun w hw => hinside.lt c _ (mem_map_of_mem_writes hws hw))
    (writes_agree hws (hapart.nodup c))
  refine ⟨ws, matrix', hws, ?_, hstored⟩
  rw [Change.store, InPlace.andThen_of_ok (by rw [InPlace.check, hcheck])]
  exact InPlace.change_of_some ((writeAll_eq hws).trans hrun)

end Slots

section Assembled

variable [Scalar α] {p a : Csc α} {sigma : α} {lower : PerConstraint α} {new : Nat → Nat}
  {matrix : Csc α} {slots : Array Nat}

omit [Scalar α] in
theorem toList_mapsOf (p a : Csc α) (slots : Array Nat) :
    (mapsOf p a slots).p.toList ++ (mapsOf p a slots).a.toList ++ (mapsOf p a slots).rho.toList =
      (slots.extract p.ncols (p.ncols + p.nnz + a.nnz + a.nrows)).toList := by
  have hall : (mapsOf p a slots).p ++ (mapsOf p a slots).a ++ (mapsOf p a slots).rho =
      slots.extract p.ncols (p.ncols + p.nnz + a.nnz + a.nrows) := by
    simp only [mapsOf]
    rw [Array.extract_append_extract, Nat.min_eq_left (Nat.le_add_right _ _),
      Nat.max_eq_right (Nat.le_add_right _ _), Array.extract_append_extract,
      Nat.min_eq_left (by omega), Nat.max_eq_right (Nat.le_add_right _ _)]
  rw [← hall, Array.toList_append, Array.toList_append]

/-- The entries of the blocks are at different places, and so are their slots. -/
theorem Assembled.apart (h : Assembled p a sigma lower new matrix slots) (hb : Blocks p a lower)
    (hl : Labels (p.ncols + a.nrows) new) : (mapsOf p a slots).Apart := by
  obtain ⟨cells, -, hbuilt⟩ := h
  have htri := inTriangle_entryList hb sigma
  have hblock : ∀ c ∈ blockList p a lower, c.row ≤ c.column ∧ c.column < p.ncols + a.nrows :=
    fun c hc => htri c (by rw [entryList_eq]; exact List.mem_append_right _ hc)
  have hmoved : ((blockList p a lower).map fun c => movePlace new c.place).Nodup := by
    have hplaces := nodup_blockList hb
    rw [List.Nodup, List.pairwise_map] at hplaces ⊢
    exact hplaces.imp_of_mem fun {c d} hc hd hne heq =>
      hne (movePlace_inj hl (hblock c hc) (hblock d hd) heq)
  have hslots : (slots.toList.drop p.ncols).map ((cells.map Cell.place)[·]?) =
      ((blockList p a lower).map fun c => movePlace new c.place).map some := by
    have hall : slots.toList.map ((cells.map Cell.place)[·]?) =
        (entryList p a sigma lower).map fun c => some (movePlace new c.place) :=
      map_eq_map_of_forall₂ hbuilt.slots
    rw [List.map_drop, hall, entryList_eq, List.map_append, List.drop_append_of_le_length (by simp),
      List.drop_of_length_le (by simp), List.nil_append, List.map_map]
    rfl
  have hnodup : (slots.toList.drop p.ncols).Nodup := by
    refine List.Nodup.of_map ((cells.map Cell.place)[·]?) ?_
    rw [hslots]
    exact hmoved.map (Option.some_injective _)
  rw [SlotMaps.Apart, toList_mapsOf, Array.toList_extract, List.extract_eq_take_drop]
  exact hnodup.sublist (List.take_sublist _ _)

end Assembled

end Kkt

end Saddle
