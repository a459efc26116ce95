import Saddle.Proofs.Kkt.Layout
import Saddle.Proofs.Kkt.Write
import Saddle.Proofs.Sparse.Relabel

/-!
# Maps through any number of reorderings

The maps are cut out of the slots of the entries when the matrix is assembled, and
every reordering sends them where the entries go. So what is known of the slots of an
assembled matrix, in whatever order, is known of the maps at any time: an entry of a
block is in the slot that its map names, no slot is named twice, and a slot that is not
named holds the diagonal that was put there where the quadratic form stores none.

The order is the renumberings one after the other. A reordering composes one more onto
it and keeps everything else that is said.
-/

namespace Saddle.Kkt

open Cell Csc Triplets

variable {α : Type}

/-- The number of row and column `i` after the renumberings, the first of which comes first. -/
def numberAfter (rs : List Elimination.Renumbering) (i : Nat) : Nat :=
  rs.foldl (fun k r => labelOf r.newOf k) i

/-- Reordering by one method after the other, each of which succeeds, leads from one system to
another, through the renumberings. -/
inductive Reordered [Zero α] : System α → List Elimination.Renumbering → System α → Prop where
  | refl (s : System α) : Reordered s [] s
  | step {s s₁ s' : System α} {method : Elimination.Method} {r : Elimination.Renumbering}
      {rs : List Elimination.Renumbering} (h : (s.reorder method).run = some (.ok (s₁, r)))
      (rest : Reordered s₁ rs s') : Reordered s (r :: rs) s'

/-- The maps tell where the values of the blocks are in the matrix in which `number` numbers the
rows and columns. -/
structure SlotMaps.Exact (maps : SlotMaps) (p a : Csc α) (number : Nat → Nat) (matrix : Csc α) :
    Prop where
  check : matrix.check.run = some (.ok ())
  checkUpper : matrix.checkUpper.run = some (.ok ())
  size_p : maps.p.size = p.nnz
  size_a : maps.a.size = a.nnz
  size_rho : maps.rho.size = a.nrows
  quadratic : ∀ k i j, p.StoredAt k i j → ∃ slot, maps.p[k]? = some slot ∧
    matrix.StoredAt slot (min (number i) (number j)) (max (number i) (number j))
  constraint : ∀ k i j, a.StoredAt k i j → ∃ slot, maps.a[k]? = some slot ∧
    matrix.StoredAt slot (min (number j) (number (p.ncols + i)))
      (max (number j) (number (p.ncols + i)))
  lower : ∀ i < a.nrows, ∃ slot, maps.rho[i]? = some slot ∧
    matrix.StoredAt slot (number (p.ncols + i)) (number (p.ncols + i))
  apart : maps.Apart
  unnamed : ∀ slot, (slot < matrix.nnz ∧ slot ∉ maps.p ∧ slot ∉ maps.a ∧ slot ∉ maps.rho) ↔
    ∃ j < p.ncols, (∀ k, ¬ p.StoredAt k j j) ∧ matrix.StoredAt slot (number j) (number j)

variable [Scalar α] {p a : Csc α} {sigma : α} {lower : PerConstraint α} {new : Nat → Nat}
  {matrix : Csc α} {slots : Array Nat}

/-! ## The slots of an assembled matrix -/

section Slots

variable {e slot : Nat} {c : Cell α}

theorem Assembled.built (h : Assembled p a sigma lower new matrix slots) (hb : Blocks p a lower)
    (hl : Labels (p.ncols + a.nrows) new) :
    Built (movePlace new) (entryList p a sigma lower) matrix.cellList slots := by
  obtain ⟨cells, rfl, hbuilt⟩ := h
  rwa [cellList_ofTriangle (Assembled.inTriangle hbuilt hb hl) hbuilt.increasing]

/-- The slot of an entry of the blocks is where the entry is stored. -/
theorem Assembled.slot_iff (h : Assembled p a sigma lower new matrix slots)
    (hb : Blocks p a lower) (hl : Labels (p.ncols + a.nrows) new)
    (hc : (blockList p a lower)[e]? = some c) :
    slots[p.ncols + e]? = some slot ↔
      matrix.StoredAt slot (movePlace new c.place).2 (movePlace new c.place).1 := by
  have hbuilt := h.built hb hl
  have hentry := (getElem?_entryList p a sigma lower e).trans hc
  rw [(h.valid hb hl).toFramed.storedAt_iff]
  exact ⟨hbuilt.place_slot hentry, hbuilt.slot_eq hentry⟩

/-- Whatever is stored is an entry of the blocks or on the diagonal. -/
theorem Assembled.origin_of_lt (h : Assembled p a sigma lower new matrix slots)
    (hb : Blocks p a lower) (hl : Labels (p.ncols + a.nrows) new) (hslot : slot < matrix.nnz) :
    (∃ e, slots[p.ncols + e]? = some slot) ∨
      ∃ j < p.ncols, matrix.StoredAt slot (new j) (new j) := by
  have hframed := (h.valid hb hl).toFramed
  have hbuilt := h.built hb hl
  obtain ⟨cell, hcell⟩ := hframed.exists_cell hslot
  obtain ⟨c, hc, hplace⟩ := hbuilt.origin cell (List.mem_of_getElem? hcell)
  have hmoved : (matrix.cellList.map place)[slot]? = some (movePlace new c.place) := by
    rw [List.getElem?_map, hcell, hplace]
    rfl
  rw [entryList_eq, List.mem_append, List.mem_map] at hc
  rcases hc with ⟨j, hj, rfl⟩ | hc
  · refine Or.inr ⟨j, List.mem_range.mp hj, hframed.storedAt_iff.mpr (hmoved.trans ?_)⟩
    rw [place, movePlace_diagonal]
  · obtain ⟨e, he⟩ := List.mem_iff_getElem?.mp hc
    exact Or.inl ⟨e, hbuilt.slot_eq ((getElem?_entryList p a sigma lower e).trans he) hmoved⟩

/-- Only the diagonal can share its slot with an entry of the blocks, and only if the quadratic
form stores one there. -/
theorem Assembled.diagonal_shared_iff (h : Assembled p a sigma lower new matrix slots)
    (hb : Blocks p a lower) (hl : Labels (p.ncols + a.nrows) new) {j : Nat} (hj : j < p.ncols)
    (hslot : matrix.StoredAt slot (new j) (new j)) :
    (∃ e, slots[p.ncols + e]? = some slot) ↔ ∃ k, p.StoredAt k j j := by
  have hpf := hb.pValid.toFramed
  have hframed := (h.valid hb hl).toFramed
  constructor
  · rintro ⟨e, he⟩
    by_contra hnone
    have hlt : e < (blockList p a lower).length := by
      have := (Array.getElem?_eq_some_iff.mp he).1
      rw [h.size_slots hb] at this
      rw [length_blockList hpf hb.aValid.toFramed]
      omega
    have hstored := (h.slot_iff hb hl (List.getElem?_eq_getElem hlt)).mp he
    rw [hframed.storedAt_iff] at hslot hstored
    -- Two entries at one place of the triangle come from one place.
    have hplace : movePlace new (j, j) = movePlace new (blockList p a lower)[e].place := by
      rw [movePlace_diagonal]
      exact Option.some.inj (hslot.symm.trans hstored)
    have hmem := List.getElem_mem hlt
    have htri := inTriangle_entryList hb sigma (blockList p a lower)[e]
      (by rw [entryList_eq]; exact List.mem_append_right _ hmem)
    have heq := movePlace_inj hl ⟨Nat.le_refl j, Nat.lt_add_right _ hj⟩ htri hplace
    refine diagonal_notMem_blockList hj (fun x hx => hnone ?_)
      (List.mem_map.mpr ⟨_, hmem, heq.symm⟩)
    obtain ⟨k, hk⟩ := List.mem_iff_getElem?.mp hx
    exact ⟨k, hpf.storedAt_iff_cell.mpr ⟨x, hk⟩⟩
  · rintro ⟨k, hk⟩
    obtain ⟨x, hx⟩ := hpf.storedAt_iff_cell.mp hk
    have hentry : (blockList p a lower)[k]? = some ⟨j, j, x⟩ :=
      (getElem?_quadratic hpf hk.lt_nnz).trans hx
    refine ⟨k, (h.slot_iff hb hl hentry).mpr ?_⟩
    rw [place, movePlace_diagonal]
    exact hslot

omit [Scalar α] in
theorem mem_mapsOf (hsize : slots.size = p.ncols + (p.nnz + a.nnz + a.nrows)) :
    (slot ∈ (mapsOf p a slots).p ∨ slot ∈ (mapsOf p a slots).a ∨ slot ∈ (mapsOf p a slots).rho) ↔
      ∃ e, slots[p.ncols + e]? = some slot := by
  rw [Array.mem_def, Array.mem_def, Array.mem_def, ← or_assoc, ← List.mem_append,
    ← List.mem_append, toList_mapsOf, ← Array.mem_def, Array.mem_iff_getElem?]
  refine exists_congr fun e => ?_
  rw [Array.getElem?_extract]
  split
  · rfl
  · next hge =>
      rw [Array.getElem?_eq_none (by omega)]

theorem Assembled.unnamed_iff (h : Assembled p a sigma lower new matrix slots)
    (hb : Blocks p a lower) (hl : Labels (p.ncols + a.nrows) new) (slot : Nat) :
    (slot < matrix.nnz ∧ slot ∉ (mapsOf p a slots).p ∧ slot ∉ (mapsOf p a slots).a ∧
        slot ∉ (mapsOf p a slots).rho) ↔
      ∃ j < p.ncols, (∀ k, ¬ p.StoredAt k j j) ∧ matrix.StoredAt slot (new j) (new j) := by
  rw [← not_or, ← not_or, mem_mapsOf (h.size_slots hb)]
  constructor
  · rintro ⟨hlt, hnone⟩
    obtain ⟨j, hj, hstored⟩ := (h.origin_of_lt hb hl hlt).resolve_left hnone
    rw [h.diagonal_shared_iff hb hl hj hstored, not_exists] at hnone
    exact ⟨j, hj, hnone, hstored⟩
  · rintro ⟨j, hj, hnone, hstored⟩
    rw [h.diagonal_shared_iff hb hl hj hstored, not_exists]
    exact ⟨hstored.lt_nnz, hnone⟩

theorem Assembled.exists_slot (h : Assembled p a sigma lower new matrix slots)
    (hb : Blocks p a lower) (hl : Labels (p.ncols + a.nrows) new)
    (hc : (blockList p a lower)[e]? = some c) :
    ∃ slot, slots[p.ncols + e]? = some slot ∧
      matrix.StoredAt slot (movePlace new c.place).2 (movePlace new c.place).1 := by
  have hlt := (List.getElem?_eq_some_iff.mp hc).1
  rw [length_blockList hb.pValid.toFramed hb.aValid.toFramed] at hlt
  have hslot : p.ncols + e < slots.size := by
    rw [h.size_slots hb]
    omega
  have hget := Array.getElem?_eq_getElem hslot
  exact ⟨_, hget, (h.slot_iff hb hl hc).mp hget⟩

/-- What is cut out of the slots of an assembled matrix tells where the values are. -/
theorem Assembled.exact_mapsOf (h : Assembled p a sigma lower new matrix slots)
    (hb : Blocks p a lower) (hl : Labels (p.ncols + a.nrows) new) :
    (mapsOf p a slots).Exact p a new matrix := by
  have hpf := hb.pValid.toFramed
  have haf := hb.aValid.toFramed
  have hsize := h.size_slots hb
  have hvalid := h.valid hb hl
  obtain ⟨hsizeP, hsizeA, hsizeRho⟩ := h.size_mapsOf hb
  refine ⟨check_eq_ok.mpr hvalid, (checkUpper_eq_ok hvalid).mpr (h.upper hb hl), hsizeP, hsizeA,
    hsizeRho, fun k i j hk => ?_, fun k i j hk => ?_, fun i hi => ?_, h.apart hb hl,
    h.unnamed_iff hb hl⟩
  · have hlt := hk.lt_nnz
    obtain ⟨x, hx⟩ := hpf.storedAt_iff_cell.mp hk
    obtain ⟨slot, hslot, hstored⟩ := h.exists_slot hb hl ((getElem?_quadratic hpf hlt).trans hx)
    exact ⟨slot, (getElem?_extract_slots (by omega) hlt).trans hslot, hstored⟩
  · have hlt := hk.lt_nnz
    obtain ⟨x, hx⟩ := haf.storedAt_iff_cell.mp hk
    have hentry : (blockList p a lower)[p.nnz + k]? = some (shift p.ncols ⟨j, i, x⟩) := by
      rw [getElem?_constraints hpf haf hlt, hx]
      rfl
    obtain ⟨slot, hslot, hstored⟩ := h.exists_slot hb hl hentry
    rw [← Nat.add_assoc] at hslot
    exact ⟨slot, (getElem?_extract_slots (by omega) hlt).trans hslot, hstored⟩
  · have hentry : (blockList p a lower)[p.nnz + a.nnz + i]? =
        some ⟨p.ncols + i, p.ncols + i, -lower.value i⟩ := by
      rw [getElem?_past_constraints hpf haf, List.getElem?_map, List.getElem?_range hi]
      rfl
    obtain ⟨slot, hslot, hstored⟩ := h.exists_slot hb hl hentry
    rw [place, movePlace_diagonal] at hstored
    rw [← Nat.add_assoc, ← Nat.add_assoc] at hslot
    exact ⟨slot, (getElem?_extract_slots (by omega) hi).trans hslot, hstored⟩

end Slots

/-! ## Reordering -/

/-- The system holds the blocks in the order `new`, and its maps are those of the slots. -/
def Mapped (p a : Csc α) (sigma : α) (lower : PerConstraint α) (new : Nat → Nat) (s : System α) :
    Prop :=
  ∃ slots, s.maps = some (mapsOf p a slots) ∧ Assembled p a sigma lower new s.matrix slots

theorem mapped_of_assemble {system : System α}
    (h : (assemble p a sigma lower true).run = some (.ok system)) :
    Mapped p a sigma lower id system := by
  have hb := blocks_of_assemble h
  obtain ⟨cells, slots, hrun, hbuilt⟩ := assemble_spec hb sigma true
  obtain rfl := Except.ok.inj (Option.some.inj (h.symm.trans hrun))
  exact ⟨slots, rfl, assembled_of_built hb hbuilt⟩

theorem Mapped.reorder {s s' : System α} {method : Elimination.Method}
    {r : Elimination.Renumbering} (h : Mapped p a sigma lower new s) (hb : Blocks p a lower)
    (hl : Labels (p.ncols + a.nrows) new) (hrun : (s.reorder method).run = some (.ok (s', r))) :
    Mapped p a sigma lower (labelOf r.newOf ∘ new) s' ∧
      Labels (p.ncols + a.nrows) (labelOf r.newOf ∘ new) := by
  obtain ⟨slots, hmaps, hassembled⟩ := h
  obtain ⟨old, slots', hnew, hmaps', hassembled'⟩ :=
    hassembled.of_reorder true hb hl hmaps hrun
  exact ⟨⟨slots', hmaps', hassembled'⟩, (labels_of_renumbers hnew).comp hl⟩

theorem Mapped.reordered {s s' : System α} {rs : List Elimination.Renumbering}
    (h : Mapped p a sigma lower new s) (hb : Blocks p a lower)
    (hl : Labels (p.ncols + a.nrows) new) (hrun : Reordered s rs s') :
    Mapped p a sigma lower (numberAfter rs ∘ new) s' ∧
      Labels (p.ncols + a.nrows) (numberAfter rs ∘ new) := by
  -- Each reordering composes one more renumbering onto the order.
  induction hrun generalizing new with
  | refl s => exact ⟨h, hl⟩
  | step hstep rest ih =>
      obtain ⟨h', hl'⟩ := h.reorder hb hl hstep
      exact ih h' hl'

/-- However often an assembled system is reordered, its maps stay exact: each value of a block is
where its map says, at the numbers that its row and column have by then, and what no map names is
the diagonal of a variable for which `P` stores none. -/
theorem exact_maps_of_reordered {system system' : System α} {rs : List Elimination.Renumbering}
    (hassemble : (assemble p a sigma lower true).run = some (.ok system))
    (hrun : Reordered system rs system') :
    ∃ maps, system'.maps = some maps ∧ maps.Exact p a (numberAfter rs) system'.matrix := by
  have hb := blocks_of_assemble hassemble
  obtain ⟨⟨slots, hmaps, hassembled⟩, hl⟩ :=
    (mapped_of_assemble hassemble).reordered hb (Labels.id _) hrun
  exact ⟨_, hmaps, hassembled.exact_mapsOf hb hl⟩

/-- A form in three variables that stores one diagonal entry. -/
def beam : Csc ℚ := ⟨3, 3, #[0, 1, 2, 3], #[0, 0, 1], #[4, 1, 3]⟩

/-- Two constraints on them, one of whose entries is zero. -/
def struts : Csc ℚ := ⟨2, 3, #[0, 2, 2, 3], #[0, 1, 1], #[1, 6, 0]⟩

/-- What is assembled from them. -/
def braced : System ℚ :=
  ⟨⟨5, 5, #[0, 1, 3, 5, 7, 10], #[0, 0, 1, 1, 2, 0, 3, 0, 2, 4],
    #[5, 1, 1, 3, 1, 1, -2, 6, 0, -2]⟩, some ⟨#[0, 1, 3], #[5, 7, 8], #[6, 9]⟩⟩

/-- The system after a first reordering. -/
def turned : System ℚ :=
  ⟨⟨5, 5, #[0, 1, 2, 5, 8, 10], #[0, 1, 0, 1, 2, 0, 1, 3, 1, 4],
    #[1, 5, 0, 6, -2, 3, 1, 1, 1, -2]⟩, some ⟨#[1, 6, 5], #[8, 3, 2], #[9, 4]⟩⟩

/-- The system after a second one. -/
def returned : System ℚ :=
  ⟨⟨5, 5, #[0, 1, 3, 5, 7, 10], #[0, 0, 1, 0, 2, 0, 3, 2, 3, 4],
    #[5, 1, -2, 1, 1, 6, -2, 3, 0, 1]⟩, some ⟨#[0, 3, 7], #[1, 5, 8], #[2, 6]⟩⟩

/-- The second and the third variable are numbered 2 and 4 in the end, and no map names their
slots, which are 4 and 9. -/
theorem exact_maps_of_reordered_beam :
    Reordered braced [⟨#[2, 0, 4, 1, 3], #[1, 3, 0, 4, 2]⟩, ⟨#[1, 4, 3, 2, 0], #[4, 0, 3, 2, 1]⟩]
        returned ∧
      SlotMaps.Exact ⟨#[0, 3, 7], #[1, 5, 8], #[2, 6]⟩ beam struts
        (numberAfter [⟨#[2, 0, 4, 1, 3], #[1, 3, 0, 4, 2]⟩, ⟨#[1, 4, 3, 2, 0], #[4, 0, 3, 2, 1]⟩])
        returned.matrix := by
  have hassemble : (assemble beam struts 1 (.uniform 2) true).run = some (.ok braced) := by
    simp only [assemble, Triplets.build, Cell.sortNumbered_eq_insertionSort]
    decide +kernel
  have hfirst : (braced.reorder ⟨"fixed", fun _ => pure #[2, 0, 4, 1, 3]⟩).run =
      some (.ok (turned, ⟨#[2, 0, 4, 1, 3], #[1, 3, 0, 4, 2]⟩)) := by
    simp only [System.reorder, permuteSymmetric, moveEntries, sortColumn_eq_insertionSort]
    decide +kernel
  have hsecond : (turned.reorder ⟨"fixed", fun _ => pure #[1, 4, 3, 2, 0]⟩).run =
      some (.ok (returned, ⟨#[1, 4, 3, 2, 0], #[4, 0, 3, 2, 1]⟩)) := by
    simp only [System.reorder, permuteSymmetric, moveEntries, sortColumn_eq_insertionSort]
    decide +kernel
  have hrun := Reordered.step hfirst (.step hsecond (.refl _))
  obtain ⟨maps, hmaps, hexact⟩ := exact_maps_of_reordered hassemble hrun
  obtain rfl := Option.some.inj hmaps
  exact ⟨hrun, hexact⟩

end Saddle.Kkt
