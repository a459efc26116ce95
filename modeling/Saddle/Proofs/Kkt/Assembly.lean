import Saddle.Proofs.Elimination.Order
import Saddle.Proofs.Sparse.Scatter
import Saddle.Kkt.Assembly

/-!
# What is assembled

The entries of the saddle point matrix come in four groups: a diagonal of `sigma`,
the cells of `P`, those of `A` moved to the right of it, and the lower diagonal.
Only the first two ever share a place, and then the sum in that slot starts with
`sigma`. Assembling and reordering are one more instance of `Built`, with the
places moved by the renumbering, and the maps are the slots of the last three
groups.

Whatever is said of the result is said of the list of entries, which is a function
of the blocks: two systems assembled from the same blocks in the same order are
equal, and what does not look at values is equal already if the patterns are.
-/

namespace Saddle

namespace PerConstraint

variable {α : Type}

/-- There is a number for each of `m` constraints, and no other. -/
def Fits (x : PerConstraint α) (m : Nat) : Prop :=
  match x with
  | .uniform _ => True
  | .each values => values.size = m

instance (x : PerConstraint α) (m : Nat) : Decidable (x.Fits m) :=
  match x with
  | .uniform _ => inferInstanceAs (Decidable True)
  | .each values => inferInstanceAs (Decidable (values.size = m))

/-- The number for constraint `j`. -/
def value [Zero α] (x : PerConstraint α) (j : Nat) : α := (x.get? j).getD 0

theorem Fits.get?_eq [Zero α] {x : PerConstraint α} {m j : Nat} (h : x.Fits m) (hj : j < m) :
    x.get? j = some (x.value j) := by
  cases x with
  | uniform value => rfl
  | each values =>
      have hlt : j < values.size := by rw [show values.size = m from h]; exact hj
      simp [value, get?, hlt]

end PerConstraint

namespace Kkt

open Cell Csc Triplets

variable {α : Type}

/-- The blocks are matrices that fit together, `P` being an upper triangle. -/
structure Blocks (p a : Csc α) (lower : PerConstraint α) : Prop where
  pValid : p.Valid
  pUpper : p.Upper
  aValid : a.Valid
  columns : a.ncols = p.ncols
  lower : lower.Fits a.nrows

theorem checkLength_eq_ok {lower : PerConstraint α} {m : Nat} :
    checkLength lower m = .ok () ↔ lower.Fits m := by
  cases lower with
  | uniform value => simp [checkLength, PerConstraint.Fits]
  | each values =>
      rw [checkLength, PerConstraint.Fits]
      by_cases h : values.size = m <;> simp [h]

theorem checkBlocks_eq_ok {p a : Csc α} {lower : PerConstraint α} :
    (checkBlocks p a lower).run = some (.ok ()) ↔ Blocks p a lower := by
  rw [checkBlocks, Checked.run_bind_eq_ok]
  simp only [Checked.run_adapt_eq_ok, Checked.run_bind_eq_ok, Checked.run_guard_eq_ok,
    Checked.run_except, Option.some.injEq, checkLength_eq_ok, not_not]
  constructor
  · rintro ⟨_, hp, _, ha, _, hu, hcolumns, hlower⟩
    have hp := check_eq_ok.mp hp
    exact ⟨hp, (checkUpper_eq_ok hp).mp hu, check_eq_ok.mp ha, hcolumns, hlower⟩
  · intro h
    exact ⟨(), check_eq_ok.mpr h.pValid, (), check_eq_ok.mpr h.aValid, (),
      (checkUpper_eq_ok h.pValid).mpr h.pUpper, h.columns, h.lower⟩

/-! ## The entries -/

variable [Scalar α]

/-- The entries of the upper triangle. -/
def entryList (p a : Csc α) (sigma : α) (lower : PerConstraint α) : List (Cell α) :=
  (List.range p.ncols).map (fun j => ⟨j, j, sigma⟩) ++ p.cellList ++
    a.cellList.map (shift p.ncols) ++
      (List.range a.nrows).map fun i => ⟨p.ncols + i, p.ncols + i, -lower.value i⟩

section Entries

variable {p a : Csc α} {sigma : α} {lower : PerConstraint α}

theorem mem_entryList {c : Cell α} :
    c ∈ entryList p a sigma lower ↔
      (∃ j < p.ncols, c = ⟨j, j, sigma⟩) ∨ c ∈ p.cellList ∨
        (∃ d ∈ a.cellList, c = shift p.ncols d) ∨
          ∃ i < a.nrows, c = ⟨p.ncols + i, p.ncols + i, -lower.value i⟩ := by
  simp only [entryList, List.mem_append, List.mem_map, List.mem_range, or_assoc, eq_comm]

theorem inTriangle_entryList (hb : Blocks p a lower) (sigma : α) :
    InTriangle (p.ncols + a.nrows) (entryList p a sigma lower) := by
  intro c hc
  rcases mem_entryList.mp hc with ⟨j, hj, rfl⟩ | hc | ⟨d, hd, rfl⟩ | ⟨i, hi, rfl⟩
  · exact ⟨Nat.le_refl _, Nat.lt_add_right _ hj⟩
  · have := lt_of_mem_cellList hb.pValid hc
    exact ⟨row_le_of_mem_cellList hb.pUpper hc, by omega⟩
  · have := lt_of_mem_cellList hb.aValid hd
    have := hb.columns
    simp only [shift]
    omega
  · simp only
    omega

theorem length_entryList (hb : Blocks p a lower) (sigma : α) :
    (entryList p a sigma lower).length = p.ncols + p.nnz + a.nnz + a.nrows := by
  simp only [entryList, List.length_append, List.length_map, List.length_range,
    hb.pValid.toFramed.length_cellList, hb.aValid.toFramed.length_cellList]

/-- Blocks that fit together have no entry outside the matrix, so that no push is refused. -/
theorem collect_eq (hb : Blocks p a lower) (sigma : α) :
    (collect p a sigma lower).run = some (.ok
      { entries := ⟨p.ncols + a.nrows, p.ncols + a.nrows, (entryList p a sigma lower).toArray⟩
        pStart := p.ncols
        aStart := p.ncols + p.nnz
        rhoStart := p.ncols + p.nnz + a.nnz }) := by
  have hin : ∀ c ∈ entryList p a sigma lower,
      c.column < p.ncols + a.nrows ∧ c.row < p.ncols + a.nrows := fun c hc =>
    have htri := inTriangle_entryList hb sigma c hc
    ⟨htri.2, Nat.lt_of_le_of_lt htri.1 htri.2⟩
  have hlower : lowerDiagonal? p.ncols a.nrows lower =
      some ((List.range a.nrows).map fun i => ⟨p.ncols + i, p.ncols + i, -lower.value i⟩) := by
    rw [lowerDiagonal?, mapM_eq_some, List.map_map]
    refine List.map_congr_left fun i hi => ?_
    rw [hb.lower.get?_eq (List.mem_range.mp hi)]
    rfl
  rw [entryList] at hin ⊢
  simp only [List.forall_mem_append] at hin
  obtain ⟨⟨⟨hdiagonal, hquadratic⟩, hconstraints⟩, hlast⟩ := hin
  rw [collect, hb.pValid.toFramed.cells?_eq, hb.aValid.toFramed.cells?_eq, hlower]
  rw [pushAll_of_inside hdiagonal, Checked.run_ok_bind, Checked.run_some_bind,
    pushAll_of_inside hquadratic, Checked.run_ok_bind, Checked.run_some_bind,
    pushAll_of_inside hconstraints, Checked.run_ok_bind, Checked.run_some_bind,
    pushAll_of_inside hlast, Checked.run_ok_bind, Checked.run_pure]
  simp [Triplets.empty, size, hb.pValid.toFramed.length_cellList,
    hb.aValid.toFramed.length_cellList, Nat.add_assoc]

end Entries

/-! ## Assembling and reordering -/

theorem labels_of_renumbers {n : Nat} {r : Elimination.Renumbering} {old new : Nat → Nat}
    (h : Elimination.Renumbers n r old new) : Labels n new := by
  refine ⟨h.new_lt, fun i hi j hj hij => ?_⟩
  rw [← h.old_new i hi, hij, h.old_new j hj]

/-- The new numbers are the labels of a relabelling. -/
theorem renumbers_labelOf {n : Nat} {r : Elimination.Renumbering} {old new : Nat → Nat}
    (h : Elimination.Renumbers n r old new) : Elimination.Renumbers n r old (labelOf r.newOf) := by
  have hread : ∀ i < n, new i = labelOf r.newOf i := by
    intro i hi
    rw [labelOf, Array.getD_eq_getD_getElem?, h.newOf.get i hi]
    rfl
  refine ⟨h.oldOf, h.newOf.congr hread, h.old_lt, fun i hi => ?_, fun k hk => ?_, fun i hi => ?_⟩
  · rw [← hread i hi]
    exact h.new_lt i hi
  · rw [← hread _ (h.old_lt k hk)]
    exact h.new_old k hk
  · rw [← hread i hi]
    exact h.old_new i hi

/-- The matrix holds the blocks in the order in which `new` numbers their rows,
and the slots are those of the entries. -/
def Assembled (p a : Csc α) (sigma : α) (lower : PerConstraint α) (new : Nat → Nat)
    (matrix : Csc α) (slots : Array Nat) : Prop :=
  ∃ cells, matrix = ofCells (p.ncols + a.nrows) (p.ncols + a.nrows) cells ∧
    Built (movePlace new) (entryList p a sigma lower) cells slots

section Places

variable {p a : Csc α} {sigma : α} {lower : PerConstraint α} {new : Nat → Nat}
  {cells : List (Cell α)} {slots : Array Nat}

theorem Assembled.inTriangle
    (hbuilt : Built (movePlace new) (entryList p a sigma lower) cells slots)
    (hb : Blocks p a lower) (hl : Labels (p.ncols + a.nrows) new) :
    InTriangle (p.ncols + a.nrows) cells := by
  intro d hd
  obtain ⟨c, hc, hcd⟩ := hbuilt.origin d hd
  have htri := inTriangle_entryList hb sigma c hc
  have hrow := hl.lt c.row (by omega)
  have hcolumn := hl.lt c.column htri.2
  have h1 := congrArg Prod.fst hcd
  have h2 := congrArg Prod.snd hcd
  simp only [movePlace, place] at h1 h2
  omega

/-- What has just been assembled is in the order of its numbers. -/
theorem assembled_of_built (hb : Blocks p a lower)
    (hbuilt : Built id (entryList p a sigma lower) cells slots) :
    Assembled p a sigma lower id (ofCells (p.ncols + a.nrows) (p.ncols + a.nrows) cells) slots :=
  ⟨cells, rfl, hbuilt.of_move_eq fun c hc =>
    (movePlace_id (inTriangle_entryList hb sigma c hc).1).symm⟩

end Places

/-- The maps of a matrix assembled from `P` and `A`, with the slots of its entries. -/
def mapsOf (p a : Csc α) (slots : Array Nat) : SlotMaps where
  p := slots.extract p.ncols (p.ncols + p.nnz)
  a := slots.extract (p.ncols + p.nnz) (p.ncols + p.nnz + a.nnz)
  rho := slots.extract (p.ncols + p.nnz + a.nnz) (p.ncols + p.nnz + a.nnz + a.nrows)

/-- The maps, if they are kept. -/
def keptMaps (track : Bool) (p a : Csc α) (slots : Array Nat) : Option SlotMaps :=
  if track then some (mapsOf p a slots) else none

section System

variable {p a : Csc α} {sigma : α} {lower : PerConstraint α} {track : Bool}

omit [Scalar α] in
/-- The ranges of slots that are read are there. -/
theorem keptMaps?_eq {slots : Array Nat} (hsize : slots.size = p.ncols + p.nnz + a.nnz + a.nrows)
    (entries : Triplets α) :
    Collection.keptMaps? ⟨entries, p.ncols, p.ncols + p.nnz, p.ncols + p.nnz + a.nnz⟩ track p a
      slots = some (keptMaps track p a slots) := by
  cases track with
  | false => rfl
  | true =>
      rw [Collection.keptMaps?, if_pos rfl, Collection.maps?,
        Access.slice_of_le (by simp) (by simp only; omega),
        Access.slice_of_le (by simp) (by simp only; omega),
        Access.slice_of_le (by simp) (by simp only; omega)]
      rfl

theorem assemble_spec (hb : Blocks p a lower) (sigma : α) (track : Bool) :
    ∃ cells slots, (assemble p a sigma lower track).run =
        some (.ok ⟨ofCells (p.ncols + a.nrows) (p.ncols + a.nrows) cells,
          keptMaps track p a slots⟩) ∧
      Built id (entryList p a sigma lower) cells slots := by
  obtain ⟨cells, slots, hbuild, hbuilt⟩ := built_build
    (t := ⟨p.ncols + a.nrows, p.ncols + a.nrows, (entryList p a sigma lower).toArray⟩)
    fun c hc => (inTriangle_entryList hb sigma c hc).2
  have hsize : slots.size = p.ncols + p.nnz + a.nnz + a.nrows :=
    hbuilt.size_slots.trans (length_entryList hb sigma)
  refine ⟨cells, slots, ?_, hbuilt⟩
  rw [assemble, Checked.run_bind_ok (checkBlocks_eq_ok.mpr hb),
    Checked.run_bind_ok (Checked.run_adapt_eq_ok.mpr (collect_eq hb sigma)), hbuild,
    Checked.run_some_bind]
  simp only
  rw [keptMaps?_eq hsize]
  rfl

theorem blocks_of_assemble {system : System α}
    (h : (assemble p a sigma lower track).run = some (.ok system)) : Blocks p a lower := by
  rw [assemble, Checked.run_bind_eq_ok] at h
  obtain ⟨_, h, -⟩ := h
  exact checkBlocks_eq_ok.mp h

omit [Scalar α] in
theorem follow_mapsOf {slots slots' moved : Array Nat}
    (h : slots.toList.map (moved[·]?) = slots'.toList.map some) :
    (mapsOf p a slots).follow moved = some (mapsOf p a slots') := by
  have hextract : ∀ start stop : Nat, (slots.extract start stop).toList.mapM (moved[·]?) =
      some (slots'.extract start stop).toList := by
    intro start stop
    rw [mapM_eq_some, Array.toList_extract, Array.toList_extract, List.extract_eq_take_drop,
      List.extract_eq_take_drop, List.map_take, List.map_drop, h, List.map_take, List.map_drop]
  rw [SlotMaps.follow, mapsOf]
  simp only [hextract, Option.bind_eq_bind, Option.bind_some]
  rfl

omit [Scalar α] in
theorem renumbering_of_reorder [Zero α] {method : Elimination.Method} {s s' : System α}
    {r : Elimination.Renumbering} (h : (s.reorder method).run = some (.ok (s', r))) :
    (Elimination.renumbering method s.matrix).run = some (.ok r) := by
  rw [System.reorder, Checked.run_bind_eq_ok] at h
  obtain ⟨r', hr, h⟩ := h
  rw [Checked.run_bind_eq_ok] at h
  obtain ⟨⟨matrix, moved⟩, -, h⟩ := h
  rw [Checked.run_bind_eq_ok] at h
  obtain ⟨maps, -, h⟩ := h
  rw [Checked.run_pure, Option.some.injEq, Except.ok.injEq, Prod.mk.injEq] at h
  exact h.2 ▸ Checked.run_adapt_eq_ok.mp hr

theorem Assembled.ncols_eq {new : Nat → Nat} {matrix : Csc α} {slots : Array Nat}
    (h : Assembled p a sigma lower new matrix slots) : matrix.ncols = p.ncols + a.nrows := by
  obtain ⟨cells, rfl, -⟩ := h
  rfl

/-- A system in any order is reordered, and its slots follow. -/
theorem Assembled.reorder (track : Bool) {method : Elimination.Method} {new new' old : Nat → Nat}
    {matrix : Csc α} {slots : Array Nat} {r : Elimination.Renumbering}
    (h : Assembled p a sigma lower new matrix slots) (hb : Blocks p a lower)
    (hl : Labels (p.ncols + a.nrows) new)
    (hr : (Elimination.renumbering method matrix).run = some (.ok r))
    (hnew : Elimination.Renumbers (p.ncols + a.nrows) r old new') :
    ∃ matrix' slots',
      (System.reorder ⟨matrix, keptMaps track p a slots⟩ method).run =
        some (.ok (⟨matrix', keptMaps track p a slots'⟩, r)) ∧
      Assembled p a sigma lower (new' ∘ new) matrix' slots' := by
  obtain ⟨cells, rfl, hbuilt⟩ := h
  have htri := Assembled.inTriangle hbuilt hb hl
  have hlabels := labels_of_renumbers hnew
  obtain ⟨cells', moved, hrun, hmoved⟩ := permuteSymmetric_spec hnew.newOf hlabels htri
    hbuilt.increasing
  obtain ⟨slots', hfollow, hbuilt'⟩ := built_move hbuilt htri hlabels hmoved
  refine ⟨_, slots', ?_, cells', rfl,
    hbuilt'.of_move_eq fun c _ => movePlace_movePlace new' new c.place⟩
  have hmaps : followAll (keptMaps track p a slots) moved =
      some (keptMaps track p a slots') := by
    cases track with
    | false => rfl
    | true => simp [keptMaps, followAll, follow_mapsOf hfollow]
  rw [System.reorder, Checked.run_bind_ok (Checked.run_adapt_eq_ok.mpr hr),
    Checked.run_bind_ok (Checked.run_adapt_eq_ok.mpr hrun)]
  simp only [hmaps, Checked.run_some_bind]
  rfl

/-- A reordering that has succeeded composes its labels onto the order. -/
theorem Assembled.of_reorder (track : Bool) {method : Elimination.Method} {new : Nat → Nat}
    {s s' : System α} {slots : Array Nat} {r : Elimination.Renumbering}
    (h : Assembled p a sigma lower new s.matrix slots) (hb : Blocks p a lower)
    (hl : Labels (p.ncols + a.nrows) new) (hmaps : s.maps = keptMaps track p a slots)
    (hrun : (s.reorder method).run = some (.ok (s', r))) :
    ∃ old slots', Elimination.Renumbers (p.ncols + a.nrows) r old (labelOf r.newOf) ∧
      s'.maps = keptMaps track p a slots' ∧
      Assembled p a sigma lower (labelOf r.newOf ∘ new) s'.matrix slots' := by
  have hr := renumbering_of_reorder hrun
  obtain ⟨old, new', hnew⟩ := Elimination.renumbering_eq_ok hr
  rw [h.ncols_eq] at hnew
  have hnew := renumbers_labelOf hnew
  obtain ⟨matrix', slots', hreorder, hassembled⟩ := h.reorder track hb hl hr hnew
  rw [← hmaps] at hreorder
  have heq := Except.ok.inj (Option.some.inj (hrun.symm.trans hreorder))
  obtain ⟨rfl, -⟩ := Prod.mk.inj heq
  exact ⟨old, slots', hnew, rfl, hassembled⟩

theorem reorder_spec {method : Elimination.Method} {cells : List (Cell α)} {slots : Array Nat}
    (hb : Blocks p a lower) (hbuilt : Built id (entryList p a sigma lower) cells slots)
    {r : Elimination.Renumbering} {old new : Nat → Nat}
    (hr : (Elimination.renumbering method
      (ofCells (p.ncols + a.nrows) (p.ncols + a.nrows) cells)).run = some (.ok r))
    (hnew : Elimination.Renumbers (p.ncols + a.nrows) r old new) :
    ∃ matrix slots',
      (System.reorder ⟨ofCells (p.ncols + a.nrows) (p.ncols + a.nrows) cells,
          keptMaps track p a slots⟩ method).run =
        some (.ok (⟨matrix, keptMaps track p a slots'⟩, r)) ∧
      Assembled p a sigma lower new matrix slots' :=
  (assembled_of_built hb hbuilt).reorder track hb (Labels.id _) hr hnew

end System

/-! ## What every assembled matrix is -/

section Assembled

variable {p a : Csc α} {sigma : α} {lower : PerConstraint α} {new : Nat → Nat} {matrix : Csc α}
  {slots : Array Nat}

theorem Assembled.valid (h : Assembled p a sigma lower new matrix slots) (hb : Blocks p a lower)
    (hl : Labels (p.ncols + a.nrows) new) : matrix.Valid := by
  obtain ⟨cells, rfl, hbuilt⟩ := h
  exact valid_ofTriangle (Assembled.inTriangle hbuilt hb hl) hbuilt.increasing

theorem Assembled.upper (h : Assembled p a sigma lower new matrix slots) (hb : Blocks p a lower)
    (hl : Labels (p.ncols + a.nrows) new) : matrix.Upper := by
  obtain ⟨cells, rfl, hbuilt⟩ := h
  exact upper_ofCells (Assembled.inTriangle hbuilt hb hl) hbuilt.increasing

theorem exists_diagonal_entry (p a : Csc α) (sigma : α) (lower : PerConstraint α) {i : Nat}
    (hi : i < p.ncols + a.nrows) : ∃ c ∈ entryList p a sigma lower, c.place = (i, i) := by
  rcases Nat.lt_or_ge i p.ncols with hin | hin
  · exact ⟨⟨i, i, sigma⟩, mem_entryList.mpr (Or.inl ⟨i, hin, rfl⟩), rfl⟩
  · obtain ⟨j, rfl⟩ := Nat.exists_eq_add_of_le hin
    exact ⟨_, mem_entryList.mpr (Or.inr (Or.inr (Or.inr ⟨j, by omega, rfl⟩))), rfl⟩

/-- No column is empty, as every one stores its diagonal. -/
theorem Assembled.col_ne_nil (h : Assembled p a sigma lower new matrix slots)
    {r : Elimination.Renumbering} {old : Nat → Nat}
    (hnew : Elimination.Renumbers (p.ncols + a.nrows) r old new) {k : Nat}
    (hk : k < p.ncols + a.nrows) : matrix.col k ≠ [] := by
  obtain ⟨cells, rfl, hbuilt⟩ := h
  have hinc := hbuilt.increasing
  rw [List.pairwise_map] at hinc
  obtain ⟨c, hc, hcp⟩ := exists_diagonal_entry p a sigma lower (hnew.old_lt k hk)
  obtain ⟨d, hd, hdp⟩ := hbuilt.place_mem hc
  rw [hcp, movePlace, hnew.new_old k hk, max_self, min_self] at hdp
  have hcolumn : d.column = k := congrArg Prod.fst hdp
  rw [col_ofCells (hinc.imp fun h => h.column_le) hk]
  intro hnil
  rw [List.map_eq_nil_iff, List.filter_eq_nil_iff] at hnil
  exact hnil d hd (by simpa using hcolumn)

end Assembled

end Kkt

end Saddle
