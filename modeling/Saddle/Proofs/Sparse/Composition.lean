import Saddle.Proofs.Elimination.Order
import Saddle.Proofs.Sparse.Relabel

/-!
# One relabelling after another

Labels can be relabelled in turn. The matrix that comes out does not tell how many steps
it took: its cells are the moved cells of the first matrix, in the one order in which
they can be stored, and moving a place twice is moving it once by the composition. The
same holds of the positions, of which each is the only one to hold its cell. So the
bijections act on the matrices, and the maps of positions follow them: they compose as
the labels do, the identity moves nothing, and the inverse undoes the step.

No step looks at a value, and the type of the values is arbitrary.
-/

namespace Saddle

/-- The map from an index through one array and then through the other. -/
def through (first second : Array Nat) : Array Nat := first.map fun i => second.getD i 0

namespace Access

variable {p q : Array Nat} {n m : Nat} {f g : Nat → Nat}

theorem Tabulates.through (hp : Tabulates p n f) (hf : ∀ i < n, f i < m)
    (hq : Tabulates q m g) : Tabulates (through p q) n (g ∘ f) := by
  refine ⟨by rw [Saddle.through, Array.size_map, hp.size_eq], fun i hi => ?_⟩
  rw [Saddle.through, Array.getElem?_map, hp.get i hi, Option.map_some,
    Array.getD_eq_getD_getElem?, hq.get _ (hf i hi)]
  rfl

end Access

namespace Elimination

variable {p q : Array Nat}

theorem through_of_inverse? (h : inverse? p = some q) : through p q = Array.range p.size := by
  obtain ⟨old, new, hr⟩ := renumbers_of_inverse? h
  exact (hr.oldOf.through hr.old_lt hr.newOf).ext (.range _) hr.new_old

theorem size_of_inverse? (h : inverse? p = some q) : q.size = p.size := by
  obtain ⟨old, new, hr⟩ := renumbers_of_inverse? h
  exact hr.newOf.size_eq

theorem perm_of_inverse? (h : inverse? p = some q) : p.toList.Perm (List.range p.size) :=
  perm_of_namesEachOnce (exists_inverse?_iff.mp ⟨q, h⟩)

end Elimination

namespace Csc

open Cell

variable {α : Type}

theorem moveCell_moveCell (label' label : Nat → Nat) (c : Cell α) :
    moveCell label' (moveCell label c) = moveCell (label' ∘ label) c := by
  simp only [moveCell, ← movePlace_movePlace]
  rfl

theorem moveCell_id {c : Cell α} (h : c.row ≤ c.column) : moveCell id c = c := by
  rw [moveCell, movePlace_id (show c.place.2 ≤ c.place.1 from h)]
  rfl

/-! ## Moves of cells -/

section Moved

variable {label label' : Nat → Nat} {cells cells' cells'' : List (Cell α)}
  {moved moved' : Array Nat}

theorem Moved.nodup (h : Moved label cells cells' moved) : cells'.Nodup :=
  List.Nodup.of_map place (h.increasing.imp PlaceLt.ne)

/-- The labels leave no choice of where a cell goes. -/
theorem Moved.unique (h : Moved label cells cells' moved)
    (h' : Moved label cells cells'' moved') : cells' = cells'' ∧ moved = moved' := by
  have hcells : cells' = cells'' := by
    have hinc := h.increasing
    have hinc' := h'.increasing
    rw [List.pairwise_map] at hinc hinc'
    refine (h.perm.trans h'.perm.symm).eq_of_pairwise (fun c d _ _ hcd hdc => ?_) hinc hinc'
    exact absurd rfl (hcd.trans hdc).ne
  subst hcells
  refine ⟨rfl, Array.ext_getElem? fun p => ?_⟩
  have hsize : moved.size = cells.length := h.position.length_eq.symm
  have hsize' : moved'.size = cells.length := h'.position.length_eq.symm
  rcases Nat.lt_or_ge p cells.length with hp | hp
  · obtain ⟨q, hq, hcell⟩ := h.exists_position (List.getElem?_eq_getElem hp)
    obtain ⟨q', hq', hcell'⟩ := h'.exists_position (List.getElem?_eq_getElem hp)
    have hlt : q < cells'.length := (List.getElem?_eq_some_iff.mp hcell).1
    rw [hq, hq', (List.getElem?_inj hlt h.nodup).mp (hcell.trans hcell'.symm)]
  · rw [Array.getElem?_eq_none (by omega), Array.getElem?_eq_none (by omega)]

/-- Cells that have moved twice have moved once. -/
theorem Moved.comp (h : Moved label cells cells' moved)
    (h' : Moved label' cells' cells'' moved') :
    Moved (label' ∘ label) cells cells'' (through moved moved') where
  increasing := h'.increasing
  perm := by
    have hmap : (cells.map (moveCell label)).map (moveCell label') =
        cells.map (moveCell (label' ∘ label)) := by
      rw [List.map_map]
      exact List.map_congr_left fun c _ => moveCell_moveCell label' label c
    exact h'.perm.trans (hmap ▸ h.perm.map (moveCell label'))
  position := by
    rw [through, Array.toList_map, List.forall₂_map_right_iff]
    refine h.position.imp fun c q hq => ?_
    obtain ⟨q', hq', hcell⟩ := h'.exists_position hq
    rw [Array.getD_eq_getD_getElem?, hq', ← moveCell_moveCell]
    exact hcell

/-- In a triangle in order, cells that keep their labels stay where they are. -/
theorem moved_id {n : Nat} (h : InTriangle n cells) (hinc : (cells.map place).Pairwise PlaceLt) :
    Moved id cells cells (Array.range cells.length) where
  increasing := hinc
  perm := by
    have hmap : cells.map (moveCell id) = cells.map id :=
      List.map_congr_left fun c hc => moveCell_id (h c hc).1
    rw [hmap, List.map_id]
  position := by
    refine List.forall₂_of_length_eq_of_get (by simp) fun p hp hp' => ?_
    simp only [List.get_eq_getElem, Array.toList_range, List.getElem_range]
    rw [List.getElem?_eq_getElem hp, moveCell_id (h _ (List.getElem_mem hp)).1]

end Moved

/-! ## Matrices in order -/

section Triangle

variable [Zero α] {a : Csc α} {p q : Array Nat}

omit [Zero α] in
/-- A symmetric matrix in order is the one that its cells make. -/
theorem Valid.triangle (h : a.Valid) (hu : a.Upper) :
    InTriangle a.ncols a.cellList ∧ ofCells a.ncols a.ncols a.cellList = a := by
  refine ⟨fun c hc => ⟨row_le_of_mem_cellList hu hc, (lt_of_mem_cellList h hc).1⟩, ?_⟩
  conv_rhs => rw [← h.toFramed.ofCells_cellList, hu.square]

/-- Every relabelling of a matrix in order is a move of its cells, and every move is one. -/
theorem permuteSymmetric_of_moved {n : Nat} {labels : Array Nat} {label : Nat → Nat}
    {cells cells' : List (Cell α)} {moved : Array Nat} (ht : Access.Tabulates labels n label)
    (hl : Labels n label) (h : InTriangle n cells) (hinc : (cells.map place).Pairwise PlaceLt)
    (hm : Moved label cells cells' moved) :
    ((ofCells n n cells).permuteSymmetric labels).run = some (.ok (ofCells n n cells', moved)) := by
  obtain ⟨cells'', moved', hrun, hm'⟩ := permuteSymmetric_spec ht hl h hinc
  obtain ⟨rfl, rfl⟩ := hm.unique hm'
  exact hrun

theorem permuteSymmetric_range (h : a.Valid) (hu : a.Upper) :
    (a.permuteSymmetric (Array.range a.ncols)).run = some (.ok (a, Array.range a.nnz)) := by
  obtain ⟨htri, hself⟩ := h.triangle hu
  have hinc := h.pairwise_cellList
  have hrun := permuteSymmetric_of_moved (.range _) (.id a.ncols) htri hinc (moved_id htri hinc)
  rwa [hself, h.toFramed.length_cellList] at hrun

/-- Two relabellings in turn are one by the composition of their labels. -/
theorem permuteSymmetric_permuteSymmetric (h : a.Valid) (hu : a.Upper)
    (hp : p.toList.Perm (List.range a.ncols)) (hq : q.toList.Perm (List.range a.ncols)) :
    ∃ b c first second, (a.permuteSymmetric p).run = some (.ok (b, first)) ∧
      (b.Valid ∧ b.Upper ∧ b.ncols = a.ncols ∧ b.nnz = a.nnz) ∧
      (b.permuteSymmetric q).run = some (.ok (c, second)) ∧
      (a.permuteSymmetric (through p q)).run = some (.ok (c, through first second)) := by
  obtain ⟨htri, hself⟩ := h.triangle hu
  have hinc := h.pairwise_cellList
  obtain ⟨htab, hlp⟩ := labels_of_perm hp
  obtain ⟨htab', hlq⟩ := labels_of_perm hq
  obtain ⟨cells', first, hrun, hm⟩ := permuteSymmetric_spec htab hlp htri hinc
  have htri' := hm.inTriangle hlp htri
  obtain ⟨cells'', second, hrun', hm'⟩ := permuteSymmetric_spec htab' hlq htri' hm.increasing
  have hboth := permuteSymmetric_of_moved (htab.through hlp.lt htab') (hlq.comp hlp) htri hinc
    (hm.comp hm')
  have hvalid := valid_ofTriangle htri' hm.increasing
  have hnnz : (ofCells a.ncols a.ncols cells').nnz = a.nnz := by
    rw [← hvalid.toFramed.length_cellList, cellList_ofTriangle htri' hm.increasing,
      hm.perm.length_eq, List.length_map, h.toFramed.length_cellList]
  rw [hself] at hrun hboth
  exact ⟨_, _, first, second, hrun, ⟨hvalid, upper_ofCells htri' hm.increasing, rfl, hnnz⟩, hrun',
    hboth⟩

/-- Going there and back is no move, from either end. -/
theorem permuteSymmetric_inverse (h : a.Valid) (hu : a.Upper) (hsize : p.size = a.ncols)
    (hq : Elimination.inverse? p = some q) :
    ∃ b first second, (a.permuteSymmetric p).run = some (.ok (b, first)) ∧
      (b.permuteSymmetric q).run = some (.ok (a, second)) ∧
      through first second = Array.range a.nnz ∧ through second first = Array.range a.nnz := by
  have hp' := Elimination.inverse?_inverse? hq
  have hsize' : q.size = a.ncols := (Elimination.size_of_inverse? hq).trans hsize
  have hperm := Elimination.perm_of_inverse? hq
  have hperm' := Elimination.perm_of_inverse? hp'
  rw [hsize] at hperm
  rw [hsize'] at hperm'
  obtain ⟨b, c, first, second, hrun, ⟨hb, hbu, hncols, hnnz⟩, hback, hboth⟩ :=
    permuteSymmetric_permuteSymmetric h hu hperm hperm'
  rw [Elimination.through_of_inverse? hq, hsize, permuteSymmetric_range h hu, Option.some.injEq,
    Except.ok.injEq, Prod.mk.injEq] at hboth
  obtain ⟨rfl, hmaps⟩ := hboth
  -- From the other end, the way there is the way back.
  rw [← hncols] at hperm hperm'
  obtain ⟨d, b', second', first', hback', -, hrun', hboth'⟩ :=
    permuteSymmetric_permuteSymmetric hb hbu hperm' hperm
  rw [hback, Option.some.injEq, Except.ok.injEq, Prod.mk.injEq] at hback'
  obtain ⟨rfl, rfl⟩ := hback'
  rw [hrun, Option.some.injEq, Except.ok.injEq, Prod.mk.injEq] at hrun'
  obtain ⟨rfl, rfl⟩ := hrun'
  rw [Elimination.through_of_inverse? hp', hsize', ← hncols, permuteSymmetric_range hb hbu,
    Option.some.injEq, Except.ok.injEq, Prod.mk.injEq] at hboth'
  exact ⟨b, first, second, hrun, hback, hmaps.symm, hboth'.2.symm.trans (by rw [hnnz])⟩

/-- The bijections act on the symmetric matrices, and the maps of positions act with them. -/
theorem permuteSymmetric_action (ha : a.check.run = some (.ok ()))
    (hu : a.checkUpper.run = some (.ok ())) (hp : p.toList.Perm (List.range a.ncols))
    (hq : q.toList.Perm (List.range a.ncols)) :
    (a.permuteSymmetric (Array.range a.ncols)).run = some (.ok (a, Array.range a.nnz)) ∧
    (∃ b c first second, (a.permuteSymmetric p).run = some (.ok (b, first)) ∧
      (b.permuteSymmetric q).run = some (.ok (c, second)) ∧
      (a.permuteSymmetric (through p q)).run = some (.ok (c, through first second))) ∧
    ∃ back b first second, Elimination.inverse? p = some back ∧
      (a.permuteSymmetric p).run = some (.ok (b, first)) ∧
      (b.permuteSymmetric back).run = some (.ok (a, second)) ∧
      through first second = Array.range a.nnz ∧ through second first = Array.range a.nnz := by
  have hvalid := check_eq_ok.mp ha
  have hupper := (checkUpper_eq_ok hvalid).mp hu
  have hsize : p.size = a.ncols := by
    rw [← Array.length_toList, hp.length_eq, List.length_range]
  obtain ⟨b, c, first, second, hrun, -, hrun', hboth⟩ :=
    permuteSymmetric_permuteSymmetric hvalid hupper hp hq
  obtain ⟨back, hback⟩ := Elimination.inverse?_of_perm (hsize.symm ▸ hp)
  obtain ⟨b', first', second', hinverse⟩ := permuteSymmetric_inverse hvalid hupper hsize hback
  exact ⟨permuteSymmetric_range hvalid hupper, ⟨b, c, first, second, hrun, hrun', hboth⟩,
    back, b', first', second', hback, hinverse⟩

end Triangle

/-- A matrix whose rows arrive out of order under either of two relabellings. -/
def knot : Csc Nat :=
  ⟨4, 4, #[0, 1, 2, 5, 8], #[0, 0, 0, 1, 2, 1, 2, 3], #[4, 1, 5, 0, 6, 2, 3, 7]⟩

/-- The matrix after the first one. -/
def slippedKnot : Csc Nat :=
  ⟨4, 4, #[0, 0, 2, 4, 8], #[0, 1, 0, 2, 0, 1, 2, 3], #[2, 7, 1, 4, 0, 3, 5, 6]⟩

/-- The matrix after both. -/
def tightKnot : Csc Nat :=
  ⟨4, 4, #[0, 1, 3, 5, 8], #[0, 0, 1, 1, 2, 0, 1, 2], #[4, 5, 6, 3, 7, 1, 0, 2]⟩

theorem permuteSymmetric_action_knot :
    (knot.permuteSymmetric #[0, 1, 2, 3]).run =
        some (.ok (knot, #[0, 1, 2, 3, 4, 5, 6, 7])) ∧
      (knot.permuteSymmetric #[0, 3, 1, 2]).run =
        some (.ok (tightKnot, #[0, 5, 1, 6, 2, 7, 3, 4])) ∧
      ∃ second, (slippedKnot.permuteSymmetric #[1, 3, 0, 2]).run = some (.ok (knot, second)) ∧
        through #[3, 2, 6, 4, 7, 0, 5, 1] second = #[0, 1, 2, 3, 4, 5, 6, 7] := by
  have hfirst : (knot.permuteSymmetric #[2, 0, 3, 1]).run =
      some (.ok (slippedKnot, #[3, 2, 6, 4, 7, 0, 5, 1])) := by
    simp only [permuteSymmetric, moveEntries, sortColumn_eq_insertionSort]
    decide +kernel
  have hsecond : (slippedKnot.permuteSymmetric #[3, 2, 0, 1]).run =
      some (.ok (tightKnot, #[7, 4, 5, 0, 6, 3, 1, 2])) := by
    simp only [permuteSymmetric, moveEntries, sortColumn_eq_insertionSort]
    decide +kernel
  have hlabels : through #[2, 0, 3, 1] #[3, 2, 0, 1] = #[0, 3, 1, 2] := by simp [through]
  have hmaps : through #[3, 2, 6, 4, 7, 0, 5, 1] #[7, 4, 5, 0, 6, 3, 1, 2] =
      #[0, 5, 1, 6, 2, 7, 3, 4] := by simp [through]
  have hp : (#[2, 0, 3, 1] : Array Nat).toList.Perm (List.range knot.ncols) := by decide
  have hq : (#[3, 2, 0, 1] : Array Nat).toList.Perm (List.range knot.ncols) := by decide
  obtain ⟨hid, ⟨b, c, first, second, hrun, hrun', hboth⟩, back, b', first', undone, hback, hthere,
    hundo, hundone, -⟩ := permuteSymmetric_action (a := knot) (by decide) (by decide) hp hq
  rw [hfirst, Option.some.injEq, Except.ok.injEq, Prod.mk.injEq] at hrun hthere
  obtain ⟨rfl, rfl⟩ := hrun
  obtain ⟨rfl, rfl⟩ := hthere
  rw [hsecond, Option.some.injEq, Except.ok.injEq, Prod.mk.injEq] at hrun'
  obtain ⟨rfl, rfl⟩ := hrun'
  rw [hlabels, hmaps] at hboth
  obtain rfl : #[1, 3, 0, 2] = back := Option.some.inj (Eq.trans (by decide) hback)
  exact ⟨hid, hboth, undone, hundo, hundone⟩

end Csc

end Saddle
