import Saddle.Proofs.Elimination.Choice
import Saddle.Proofs.Kkt.Layout

/-!
# Assembling, reordering and updating stay in bounds

What holds of a system that has been assembled and reordered is known in full, so
that both are in bounds comes down to the checks in front of them. Updates are
different: they are handed matrices of any pattern, compare nothing but the number of
values with the length of the map, and write where the map tells them. What keeps
them in bounds is that every slot of a map is one of the matrix, which no update
changes, as it replaces values only. The values that it writes need not make sense.
-/

namespace Saddle

namespace Csc

variable {α β : Type}

theorem setValues_total {step : Csc α → β → Option (Csc α)} {l : List β} {a : Csc α}
    (h : ∀ x ∈ l, ∃ q < a.vals.size, ∃ v, ∀ b : Csc α, step b x = b.setValue q v) :
    ∃ b, l.foldlM step a = some b ∧ SamePattern b a := by
  refine foldlM_total (fun _ b => SamePattern b a) (.refl a) ?_
  rintro done x rest rfl b hb
  obtain ⟨q, hq, v, hstep⟩ := h x (by simp)
  refine ⟨_, (hstep b).trans (setValue_of_lt (hb.size_vals ▸ hq) v), ?_⟩
  have hset : SamePattern { b with vals := b.vals.setIfInBounds q v } b :=
    ⟨rfl, rfl, rfl, rfl, Array.size_setIfInBounds⟩
  exact hset.trans hb

end Csc

namespace Kkt

open Checked Csc

variable {α : Type}

/-! ## Updates -/

/-- Every slot of the maps is one of a matrix with that many values. -/
structure SlotMaps.Inside (maps : SlotMaps) (size : Nat) : Prop where
  p : ∀ q ∈ maps.p.toList, q < size
  a : ∀ q ∈ maps.a.toList, q < size
  rho : ∀ q ∈ maps.rho.toList, q < size

section Update

variable {matrix p a : Csc α} {changed : Option (List Nat)} {map : Array Nat} {sigma : α}
  {lower : PerConstraint α}

theorem exists_slot {nnz i : Nat} (hmap : ∀ q ∈ map.toList, q < matrix.vals.size)
    (hsize : map.size = nnz) (hi : i < nnz) : ∃ q < matrix.vals.size, map[i]? = some q := by
  rw [← hsize] at hi
  exact ⟨map[i], hmap _ (Array.getElem_mem_toList hi), Array.getElem?_eq_getElem hi⟩

theorem inBounds_updateP [Add α] (hmap : ∀ q ∈ map.toList, q < matrix.vals.size)
    (hp : p.Framed) :
    (updateP matrix p changed map sigma).InBounds fun b => SamePattern b matrix := by
  refine inBounds_check_write fun hcheck => setValues_total fun i hi => ?_
  obtain ⟨hsize, hchanged⟩ := checkUpdate_eq_ok.mp hcheck
  have hlt := lt_of_mem_replaced hchanged hi
  obtain ⟨q, hq, hslot⟩ := exists_slot hmap hsize hlt
  obtain ⟨c, hc⟩ := hp.exists_cell hlt
  obtain ⟨hcolumn, hentry⟩ := hp.read_cell hc
  refine ⟨q, hq, if c.row = c.column then c.value + sigma else c.value, fun b => ?_⟩
  rw [writeP, hcolumn, hentry, hslot]
  rfl

theorem inBounds_updateA (hmap : ∀ q ∈ map.toList, q < matrix.vals.size) (ha : a.Framed) :
    (updateA matrix a changed map).InBounds fun b => SamePattern b matrix := by
  refine inBounds_check_write fun hcheck => setValues_total fun i hi => ?_
  obtain ⟨hsize, hchanged⟩ := checkUpdate_eq_ok.mp hcheck
  have hlt := lt_of_mem_replaced hchanged hi
  obtain ⟨q, hq, hslot⟩ := exists_slot hmap hsize hlt
  obtain ⟨c, hc⟩ := ha.exists_cell hlt
  refine ⟨q, hq, c.value, fun b => ?_⟩
  rw [writeA, hslot, ha.value_cell hc]
  rfl

theorem inBounds_updateRho [Scalar α] (hmap : ∀ q ∈ map.toList, q < matrix.vals.size) :
    (updateRho matrix lower map).InBounds fun b => SamePattern b matrix := by
  refine inBounds_check_write fun hcheck => setValues_total fun x hx => ?_
  obtain ⟨q, j⟩ := x
  have hget : map[j]? = some q := by
    rwa [List.mk_mem_zipIdx_iff_getElem?, Array.getElem?_toList] at hx
  obtain ⟨hj, -⟩ := Array.getElem?_eq_some_iff.mp hget
  refine ⟨q, hmap q (List.fst_mem_of_mem_zipIdx hx), -lower.value j, fun b => ?_⟩
  rw [writeRho, (checkLength_eq_ok.mp hcheck).get?_eq hj]
  rfl

end Update

/-! ## The system -/

variable [Scalar α] {p a : Csc α} {sigma : α} {lower : PerConstraint α}

/-- The slots of the entries are places of the matrix that holds them. -/
theorem Assembled.inside {new : Nat → Nat} {matrix : Csc α} {slots : Array Nat}
    (h : Assembled p a sigma lower new matrix slots) :
    (mapsOf p a slots).Inside matrix.vals.size := by
  have hslot : ∀ q ∈ slots.toList, q < matrix.vals.size := by
    obtain ⟨cells, rfl, hbuilt⟩ := h
    intro q hq
    obtain ⟨e, he, rfl⟩ := List.mem_iff_getElem.mp hq
    have hplace := hbuilt.slots.get (hbuilt.slots.length_eq ▸ he) he
    obtain ⟨hlt, -⟩ := List.getElem?_eq_some_iff.mp hplace
    simpa [ofCells] using hlt
  have hextract : ∀ start stop : Nat, ∀ q ∈ (slots.extract start stop).toList,
      q < matrix.vals.size := by
    intro start stop q hq
    rw [Array.toList_extract] at hq
    exact hslot q (List.mem_of_mem_drop (List.mem_of_mem_take hq))
  exact ⟨hextract _ _, hextract _ _, hextract _ _⟩

/-- An assembled matrix passes the checks of every method. -/
theorem checks_ofMatrix_assemble {track : Bool} {system : System α}
    (h : (assemble p a sigma lower track).run = some (.ok system)) :
    (Elimination.Pattern.ofMatrix system.matrix).check.run = some (.ok ()) ∧
      (Elimination.Pattern.ofMatrix system.matrix).checkSorted.run = some (.ok ()) := by
  have hlayout := layout_of_assemble h
  have hvalid := check_eq_ok.mp hlayout.check
  have hsquare : system.matrix.nrows = system.matrix.ncols := by
    rw [hlayout.nrows_eq, hlayout.ncols_eq]
  exact ⟨Elimination.Pattern.check_eq_ok.mpr (Elimination.Pattern.valid_ofMatrix hvalid hsquare),
    Elimination.Pattern.checkSorted_ofMatrix hvalid hsquare⟩

end Kkt

end Saddle
