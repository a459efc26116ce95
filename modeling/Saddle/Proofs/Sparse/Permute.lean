import Saddle.Proofs.Sparse.Triplets

/-!
# Where entries move

A relabelling that gives different labels takes an unordered pair of rows to
another, and two entries on or above the diagonal are at one place only if their
pairs are one. So the moved cells are at different places, in the order of these
each has a position of its own, and the map from old positions to new ones is a
bijection. Values move with their cells and are not touched.
-/

namespace Saddle.Csc

open Cell

variable {α : Type}

/-- Where a place of an upper triangle moves to. -/
def movePlace (label : Nat → Nat) (p : Nat × Nat) : Nat × Nat :=
  (max (label p.2) (label p.1), min (label p.2) (label p.1))

/-- A cell with its place moved. -/
def moveCell (label : Nat → Nat) (c : Cell α) : Cell α :=
  ⟨(movePlace label c.place).1, (movePlace label c.place).2, c.value⟩

theorem place_moveCell (label : Nat → Nat) (c : Cell α) :
    (moveCell label c).place = movePlace label c.place := rfl

/-- The cells are on or above the diagonal of a matrix with `n` columns. -/
def InTriangle (n : Nat) (cells : List (Cell α)) : Prop :=
  ∀ c ∈ cells, c.row ≤ c.column ∧ c.column < n

/-- The label of row and column `i`. -/
def labelOf (labels : Array Nat) (i : Nat) : Nat := labels.getD i 0

/-- The labels below `n` are below `n` and all different. -/
structure Labels (n : Nat) (label : Nat → Nat) : Prop where
  lt : ∀ i < n, label i < n
  inj : ∀ i < n, ∀ j < n, label i = label j → i = j

theorem Labels.id (n : Nat) : Labels n id := ⟨fun _ h => h, fun _ _ _ _ h => h⟩

theorem Labels.comp {n : Nat} {label label' : Nat → Nat} (h' : Labels n label')
    (h : Labels n label) : Labels n (label' ∘ label) where
  lt i hi := h'.lt _ (h.lt i hi)
  inj i hi j hj hij := h.inj i hi j hj (h'.inj _ (h.lt i hi) _ (h.lt j hj) hij)

theorem movePlace_id {p : Nat × Nat} (h : p.2 ≤ p.1) : movePlace id p = p := by
  obtain ⟨_, _⟩ := p
  simp only [movePlace, id, Prod.mk.injEq] at h ⊢
  omega

theorem movePlace_diagonal (label : Nat → Nat) (i : Nat) :
    movePlace label (i, i) = (label i, label i) := by
  rw [movePlace, max_self, min_self]

theorem movePlace_ordered (label : Nat → Nat) (i j : Nat) :
    movePlace label (max i j, min i j) = (max (label i) (label j), min (label i) (label j)) := by
  rcases Nat.le_total i j with h | h
  · rw [max_eq_right h, min_eq_left h]
    rfl
  · rw [max_eq_left h, min_eq_right h, movePlace, max_comm, min_comm]

/-- Moving twice is moving once. -/
theorem movePlace_movePlace (label' label : Nat → Nat) (p : Nat × Nat) :
    movePlace label' (movePlace label p) = movePlace (label' ∘ label) p := by
  rcases Nat.le_total (label p.2) (label p.1) with h | h
  · simp only [movePlace, max_eq_right h, min_eq_left h, Function.comp_apply]
  · simp only [movePlace, max_eq_left h, min_eq_right h, Function.comp_apply, max_comm, min_comm]

/-- The cells have moved, each to the given position. -/
structure Moved (label : Nat → Nat) (cells cells' : List (Cell α)) (moved : Array Nat) : Prop where
  increasing : (cells'.map place).Pairwise PlaceLt
  perm : cells'.Perm (cells.map (moveCell label))
  position : List.Forall₂ (fun c q => cells'[q]? = some (moveCell label c)) cells moved.toList

section Triangle

variable {n : Nat} {label : Nat → Nat} {cells : List (Cell α)}

/-- Only one place of the triangle moves to a place. -/
theorem movePlace_inj (hl : Labels n label) {p q : Nat × Nat} (hp : p.2 ≤ p.1 ∧ p.1 < n)
    (hq : q.2 ≤ q.1 ∧ q.1 < n) (h : movePlace label p = movePlace label q) : p = q := by
  simp only [movePlace, Prod.mk.injEq] at h
  have hpair : (label p.1 = label q.1 ∧ label p.2 = label q.2) ∨
      (label p.1 = label q.2 ∧ label p.2 = label q.1) := by omega
  obtain ⟨_, _⟩ := p
  obtain ⟨_, _⟩ := q
  simp only at hp hq hpair
  rcases hpair with ⟨h1, h2⟩ | ⟨h1, h2⟩
  · rw [hl.inj _ (by omega) _ (by omega) h1, hl.inj _ (by omega) _ (by omega) h2]
  · have e1 := hl.inj _ (by omega) _ (by omega) h1
    have e2 := hl.inj _ (by omega) _ (by omega) h2
    rw [Prod.mk.injEq]
    omega

theorem nodup_moveCell (hl : Labels n label) (h : InTriangle n cells)
    (hinc : (cells.map place).Pairwise PlaceLt) :
    ((cells.map (moveCell label)).map place).Nodup := by
  rw [List.map_map, List.Nodup, List.pairwise_map]
  rw [List.pairwise_map] at hinc
  refine hinc.imp_of_mem fun {c d} hc hd hcd heq => hcd.ne ?_
  exact movePlace_inj hl (h c hc) (h d hd) heq

theorem upper_ofCells (h : InTriangle n cells) (hinc : (cells.map place).Pairwise PlaceLt) :
    (ofCells n n cells).Upper := by
  rw [List.pairwise_map] at hinc
  refine ⟨rfl, fun j (hj : j < n) e he => ?_⟩
  rw [col_ofCells (hinc.imp fun h => h.column_le) hj, List.mem_map] at he
  obtain ⟨c, hc, rfl⟩ := he
  rw [List.mem_filter, decide_eq_true_eq] at hc
  exact hc.2 ▸ (h c hc.1).1

theorem valid_ofTriangle (h : InTriangle n cells) (hinc : (cells.map place).Pairwise PlaceLt) :
    (ofCells n n cells).Valid :=
  valid_ofCells (fun c hc => Nat.lt_of_le_of_lt (h c hc).1 (h c hc).2) (fun c hc => (h c hc).2)
    hinc

theorem cellList_ofTriangle (h : InTriangle n cells) (hinc : (cells.map place).Pairwise PlaceLt) :
    (ofCells n n cells).cellList = cells := by
  rw [List.pairwise_map] at hinc
  exact cellList_ofCells (hinc.imp fun h => h.column_le) fun c hc => (h c hc).2

theorem Moved.inTriangle {cells' : List (Cell α)} {moved : Array Nat}
    (hm : Moved label cells cells' moved) (hl : Labels n label) (h : InTriangle n cells) :
    InTriangle n cells' := by
  intro d hd
  obtain ⟨c, hc, rfl⟩ := List.mem_map.mp (hm.perm.mem_iff.mp hd)
  have hcolumn := (h c hc).2
  have hrow := Nat.lt_of_le_of_lt (h c hc).1 hcolumn
  have h1 := hl.lt c.row hrow
  have h2 := hl.lt c.column hcolumn
  simp only [moveCell, movePlace, place]
  omega

end Triangle

/-! ## Entries and their slots -/

section Built

open Triplets

variable [Add α] {n : Nat} {label : Nat → Nat} {entries cells cells' : List (Cell α)}
  {slots moved : Array Nat}

theorem inTriangle_of_built (hb : Built id entries cells slots)
    (htri : InTriangle n entries) : InTriangle n cells := by
  intro d hd
  obtain ⟨c, hc, hcd⟩ := hb.origin d hd
  have hrow := congrArg Prod.snd hcd
  have hcolumn := congrArg Prod.fst hcd
  simp only [id, place] at hrow hcolumn
  exact hrow ▸ hcolumn ▸ htri c hc

/-- When the cells move the slots follow, and what has been built is the same but
for the places. -/
theorem built_move {move : Nat × Nat → Nat × Nat} (hb : Built move entries cells slots)
    (hcells : InTriangle n cells) (hl : Labels n label) (hm : Moved label cells cells' moved) :
    ∃ slots' : Array Nat, slots.toList.map (moved[·]?) = slots'.toList.map some ∧
      Built (movePlace label ∘ move) entries cells' slots' := by
  -- A slot of an entry holds a cell, and the cell has a new position.
  have hfollow : ∀ q p, (cells.map place)[q]? = some p →
      moved[q]? = some (moved.getD q 0) ∧
        (cells'.map place)[moved.getD q 0]? = some (movePlace label p) := by
    intro q p hq
    rw [List.getElem?_map, Option.map_eq_some_iff] at hq
    obtain ⟨d, hd, rfl⟩ := hq
    obtain ⟨hlt, rfl⟩ := List.getElem?_eq_some_iff.mp hd
    have hlt' : q < moved.toList.length := hm.position.length_eq ▸ hlt
    have hget := hm.position.get hlt hlt'
    have hmoved : moved[q]? = some moved[q] := Array.getElem?_eq_getElem hlt'
    have hgetD : moved.getD q 0 = moved[q] := by
      rw [Array.getD_eq_getD_getElem?, hmoved]
      rfl
    rw [hgetD]
    refine ⟨hmoved, ?_⟩
    simp only [List.get_eq_getElem, Array.getElem_toList] at hget
    rw [List.getElem?_map, hget]
    rfl
  refine ⟨(slots.toList.map (moved.getD · 0)).toArray, ?_, hm.increasing, fun d hd => ?_,
    fun c hc d hd hcd => ?_, ?_⟩
  · rw [List.toList_toArray, List.map_map]
    refine List.map_congr_left fun q hq => ?_
    obtain ⟨e, he, rfl⟩ := List.mem_iff_getElem.mp hq
    exact (hfollow _ _ (hb.slots.get (hb.slots.length_eq ▸ he) he)).1
  · obtain ⟨c', hc', rfl⟩ := List.mem_map.mp (hm.perm.mem_iff.mp hd)
    obtain ⟨c, hc, hcd⟩ := hb.origin c' hc'
    exact ⟨c, hc, by rw [place_moveCell, ← hcd]; rfl⟩
  · obtain ⟨c', hc', rfl⟩ := List.mem_map.mp (hm.perm.mem_iff.mp hd)
    obtain ⟨d', hd', hplace⟩ := hb.place_mem hc
    refine hb.value c hc c' hc' (movePlace_inj hl ?_ (hcells c' hc') hcd)
    exact hplace ▸ hcells d' hd'
  · rw [List.toList_toArray, List.forall₂_map_right_iff]
    exact hb.slots.imp fun c q hq => (hfollow q _ hq).2

end Built

end Saddle.Csc
