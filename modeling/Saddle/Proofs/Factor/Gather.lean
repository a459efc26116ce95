import Mathlib.Data.List.Perm.Subperm
import Saddle.Proofs.Factor.Tree
import Saddle.Factor.Numeric

/-!
# The columns of a row, each before its ancestors

Before row `k` is solved, its columns are gathered from the entries of column `k`
of the matrix. Each entry contributes the path above it as far as that is below
`k` and new. The path is written down in one array from its lower end on, and then
moved to another behind what was found before, from its upper end on; so read
backwards, as the columns are used, it goes in front of what was found before. What
the solve relies on is that in the list that results a column comes before its parent:
then, as the rows of a column of `L` are among its ancestors, nothing is carried
to a column after it has been used.

A path stops in front of the first marked node, and everything above a marked
node is in the list already. So the order inside the list can be stated by
recursion over it: the parent of the first column is further back, and the rest
is ordered in the same way. As the marked nodes are those in the list, the list can
be told without marks and arrays; and neither the values of the matrix nor what was
in the arrays before plays a part in it.
-/

namespace Saddle.Factor

variable {α : Type}

/-- The columns are below `k`, no two are the same, and each comes before its
parent, if that is below `k`. -/
def Ascending (parent : Array (Option Nat)) (k : Nat) : List Nat → Prop
  | [] => True
  | i :: rest =>
      (i < k ∧ i ∉ rest ∧ ∀ p, Parent parent i p → p < k → p ∈ rest) ∧ Ascending parent k rest

namespace Ascending

variable {parent : Array (Option Nat)} {k i p : Nat} {columns rest : List Nat}

theorem lt (h : Ascending parent k columns) (hi : i ∈ columns) : i < k := by
  induction columns with
  | nil => cases hi
  | cons j rest ih =>
      rcases List.mem_cons.mp hi with rfl | hi
      · exact h.1.1
      · exact ih h.2 hi

theorem nodup (h : Ascending parent k columns) : columns.Nodup := by
  induction columns with
  | nil => exact List.nodup_nil
  | cons j rest ih => exact List.nodup_cons.mpr ⟨h.1.2.1, ih h.2⟩

theorem length_le (h : Ascending parent k columns) : columns.length ≤ k := by
  have hsub : columns ⊆ List.range k := fun i hi => List.mem_range.mpr (h.lt hi)
  simpa using (h.nodup.subperm hsub).length_le

theorem parent_mem (h : Ascending parent k columns) (hi : i ∈ columns) (hp : Parent parent i p)
    (hk : p < k) : p ∈ columns := by
  induction columns with
  | nil => cases hi
  | cons j rest ih =>
      rcases List.mem_cons.mp hi with rfl | hi
      · exact List.mem_cons_of_mem _ (h.1.2.2 p hp hk)
      · exact List.mem_cons_of_mem _ (ih h.2 hi)

/-- What is above the first column is the column itself, or further back. -/
theorem above_mem (h : Ascending parent k (i :: rest)) (hrise : ∀ i p, Parent parent i p → i < p)
    (hr : Above parent i p) (hk : p < k) : p = i ∨ p ∈ rest := by
  induction hr with
  | refl => exact Or.inl rfl
  | @tail q p hq hp ih =>
      have hlt := hrise q p hp
      rcases ih (by omega) with rfl | hmem
      · exact Or.inr (h.1.2.2 p hp hk)
      · exact Or.inr (h.2.parent_mem hmem hp hk)

end Ascending

/-! ## Lists in arrays -/

section Fronts

variable {xs ys : Array Nat} {m i : Nat}

/-- One number more at the front of an array. -/
theorem exists_write_front (h : m < xs.size) (x : Nat) :
    ∃ ys, Access.write xs m x = some ys ∧ ys.size = xs.size ∧
      ys.toList.take (m + 1) = xs.toList.take m ++ [x] := by
  refine ⟨_, Access.write_of_lt h, by simp, ?_⟩
  rw [Array.toList_setIfInBounds, List.take_add_one, List.take_set_of_le (Nat.le_refl m),
    List.getElem?_set_self (by simpa using h)]
  rfl

theorem unload_spec {path : Array Nat} :
    ∀ {length count : Nat} {order : Array Nat}, length ≤ path.size →
      count + length ≤ order.size →
      ∃ order', unload path length count order = some order' ∧ order'.size = order.size ∧
        order'.toList.take (count + length) =
          order.toList.take count ++ (path.toList.take length).reverse := by
  intro length
  induction length with
  | zero => intro count order _ _; exact ⟨order, rfl, rfl, by simp⟩
  | succ length ih =>
      intro count order hpath horder
      have hlt : length < path.size := by omega
      obtain ⟨next, hwrite, hsize, hfront⟩ :=
        exists_write_front (show count < order.size by omega) path[length]
      obtain ⟨order', hrun, hsize', hfront'⟩ :=
        @ih (count + 1) next (by omega) (by omega)
      refine ⟨order', ?_, hsize'.trans hsize, ?_⟩
      · rw [unload, Array.getElem?_eq_getElem hlt]
        simp only [Option.bind_eq_bind, Option.bind_some, hwrite]
        exact hrun
      · have hlast : path.toList.take (length + 1) = path.toList.take length ++ [path[length]] := by
          rw [List.take_add_one, Array.getElem?_toList, Array.getElem?_eq_getElem hlt]
          rfl
        rw [hlast, List.reverse_concat, Nat.add_comm length, ← Nat.add_assoc, hfront', hfront,
          List.append_assoc, List.singleton_append]

end Fronts

/-! ## One path -/

/-- The path up from `i`, as far as it is below `k` and not in the list. -/
def pathFrom (parent : Array (Option Nat)) (k : Nat) (columns : List Nat) :
    (fuel : Nat) → Nat → List Nat
  | 0, _ => []
  | fuel + 1, i =>
      match parent[i]?.join with
      | none => [i]
      | some up =>
          if up < k ∧ up ∉ columns then i :: pathFrom parent k columns fuel up else [i]

section Path

variable {parent : Array (Option Nat)} {k i up fuel : Nat} {columns : List Nat}

theorem pathFrom_of_stop (h : ∀ p, Parent parent i p → p < k → p ∈ columns) :
    pathFrom parent k columns (fuel + 1) i = [i] := by
  rw [pathFrom]
  cases ho : parent[i]?.join with
  | none => rfl
  | some up => exact if_neg fun hup => hup.2 (h up (Option.join_eq_some_iff.mp ho) hup.1)

theorem pathFrom_of_parent (hup : Parent parent i up) (hk : up < k) (hc : up ∉ columns) :
    pathFrom parent k columns (fuel + 1) i = i :: pathFrom parent k columns fuel up := by
  rw [pathFrom, hup]
  exact if_pos ⟨hk, hc⟩

end Path

/-- The path leads up from `i` and can go in front of the list, and its nodes are the ones that
have been marked. -/
structure Trailed (parent : Array (Option Nat)) (k n : Nat) (columns : List Nat) (i : Nat)
    (marked : Array Bool) (path : List Nat) (marked' : Array Bool) : Prop where
  size_eq : marked'.size = n
  ascending : Ascending parent k (path ++ columns)
  mem : i ∈ path
  above : ∀ x ∈ path, Above parent i x
  marks : ∀ x < n, marked'[x]? = if x ∈ path then some true else marked[x]?

section Trailed

variable {parent : Array (Option Nat)} {n k i : Nat} {columns : List Nat} {marked : Array Bool}

theorem getElem?_mark (hms : marked.size = n) {x : Nat} (hx : x < n) :
    (marked.setIfInBounds i true)[x]? = if x = i then some true else marked[x]? := by
  rw [Array.getElem?_setIfInBounds]
  by_cases hix : i = x
  · simp [hix, hms, hx]
  · simp [hix, Ne.symm hix]

/-- A path ends where the next node is in the list or not below `k`. -/
theorem Trailed.single (hms : marked.size = n) (hasc : Ascending parent k columns) (hik : i < k)
    (hic : i ∉ columns) (hstop : ∀ p, Parent parent i p → p < k → p ∈ columns) :
    Trailed parent k n columns i marked [i] (marked.setIfInBounds i true) where
  size_eq := by simpa using hms
  ascending := ⟨⟨hik, hic, hstop⟩, hasc⟩
  mem := List.mem_singleton_self i
  above x hx := by
    obtain rfl := List.mem_singleton.mp hx
    exact Relation.ReflTransGen.refl
  marks x hx := by
    rw [getElem?_mark hms hx]
    simp only [List.mem_singleton]

/-- Otherwise it goes on. -/
theorem Trailed.cons {up : Nat} {path : List Nat} {marked' : Array Bool} (hms : marked.size = n)
    (hrise : ∀ i p, Parent parent i p → i < p) (hik : i < k) (hic : i ∉ columns)
    (hup : Parent parent i up)
    (h : Trailed parent k n columns up (marked.setIfInBounds i true) path marked') :
    Trailed parent k n columns i marked (i :: path) marked' where
  size_eq := h.size_eq
  ascending := by
    have hnot : i ∉ path := fun hmem => by
      have hle := (h.above i hmem).le hrise
      have hlt := hrise i up hup
      omega
    refine ⟨⟨hik, fun hmem => (List.mem_append.mp hmem).elim hnot hic, fun p hp _ => ?_⟩,
      h.ascending⟩
    rw [← hup.unique hp]
    exact List.mem_append_left _ h.mem
  mem := List.mem_cons_self
  above x hx := by
    rcases List.mem_cons.mp hx with rfl | hx
    · exact Relation.ReflTransGen.refl
    · exact Relation.ReflTransGen.head hup (h.above x hx)
  marks x hx := by
    rw [h.marks x hx, getElem?_mark hms hx]
    by_cases hxp : x ∈ path <;> by_cases hxi : x = i <;> simp [hxp, hxi]

end Trailed

/-- The path up from `i`, which is below `k` and not in the list yet, is found. Only the marks
from `i` on are looked at. -/
theorem follow_spec {parent : Array (Option Nat)} {n k : Nat} {columns : List Nat}
    (hsize : parent.size = n) (hrise : ∀ i p, Parent parent i p → i < p) (hk : k ≤ n)
    (hasc : Ascending parent k columns) :
    ∀ {fuel i length : Nat} {marked : Array Bool} {path : Array Nat}, marked.size = n →
      path.size = n → length ≤ i → i < k → i ∉ columns →
      (∀ x, i ≤ x → x < n → marked[x]? = some (decide (x ∈ columns))) → k - i ≤ fuel →
      ∃ marked' path', follow parent k fuel i length marked path =
          some (length + (pathFrom parent k columns fuel i).length, marked', path') ∧
        Trailed parent k n columns i marked (pathFrom parent k columns fuel i) marked' ∧
        path'.size = n ∧
        path'.toList.take (length + (pathFrom parent k columns fuel i).length) =
          path.toList.take length ++ pathFrom parent k columns fuel i := by
  intro fuel
  induction fuel with
  | zero => intro i length marked path _ _ _ _ _ _ hf; omega
  | succ fuel ih =>
      intro i length marked path hms hps hli hik hic hmarked hf
      have hip : i < parent.size := by omega
      have hlater : ∀ x, i < x → x < n →
          (marked.setIfInBounds i true)[x]? = some (decide (x ∈ columns)) := by
        intro x hx hxn
        rw [getElem?_mark hms hxn, if_neg (Nat.ne_of_gt hx)]
        exact hmarked x (Nat.le_of_lt hx) hxn
      obtain ⟨listed, hwrite, hls, hfront⟩ :=
        exists_write_front (show length < path.size by omega) i
      rw [hps] at hls
      rw [follow, Access.write_of_lt (show i < marked.size by omega), hwrite,
        Array.getElem?_eq_getElem hip]
      simp only [Option.bind_eq_bind, Option.bind_some]
      -- The path ends at `i`, or goes on from its parent.
      by_cases hstop : ∀ p, Parent parent i p → p < k → p ∈ columns
      · rw [pathFrom_of_stop hstop]
        refine ⟨_, listed, ?_, .single hms hasc hik hic hstop, hls, hfront⟩
        cases ho : parent[i] with
        | none => rfl
        | some up =>
            have hup : Parent parent i up := by rw [Parent, Array.getElem?_eq_getElem hip, ho]
            by_cases hku : k ≤ up
            · simp [hku]
            · have hlt := hrise i up hup
              simp [hku, hlater up hlt (by omega), hstop up hup (by omega)]
      · push Not at hstop
        obtain ⟨up, hup, hku, hmem⟩ := hstop
        have hlt := hrise i up hup
        obtain ⟨marked', path', hrun, h, hps', hfront'⟩ := @ih up (length + 1) _ _
          (show (marked.setIfInBounds i true).size = n by simpa using hms) hls (by omega)
          hku hmem (fun x hx hxn => hlater x (by omega) hxn) (by omega)
        have ho : parent[i] = some up := by
          rw [Parent, Array.getElem?_eq_getElem hip] at hup
          exact Option.some.inj hup
        have hlength : length + (i :: pathFrom parent k columns fuel up).length =
            length + 1 + (pathFrom parent k columns fuel up).length := by
          rw [List.length_cons]
          omega
        rw [pathFrom_of_parent hup hku hmem, hlength]
        refine ⟨marked', path', ?_, h.cons hms hrise hik hic hup, hps', ?_⟩
        · simp [ho, Nat.not_le.mpr hku, hlater up hlt (by omega), hmem, hrun]
        · rw [hfront', hfront, List.append_assoc, List.singleton_append]

/-! ## All entries of a column -/

/-- The columns found so far, in the order in which they are used. -/
def RowPattern.columns (r : RowPattern α) : List Nat := (r.work.order.toList.take r.count).reverse

/-- The list once the entry in the given row has been taken in. -/
def takeIn (parent : Array (Option Nat)) (k : Nat) (columns : List Nat) (row : Nat) : List Nat :=
  if row = k ∨ row ∈ columns then columns
  else pathFrom parent k columns parent.size row ++ columns

/-- The columns of row `k`, in the order in which they are used. -/
def columnsOf (a : Csc α) (parent : Array (Option Nat)) (k : Nat) : List Nat :=
  ((a.col k).map (·.1)).foldl (takeIn parent k) []

/-- A workspace between two rows. -/
structure Clean [Zero α] (n : Nat) (w : Workspace α) : Prop where
  marked_eq : w.marked = Array.replicate n false
  values_eq : w.values = Array.replicate n 0
  size_order : w.order.size = n
  size_path : w.path.size = n

theorem clean_blank [Zero α] (n : Nat) : Clean n (.blank n : Workspace α) :=
  ⟨rfl, rfl, by simp [Workspace.blank], by simp [Workspace.blank]⟩

/-- The row of which the entries `done` of column `k` have been taken in. -/
structure Gathered [Zero α] (a : Csc α) (parent : Array (Option Nat)) (k : Nat) (next : Array Nat)
    (done : List (Nat × α)) (r : RowPattern α) : Prop where
  size_marked : r.work.marked.size = a.ncols
  size_values : r.work.values.size = a.ncols
  size_order : r.work.order.size = a.ncols
  size_path : r.work.path.size = a.ncols
  next_eq : r.work.next = next
  marked : ∀ x < a.ncols, r.work.marked[x]? = some (decide (x ∈ r.columns))
  values : ∀ x < a.ncols,
    r.work.values[x]? = some (if x = k then 0 else (lastOf done x).getD 0)
  pivot : r.pivot = (lastOf done k).getD 0
  count_eq : r.columns.length = r.count
  columns_eq : r.columns = (done.map (·.1)).foldl (takeIn parent k) []
  ascending : Ascending parent k r.columns
  entries : ∀ e ∈ done, e.1 < k → e.1 ∈ r.columns
  origin : ∀ x ∈ r.columns, ∃ e ∈ done, Above parent e.1 x

theorem gathered_start [Zero α] {a : Csc α} {w : Workspace α} (hw : Clean a.ncols w)
    (parent : Array (Option Nat)) (k : Nat) :
    Gathered a parent k w.next [] ⟨w, 0, 0⟩ where
  size_marked := by simp [hw.marked_eq]
  size_values := by simp [hw.values_eq]
  size_order := hw.size_order
  size_path := hw.size_path
  next_eq := rfl
  marked x hx := by simp [hw.marked_eq, hx, RowPattern.columns]
  values x hx := by simp [hw.values_eq, hx]
  pivot := rfl
  count_eq := by simp [RowPattern.columns]
  columns_eq := by simp [RowPattern.columns]
  ascending := trivial
  entries e he := by cases he
  origin x hx := by simp [RowPattern.columns] at hx

namespace Gathered

variable [Zero α] {a : Csc α} {parent : Array (Option Nat)} {k : Nat} {next : Array Nat}
  {done : List (Nat × α)} {r : RowPattern α} {e : Nat × α}

theorem values_write (h : Gathered a parent k next done r) (hek : e.1 < k) (hk : k < a.ncols)
    (x : Nat) (hx : x < a.ncols) :
    (r.work.values.setIfInBounds e.1 e.2)[x]? =
      some (if x = k then 0 else (lastOf (done ++ [e]) x).getD 0) := by
  have hlt : e.1 < r.work.values.size := by rw [h.size_values]; omega
  rw [Array.getElem?_setIfInBounds, lastOf_snoc]
  by_cases hxe : e.1 = x
  · subst hxe
    simp [hlt, Nat.ne_of_lt hek]
  · rw [if_neg hxe, if_neg (Ne.symm hxe)]
    exact h.values x hx

theorem columns_snoc (h : Gathered a parent k next done r) {columns : List Nat}
    (hcolumns : columns = takeIn parent k r.columns e.1) :
    columns = ((done ++ [e]).map (·.1)).foldl (takeIn parent k) [] := by
  rw [List.map_append, List.foldl_append, ← h.columns_eq]
  exact hcolumns

theorem entries_snoc (h : Gathered a parent k next done r) {columns : List Nat}
    (hsub : ∀ x ∈ r.columns, x ∈ columns) (hin : e.1 < k → e.1 ∈ columns) :
    ∀ e' ∈ done ++ [e], e'.1 < k → e'.1 ∈ columns := by
  intro e' he' hlt
  rcases List.mem_append.mp he' with he' | he'
  · exact hsub e'.1 (h.entries e' he' hlt)
  · obtain rfl := List.mem_singleton.mp he'
    exact hin hlt

theorem origin_snoc (h : Gathered a parent k next done r) (e : Nat × α) {x : Nat}
    (hx : x ∈ r.columns) : ∃ e' ∈ done ++ [e], Above parent e'.1 x := by
  obtain ⟨e', he', habove⟩ := h.origin x hx
  exact ⟨e', List.mem_append_left _ he', habove⟩

theorem pivot_snoc (h : Gathered a parent k next done r) (hek : e.1 < k) :
    r.pivot = (lastOf (done ++ [e]) k).getD 0 := by
  rw [lastOf_snoc, if_neg (Nat.ne_of_gt hek)]
  exact h.pivot

/-- The diagonal entry is kept apart. -/
theorem addPivot (h : Gathered a parent k next done r) (he : e.1 = k) :
    Gathered a parent k next (done ++ [e]) { r with pivot := e.2 } := by
  refine { h with
    values := fun x hx => ?_
    pivot := ?_
    columns_eq := h.columns_snoc (by rw [takeIn, if_pos (Or.inl he)]; rfl)
    entries := h.entries_snoc (fun _ hx => hx) fun hlt => absurd he (Nat.ne_of_lt hlt)
    origin := fun x hx => h.origin_snoc e hx }
  · rw [h.values x hx, lastOf_snoc, he]
    by_cases hxk : x = k <;> simp [hxk]
  · rw [lastOf_snoc, if_pos he.symm]
    rfl

/-- An entry on a path that has been walked leaves its value only. -/
theorem addWalked (h : Gathered a parent k next done r) (hk : k < a.ncols) (hek : e.1 < k)
    (hmem : e.1 ∈ r.columns) :
    Gathered a parent k next (done ++ [e])
      { r with work := { r.work with values := r.work.values.setIfInBounds e.1 e.2 } } :=
  { h with
    size_values := by simpa using h.size_values
    values := h.values_write hek hk
    pivot := h.pivot_snoc hek
    columns_eq := h.columns_snoc (by rw [takeIn, if_pos (Or.inr hmem)]; rfl)
    entries := h.entries_snoc (fun _ hx => hx) fun _ => hmem
    origin := fun _ hx => h.origin_snoc e hx }

/-- Any other entry also leaves the path above it. -/
theorem addPath (h : Gathered a parent k next done r) (hsize : parent.size = a.ncols)
    (hrise : ∀ i p, Parent parent i p → i < p) (hk : k < a.ncols) (hek : e.1 < k)
    (hmem : e.1 ∉ r.columns) :
    ∃ length marked path order,
      follow parent k parent.size e.1 0 r.work.marked r.work.path = some (length, marked, path) ∧
      unload path length r.count r.work.order = some order ∧
      Gathered a parent k next (done ++ [e])
        { r with
          work := { r.work with
            marked, order, path, values := r.work.values.setIfInBounds e.1 e.2 }
          count := r.count + length } := by
  obtain ⟨marked, path, hfollow, htrail, hpath, hfront⟩ :=
    follow_spec hsize hrise (Nat.le_of_lt hk) h.ascending h.size_marked h.size_path
      (Nat.zero_le _) hek hmem (fun x _ hx => h.marked x hx)
      (show k - e.1 ≤ parent.size by omega)
  obtain ⟨found, hfound⟩ : ∃ found, found = pathFrom parent k r.columns parent.size e.1 := ⟨_, rfl⟩
  rw [← hfound] at hfollow htrail hfront
  rw [Nat.zero_add, List.take_zero, List.nil_append] at hfront
  rw [Nat.zero_add] at hfollow
  have hlength := htrail.ascending.length_le
  rw [List.length_append, h.count_eq] at hlength
  obtain ⟨order, hunload, hsorder, horder⟩ := unload_spec
    (show found.length ≤ path.size by omega)
    (show r.count + found.length ≤ r.work.order.size by rw [h.size_order]; omega)
  have hcolumns : RowPattern.columns { r with
      work := { r.work with
        marked, order, path, values := r.work.values.setIfInBounds e.1 e.2 }
      count := r.count + found.length } = found ++ r.columns := by
    rw [RowPattern.columns, horder, hfront, List.reverse_append, List.reverse_reverse]
    rfl
  refine ⟨found.length, marked, path, order, hfollow, hunload, {
    size_marked := htrail.size_eq
    size_values := by simpa using h.size_values
    size_order := hsorder.trans h.size_order
    size_path := hpath
    next_eq := h.next_eq
    marked := fun x hx => ?_
    values := h.values_write hek hk
    pivot := h.pivot_snoc hek
    count_eq := by rw [hcolumns, List.length_append, h.count_eq, Nat.add_comm]
    columns_eq := h.columns_snoc ?_
    ascending := hcolumns ▸ htrail.ascending
    entries := h.entries_snoc (fun x hx => ?_) fun _ => ?_
    origin := fun x hx => ?_ }⟩
  · rw [htrail.marks x hx, h.marked x hx, hcolumns]
    by_cases hxp : x ∈ found <;> simp [hxp]
  · have hnot : ¬ (e.1 = k ∨ e.1 ∈ r.columns) :=
      not_or.mpr ⟨Nat.ne_of_lt hek, hmem⟩
    rw [hcolumns, takeIn, if_neg hnot, hfound]
  · rw [hcolumns]
    exact List.mem_append_right _ hx
  · rw [hcolumns]
    exact List.mem_append_left _ htrail.mem
  · rw [hcolumns] at hx
    rcases List.mem_append.mp hx with hx | hx
    · exact ⟨e, by simp, htrail.above x hx⟩
    · exact h.origin_snoc e hx

theorem step (h : Gathered a parent k next done r) (hsize : parent.size = a.ncols)
    (hrise : ∀ i p, Parent parent i p → i < p) (hk : k < a.ncols) (he : e.1 ≤ k) :
    ∃ r', r.addEntry parent k e = some r' ∧ Gathered a parent k next (done ++ [e]) r' := by
  rw [RowPattern.addEntry]
  by_cases hek : e.1 = k
  · exact ⟨_, by rw [if_pos hek]; rfl, h.addPivot hek⟩
  have hlt : e.1 < k := by omega
  have hvals : e.1 < r.work.values.size := by rw [h.size_values]; omega
  simp only [hek, if_false, Access.write_of_lt hvals, Option.bind_eq_bind, Option.bind_some,
    h.marked e.1 (by omega)]
  by_cases hmem : e.1 ∈ r.columns
  · exact ⟨_, by simp [hmem], h.addWalked hk hlt hmem⟩
  · obtain ⟨length, marked, path, order, hfollow, hunload, hr⟩ := h.addPath hsize hrise hk hlt hmem
    exact ⟨_, by simp [hmem, hfollow, hunload], hr⟩

theorem mem_columns (h : Gathered a parent k next (a.col k) r)
    (hrise : ∀ i p, Parent parent i p → i < p) {i : Nat} :
    i ∈ r.columns ↔ InRow a parent k i := by
  constructor
  · exact fun hi => ⟨h.ascending.lt hi, h.origin i hi⟩
  · intro hi
    exact hi.mem_of_closed (S := (· ∈ r.columns)) hrise (fun e he hk => h.entries e he hk)
      fun x p hx hp hk => h.ascending.parent_mem hx hp hk

/-- What is read out of the array are the columns. -/
theorem slice_order (h : Gathered a parent k next (a.col k) r) :
    Access.slice r.work.order 0 r.count = some (columnsOf a parent k).reverse := by
  have hle : r.count ≤ r.work.order.size := by
    rw [← h.count_eq, RowPattern.columns, List.length_reverse, List.length_take,
      Array.length_toList]
    exact Nat.min_le_right _ _
  rw [Access.slice_of_le (Nat.zero_le _) hle, columnsOf, ← h.columns_eq, RowPattern.columns,
    List.reverse_reverse]
  simp

end Gathered

theorem gather_spec [Zero α] {a : Csc α} (hu : a.Upper) {parent : Array (Option Nat)}
    (hsize : parent.size = a.ncols) (hrise : ∀ i p, Parent parent i p → i < p) {k : Nat}
    (hk : k < a.ncols) {w : Workspace α} (hw : Clean a.ncols w) :
    ∃ r, (a.col k).foldlM (RowPattern.addEntry parent k) ⟨w, 0, 0⟩ = some r ∧
      Gathered a parent k w.next (a.col k) r := by
  refine foldlM_total (Gathered a parent k w.next) (gathered_start hw parent k) ?_
  intro done e rest hcol r hr
  exact hr.step hsize hrise hk (hu.row_le k hk e (by rw [hcol]; simp))

end Saddle.Factor
