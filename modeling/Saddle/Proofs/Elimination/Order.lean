import Mathlib.Data.List.Nodup
import Mathlib.Data.Set.Function
import Mathlib.Order.Interval.Set.Defs
import Saddle.Proofs.Access
import Saddle.Elimination.Order

/-!
# Which orders are accepted

The check gives each node named its number, and stops at one that has a number
already. What it has written down after some of the list is therefore the list
itself, read the other way: the number of a node is the place at which it is
named. If all of the list passes, and every node has got a number, the two readings
are inverse to each other.

That every node has got one needs no check of its own. Nodes that are all different and
all below the length of the list leave none out, because there are as many of them as
there are numbers. So the lists that pass are the bijections, and whatever a method
returns is turned into one or refused.
-/

namespace Saddle.Elimination

/-- The renumbering reads `old` and `new`, which are inverse to each other below `n`. -/
structure Renumbers (n : Nat) (r : Renumbering) (old new : Nat → Nat) : Prop where
  oldOf : Access.Tabulates r.oldOf n old
  newOf : Access.Tabulates r.newOf n new
  old_lt : ∀ k < n, old k < n
  new_lt : ∀ i < n, new i < n
  new_old : ∀ k < n, new (old k) = k
  old_new : ∀ i < n, old (new i) = i

section Numbering

variable {n : Nat} {pairs done : List (Nat × Nat)} {numbers : Array (Option Nat)}

theorem number_eq_some {pair : Nat × Nat}
    (h : Access.Tabulates numbers n fun i => done.lookup i) {numbers' : Array (Option Nat)} :
    number numbers pair = some numbers' ↔
      pair.1 < n ∧ pair.1 ∉ done.map (·.1) ∧
        numbers' = numbers.setIfInBounds pair.1 (some pair.2) := by
  have hnone : done.lookup pair.1 = none ↔ pair.1 ∉ done.map (·.1) := by
    rw [List.lookup_eq_none_iff, List.mem_map]
    constructor
    · rintro hall ⟨e, he, hep⟩
      have := hall e he
      simp [hep] at this
    · intro hnot e he
      rw [bne_iff_ne]
      exact fun heq => hnot ⟨e, he, heq.symm⟩
  rw [number]
  rcases Nat.lt_or_ge pair.1 n with hlt | hge
  · rw [h.get pair.1 hlt, ← hnone]
    cases hl : done.lookup pair.1 with
    | none =>
        have hwrite := Access.write_of_lt (x := some pair.2) (h.size_eq.symm ▸ hlt)
        simp [hwrite, hlt, eq_comm]
    | some k => simp
  · have hout : numbers[pair.1]? = none :=
      Array.getElem?_eq_none (by rw [h.size_eq]; exact hge)
    simp only [hout, reduceCtorEq, false_iff, not_and]
    omega

theorem tabulates_number {pair : Nat × Nat}
    (h : Access.Tabulates numbers n fun i => done.lookup i)
    (hnew : pair.1 ∉ done.map (·.1)) :
    Access.Tabulates (numbers.setIfInBounds pair.1 (some pair.2)) n
      fun i => (done ++ [pair]).lookup i := by
  refine (h.setIfInBounds pair.1 (some pair.2)).congr fun i _ => ?_
  rw [lookup_snoc fun e he heq => hnew (heq ▸ List.mem_map_of_mem he),
    Function.update_apply]

/-- Nodes that exist and are all different get their numbers. -/
theorem numberAll_total (h : Access.Tabulates numbers n fun i => done.lookup i)
    (hnodup : ((done ++ pairs).map (·.1)).Nodup) (hlt : ∀ pair ∈ pairs, pair.1 < n) :
    ∃ numbers', pairs.foldlM number numbers = some numbers' ∧
      Access.Tabulates numbers' n fun i => (done ++ pairs).lookup i := by
  induction pairs generalizing done numbers with
  | nil => exact ⟨numbers, rfl, by simpa using h⟩
  | cons pair pairs ih =>
      rw [List.forall_mem_cons] at hlt
      rw [List.append_cons] at hnodup ⊢
      have hnew : pair.1 ∉ done.map (·.1) := by
        rw [List.map_append, List.map_append, List.nodup_append, List.nodup_append] at hnodup
        intro hmem
        exact hnodup.1.2.2 _ hmem _ (by simp) rfl
      rw [List.foldlM_cons, (number_eq_some h).mpr ⟨hlt.1, hnew, rfl⟩]
      exact ih (tabulates_number h hnew) hnodup hlt.2

theorem numberAll_partial (h : Access.Tabulates numbers n fun i => done.lookup i)
    (hdone : (done.map (·.1)).Nodup) {numbers' : Array (Option Nat)}
    (hrun : pairs.foldlM number numbers = some numbers') :
    ((done ++ pairs).map (·.1)).Nodup ∧ ∀ pair ∈ pairs, pair.1 < n := by
  induction pairs generalizing done numbers with
  | nil => exact ⟨by simpa using hdone, by simp⟩
  | cons pair pairs ih =>
      rw [List.foldlM_cons, Option.bind_eq_bind, Option.bind_eq_some_iff] at hrun
      obtain ⟨numbers₁, hstep, hrun⟩ := hrun
      obtain ⟨hlt, hnew, rfl⟩ := (number_eq_some h).mp hstep
      have hdone' : ((done ++ [pair]).map (·.1)).Nodup := by
        rw [List.map_append, List.nodup_append]
        refine ⟨hdone, by simp, fun i hi j hj => ?_⟩
        rw [List.map_singleton, List.mem_singleton] at hj
        rintro rfl
        exact hnew (hj ▸ hi)
      obtain ⟨hnodup, hrest⟩ := ih (tabulates_number h hnew) hdone' hrun
      rw [List.append_cons]
      exact ⟨hnodup, List.forall_mem_cons.mpr ⟨hlt, hrest⟩⟩

end Numbering

section Inverse

variable {oldOf newOf : Array Nat}

theorem tabulates_start (n : Nat) :
    Access.Tabulates (Array.replicate n (none : Option Nat)) n
      fun i => ([] : List (Nat × Nat)).lookup i :=
  Access.Tabulates.replicate n none

/-- If the numbering gets through the list, it has numbered every node. -/
theorem perm_of_numberAll {numbers : Array (Option Nat)}
    (h : oldOf.toList.zipIdx.foldlM number (Array.replicate oldOf.size none) = some numbers) :
    oldOf.toList.Perm (List.range oldOf.size) := by
  obtain ⟨hnodup, hlt⟩ := numberAll_partial (tabulates_start _) (by simp) h
  rw [List.nil_append, List.zipIdx_map_fst] at hnodup
  refine perm_range_of_nodup hnodup (fun x hx => ?_) Array.length_toList
  obtain ⟨k, hk, rfl⟩ := List.mem_iff_getElem.mp hx
  exact hlt (_, k) (List.mk_mem_zipIdx_iff_getElem?.mpr (List.getElem?_eq_getElem hk))

/-- The numbering gets through a list of all nodes, and writes down the places. -/
theorem numberAll_of_perm (h : oldOf.toList.Perm (List.range oldOf.size)) :
    ∃ numbers, oldOf.toList.zipIdx.foldlM number (Array.replicate oldOf.size none) =
        some numbers ∧
      Access.Tabulates numbers oldOf.size fun i => oldOf.toList.zipIdx.lookup i := by
  have hnodup : (([] ++ oldOf.toList.zipIdx : List (Nat × Nat)).map (·.1)).Nodup := by
    rw [List.nil_append, List.zipIdx_map_fst]
    exact h.nodup_iff.mpr List.nodup_range
  exact numberAll_total (tabulates_start oldOf.size) hnodup
    fun pair hpair => List.mem_range.mp (h.mem_iff.mp (List.fst_mem_of_mem_zipIdx hpair))

theorem renumbers_of_inverse? (h : inverse? oldOf = some newOf) :
    ∃ old new, Renumbers oldOf.size ⟨oldOf, newOf⟩ old new := by
  rw [inverse?, Option.bind_eq_bind, Option.bind_eq_some_iff] at h
  obtain ⟨numbers, hrun, h⟩ := h
  obtain rfl : (numbers.toList.map (·.getD maxSize)).toArray = newOf := Option.some.inj h
  have hperm := perm_of_numberAll hrun
  have hnodup : oldOf.toList.Nodup := hperm.nodup_iff.mpr List.nodup_range
  obtain ⟨numbers', hrun', htab⟩ := numberAll_of_perm hperm
  obtain rfl := Option.some.inj (hrun.symm.trans hrun')
  have hold := Access.Tabulates.self oldOf 0
  obtain ⟨new, hnew⟩ :
      ∃ new, new = fun i => (oldOf.toList.zipIdx.lookup i).getD maxSize := ⟨_, rfl⟩
  have hnewOf :
      Access.Tabulates (numbers.toList.map (·.getD maxSize)).toArray oldOf.size new := by
    rw [htab.toList_eq, List.map_map, hnew]
    exact .ofRange oldOf.size _
  -- Every node is named somewhere, and its number is that place.
  have hlookup : ∀ i < oldOf.size, oldOf[new i]? = some i := by
    intro i hi
    obtain ⟨k, hk, hki⟩ := List.mem_iff_getElem.mp (hperm.mem_iff.mpr (List.mem_range.mpr hi))
    have hget : oldOf.toList[k]? = some i := by rw [List.getElem?_eq_getElem hk, hki]
    rw [hnew]
    simp only [(lookup_zipIdx hnodup).mpr hget]
    rw [← Array.getElem?_toList]
    exact hget
  have hold_lt : ∀ k < oldOf.size, oldOf.getD k 0 < oldOf.size := fun k hk =>
    List.mem_range.mp (hperm.mem_iff.mp (List.mem_of_getElem?
      ((Array.getElem?_toList).trans (hold.get k hk))))
  have hinv : ∀ i < oldOf.size, new i < oldOf.size ∧ oldOf.getD (new i) 0 = i := by
    intro i hi
    obtain ⟨hbound, -⟩ := Array.getElem?_eq_some_iff.mp (hlookup i hi)
    refine ⟨hbound, ?_⟩
    have hget := hold.get _ hbound
    rw [hlookup i hi] at hget
    exact (Option.some.inj hget).symm
  refine ⟨_, new, hold, hnewOf, hold_lt, fun i hi => (hinv i hi).1, fun k hk => ?_,
    fun i hi => (hinv i hi).2⟩
  -- Two places that name the same node are one.
  have hk' := hlookup _ (hold_lt k hk)
  have hget := hold.get k hk
  rw [← Array.getElem?_toList, ← lookup_zipIdx hnodup] at hk' hget
  rw [hk'] at hget
  exact Option.some.inj hget

theorem inverse?_of_perm (h : oldOf.toList.Perm (List.range oldOf.size)) :
    ∃ newOf, inverse? oldOf = some newOf := by
  obtain ⟨numbers, hrun, -⟩ := numberAll_of_perm h
  exact ⟨_, by rw [inverse?, hrun]; rfl⟩

end Inverse

/-! ## Bijections -/

section Bijection

variable {n : Nat} {oldOf newOf : Array Nat} {old new : Nat → Nat}

/-- The list takes the numbers below its length to themselves, one to one. -/
def NamesEachOnce (oldOf : Array Nat) : Prop :=
  Set.BijOn (fun k => oldOf.getD k 0) (Set.Iio oldOf.size) (Set.Iio oldOf.size)

theorem perm_of_namesEachOnce (h : NamesEachOnce oldOf) :
    oldOf.toList.Perm (List.range oldOf.size) := by
  have hget : ∀ k (hk : k < oldOf.toList.length), oldOf.toList[k] = oldOf.getD k 0 := by
    intro k hk
    rw [Array.length_toList] at hk
    simp [Array.getD, hk]
  refine perm_range_of_nodup (List.nodup_iff_injective_get.mpr fun i j hij => ?_) (fun x hx => ?_)
    Array.length_toList
  · rw [List.get_eq_getElem, List.get_eq_getElem, hget _ i.isLt, hget _ j.isLt] at hij
    exact Fin.ext (h.injOn i.isLt j.isLt hij)
  · obtain ⟨k, hk, rfl⟩ := List.mem_iff_getElem.mp hx
    rw [hget k hk]
    exact h.mapsTo hk

theorem Renumbers.namesEachOnce (h : Renumbers n ⟨oldOf, newOf⟩ old new) :
    NamesEachOnce oldOf := by
  have hsize : oldOf.size = n := h.oldOf.size_eq
  have hget : ∀ k < n, oldOf.getD k 0 = old k := by
    intro k hk
    rw [Array.getD_eq_getD_getElem?, h.oldOf.get k hk]
    rfl
  rw [NamesEachOnce, hsize]
  refine ⟨fun k hk => ?_, fun k hk l hl hkl => ?_, fun i hi => ⟨new i, h.new_lt i hi, ?_⟩⟩
  · simp only [hget k hk]
    exact h.old_lt k hk
  · simp only [hget k hk, hget l hl] at hkl
    rw [← h.new_old k hk, hkl, h.new_old l hl]
  · simp only [hget _ (h.new_lt i hi)]
    exact h.old_new i hi

/-- The numbering gets through the lists that take the numbers below their length to themselves, and
through no others. -/
theorem exists_numberAll_iff :
    (∃ numbers, oldOf.toList.zipIdx.foldlM number (Array.replicate oldOf.size none) =
      some numbers) ↔ NamesEachOnce oldOf := by
  constructor
  · rintro ⟨numbers, hrun⟩
    obtain ⟨newOf, hinv⟩ := inverse?_of_perm (perm_of_numberAll hrun)
    obtain ⟨old, new, hr⟩ := renumbers_of_inverse? hinv
    exact hr.namesEachOnce
  · intro h
    obtain ⟨numbers, hrun, -⟩ := numberAll_of_perm (perm_of_namesEachOnce h)
    exact ⟨numbers, hrun⟩

/-- So the numbering alone decides, and nothing has to be looked for afterwards. -/
theorem exists_inverse?_iff : (∃ newOf, inverse? oldOf = some newOf) ↔ NamesEachOnce oldOf := by
  rw [← exists_numberAll_iff, inverse?]
  constructor
  · rintro ⟨newOf, h⟩
    obtain ⟨numbers, hrun, -⟩ := Option.bind_eq_some_iff.mp h
    exact ⟨numbers, hrun⟩
  · rintro ⟨numbers, hrun⟩
    exact ⟨_, by rw [hrun]; rfl⟩

theorem inverse?_eq_none_iff : inverse? oldOf = none ↔ ¬ NamesEachOnce oldOf := by
  rw [← exists_inverse?_iff, ← Option.ne_none_iff_exists', not_not]

theorem Renumbers.symm (h : Renumbers n ⟨oldOf, newOf⟩ old new) :
    Renumbers n ⟨newOf, oldOf⟩ new old :=
  ⟨h.newOf, h.oldOf, h.new_lt, h.old_lt, h.old_new, h.new_old⟩

/-- A list has one inverse at most. -/
theorem Renumbers.unique {newOf' : Array Nat} {old' new' : Nat → Nat}
    (h : Renumbers n ⟨oldOf, newOf⟩ old new) (h' : Renumbers n ⟨oldOf, newOf'⟩ old' new') :
    newOf = newOf' := by
  refine h.newOf.ext h'.newOf fun i hi => ?_
  have hold : old' (new i) = i := by
    have hget := h'.oldOf.get _ (h.new_lt i hi)
    rw [h.oldOf.get _ (h.new_lt i hi), h.old_new i hi, Option.some.injEq] at hget
    exact hget.symm
  rw [← h'.new_old _ (h.new_lt i hi), hold]

theorem inverse?_eq_some_iff : inverse? oldOf = some newOf ↔
    ∃ old new, Renumbers oldOf.size ⟨oldOf, newOf⟩ old new := by
  refine ⟨renumbers_of_inverse?, fun ⟨old, new, h⟩ => ?_⟩
  obtain ⟨newOf', hrun⟩ := exists_inverse?_iff.mpr h.namesEachOnce
  obtain ⟨old', new', h'⟩ := renumbers_of_inverse? hrun
  rw [hrun, h.unique h']

/-- Inverting twice gives back the list. -/
theorem inverse?_inverse? (h : inverse? oldOf = some newOf) : inverse? newOf = some oldOf := by
  obtain ⟨old, new, hr⟩ := inverse?_eq_some_iff.mp h
  have hsize : newOf.size = oldOf.size := hr.newOf.size_eq
  exact inverse?_eq_some_iff.mpr ⟨new, old, hsize ▸ hr.symm⟩

/-- The two readings undo each other. -/
theorem Renumbers.get?_get? (h : Renumbers n ⟨oldOf, newOf⟩ old new) {i : Nat} (hi : i < n) :
    newOf[i]?.bind (oldOf[·]?) = some i ∧ oldOf[i]?.bind (newOf[·]?) = some i := by
  rw [h.newOf.get i hi, h.oldOf.get i hi, Option.bind_some, Option.bind_some,
    h.oldOf.get _ (h.new_lt i hi), h.newOf.get _ (h.old_lt i hi), h.old_new i hi, h.new_old i hi]
  exact ⟨rfl, rfl⟩

end Bijection

section Order

variable {α : Type} {method : Method} {a : Csc α} {r : Renumbering}

theorem renumbering_eq_ok (h : (renumbering method a).run = some (.ok r)) :
    ∃ old new, Renumbers a.ncols r old new := by
  rw [renumbering, Checked.run_bind_eq_ok] at h
  obtain ⟨oldOf, -, h⟩ := h
  rw [Checked.run_guard_eq_ok, not_not] at h
  obtain ⟨hsize, h⟩ := h
  cases hinv : inverse? oldOf with
  | none => simp [hinv] at h
  | some newOf =>
      rw [hinv] at h
      obtain rfl : ⟨oldOf, newOf⟩ = r := by simpa using h
      exact hsize ▸ renumbers_of_inverse? hinv

theorem renumbering_of_perm {oldOf : Array Nat}
    (h : (method.order (.ofMatrix a)).run = some (.ok oldOf))
    (hperm : oldOf.toList.Perm (List.range a.ncols)) :
    ∃ r, (renumbering method a).run = some (.ok r) ∧ r.oldOf = oldOf := by
  have hsize : oldOf.size = a.ncols := by
    rw [← Array.length_toList, hperm.length_eq, List.length_range]
  obtain ⟨newOf, hnew⟩ := inverse?_of_perm (hsize ▸ hperm)
  refine ⟨⟨oldOf, newOf⟩, ?_, rfl⟩
  rw [renumbering, Checked.run_bind_ok h, Checked.run_guard, if_neg (not_not_intro hsize), hnew]
  rfl

/-- The order is chosen by the pattern alone. -/
theorem renumbering_congr (method : Method) {b : Csc α} (hn : a.ncols = b.ncols)
    (hp : a.colPtr = b.colPtr) (hr : a.rowIdx = b.rowIdx) :
    renumbering method a = renumbering method b := by
  rw [renumbering, renumbering, Pattern.ofMatrix, Pattern.ofMatrix, hn, hp, hr]

/-! ## What becomes of an order -/

theorem renumbering_of_order {oldOf : Array Nat}
    (h : (method.order (.ofMatrix a)).run = some (.ok oldOf)) :
    (renumbering method a).run =
      if oldOf.size ≠ a.ncols then some (.error (.wrongLength a.ncols oldOf.size))
      else
        match inverse? oldOf with
        | some newOf => some (.ok ⟨oldOf, newOf⟩)
        | none => some (.error .notPermutation) := by
  rw [renumbering, Checked.run_bind_ok h, Checked.run_guard]
  cases inverse? oldOf <;> rfl

/-- Whatever a method returns is renumbered by, if it is a bijection of the right length, and
refused otherwise. Which lists are bijections, the numbering finds out by itself. -/
theorem renumbered_or_refused (method : Method) (a : Csc α) :
    ((method.order (.ofMatrix a)).run = none → (renumbering method a).run = none) ∧
    (∀ e, (method.order (.ofMatrix a)).run = some (.error e) →
      (renumbering method a).run = some (.error e)) ∧
    (∀ oldOf, (method.order (.ofMatrix a)).run = some (.ok oldOf) →
      ((renumbering method a).run = some (.error (.wrongLength a.ncols oldOf.size)) ↔
        oldOf.size ≠ a.ncols) ∧
      ((renumbering method a).run = some (.error .notPermutation) ↔
        oldOf.size = a.ncols ∧ ¬ NamesEachOnce oldOf) ∧
      (oldOf.size = a.ncols ∧ NamesEachOnce oldOf →
        ∃ newOf, (renumbering method a).run = some (.ok ⟨oldOf, newOf⟩) ∧
          newOf.size = a.ncols ∧ ∀ i < a.ncols,
            newOf[i]?.bind (oldOf[·]?) = some i ∧ oldOf[i]?.bind (newOf[·]?) = some i)) ∧
    ∀ oldOf, (inverse? oldOf = none ↔ ¬ NamesEachOnce oldOf) ∧
      ∀ newOf, inverse? oldOf = some newOf → inverse? newOf = some oldOf := by
  refine ⟨fun h => ?_, fun e h => ?_, fun oldOf h => ?_, fun oldOf =>
    ⟨inverse?_eq_none_iff, fun newOf => inverse?_inverse?⟩⟩
  · rw [renumbering, Checked.run_bind, h]
  · rw [renumbering, Checked.run_bind_error h]
  · rw [renumbering_of_order h, ← inverse?_eq_none_iff]
    by_cases hsize : oldOf.size = a.ncols
    · rw [if_neg (not_not_intro hsize)]
      cases hinv : inverse? oldOf with
      | none =>
          refine ⟨by simp [hsize], by simp [hsize], fun hn => ?_⟩
          exact absurd hn.2 (inverse?_eq_none_iff.mp hinv)
      | some newOf =>
          obtain ⟨old, new, hr⟩ := inverse?_eq_some_iff.mp hinv
          rw [hsize] at hr
          exact ⟨by simp [hsize], by simp, fun _ =>
            ⟨newOf, rfl, hr.newOf.size_eq, fun i hi => hr.get?_get? hi⟩⟩
    · rw [if_pos hsize]
      exact ⟨by simp [hsize], by simp [hsize], fun hn => absurd hn.1 hsize⟩

/-- A method that returns one list, whatever it is asked. -/
def fixed (oldOf : Array Nat) : Method := ⟨"custom", fun _ => pure oldOf⟩

theorem renumbered_or_refused_cycle :
    (renumbering (fixed #[2, 0, 1]) (Csc.empty (α := Nat) 3 3)).run =
        some (.ok ⟨#[2, 0, 1], #[1, 2, 0]⟩) ∧
      (renumbering (fixed #[0, 0, 1]) (Csc.empty (α := Nat) 3 3)).run =
        some (.error .notPermutation) ∧
      (renumbering (fixed #[0]) (Csc.empty (α := Nat) 3 3)).run =
        some (.error (.wrongLength 3 1)) := by
  have hinv : inverse? #[2, 0, 1] = some #[1, 2, 0] := by decide
  obtain ⟨-, -, hcycle, -⟩ := renumbered_or_refused (fixed #[2, 0, 1]) (Csc.empty (α := Nat) 3 3)
  obtain ⟨-, -, hrepeated, hbijective⟩ :=
    renumbered_or_refused (fixed #[0, 0, 1]) (Csc.empty (α := Nat) 3 3)
  obtain ⟨-, -, hshort, -⟩ := renumbered_or_refused (fixed #[0]) (Csc.empty (α := Nat) 3 3)
  refine ⟨?_, ?_, ((hshort #[0] rfl).1).mpr (by decide)⟩
  · obtain ⟨newOf, hrun, -, hread⟩ :=
      (hcycle #[2, 0, 1] rfl).2.2 ⟨rfl, exists_inverse?_iff.mp ⟨_, hinv⟩⟩
    rw [renumbering_of_order rfl, if_neg (by decide), hinv]
  · exact ((hrepeated #[0, 0, 1] rfl).2.1).mpr ⟨rfl, (hbijective _).1.mp (by decide)⟩

end Order

end Saddle.Elimination
