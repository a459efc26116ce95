import Mathlib.Data.List.Basic
import Mathlib.Logic.Function.Basic
import Saddle.Proofs.Access
import Saddle.Elimination.DegreeBuckets

/-!
# The buckets as lists

What the linked lists stand for is a function that gives each degree the list of its
nodes, front first. Inserting a node puts it in front of a list and removing it erases
it, wherever in the list it is; no other list changes. The links say nothing about
nodes that are in no list, and need not: no operation looks at them before it has
written them.

The invariant describes the links by the ways in which a list can be split at one of
its nodes: `after` holds the head of what follows, `before` the end of what precedes.
An operation changes the links of at most three nodes, and these are found by looking
at where a split of the new list falls in the old one.
-/

namespace Saddle.Elimination.DegreeBuckets

/-! ## Links -/

section Links

variable {β : Type} {xs : Array β} {i : Nat} {x : β}

theorem write_spec (hi : i < xs.size) (x : β) :
    ∃ ys, Access.write xs i x = some ys ∧ ys.size = xs.size ∧
      ∀ j : Nat, ys[j]? = if j = i then some x else xs[j]? := by
  refine ⟨_, Access.write_of_lt hi, Array.size_setIfInBounds, fun j => ?_⟩
  rw [Array.getElem?_setIfInBounds]
  by_cases hij : i = j
  · subst hij
    simp [hi]
  · rw [if_neg hij, if_neg (Ne.symm hij)]

theorem link_spec {links : Array (Option Nat)} {node : Option Nat}
    (h : ∀ i ∈ node, i < links.size) (neighbour : Option Nat) :
    ∃ links', link links node neighbour = some links' ∧ links'.size = links.size ∧
      ∀ j : Nat, links'[j]? = if node = some j then some neighbour else links[j]? := by
  cases node with
  | none => exact ⟨links, rfl, rfl, fun j => by simp⟩
  | some i =>
      obtain ⟨links', hwrite, hsize, hget⟩ := write_spec (h i rfl) neighbour
      refine ⟨links', hwrite, hsize, fun j => ?_⟩
      rw [hget]
      simp only [Option.some.injEq, eq_comm]

end Links

/-! ## Link by link -/

/-- The buckets are as large as before. -/
structure SameSize (b b' : DegreeBuckets) : Prop where
  first : b'.first.size = b.first.size
  after : b'.after.size = b.after.size
  before : b'.before.size = b.before.size

section Run

variable {b : DegreeBuckets} {i d : Nat} {following preceding : Option Nat}

theorem insert_run (hd : b.first[d]? = some following) (hi : i < b.after.size)
    (hi' : i < b.before.size) (hf : ∀ j ∈ following, j < b.before.size) :
    ∃ b', b.insert i d = some b' ∧ SameSize b b' ∧
      (∀ e : Nat, b'.first[e]? = if e = d then some (some i) else b.first[e]?) ∧
      (∀ j : Nat, b'.after[j]? = if j = i then some following else b.after[j]?) ∧
      ∀ j : Nat, b'.before[j]? =
        if j = i then some none
        else if following = some j then some (some i) else b.before[j]? := by
  obtain ⟨hdlt, -⟩ := Array.getElem?_eq_some_iff.mp hd
  obtain ⟨linked, hlink, hsize, hget⟩ := link_spec hf (some i)
  obtain ⟨first, hfirst, hsize₁, hget₁⟩ := write_spec hdlt (some i)
  obtain ⟨after, hafter, hsize₂, hget₂⟩ := write_spec hi following
  obtain ⟨before, hbefore, hsize₃, hget₃⟩ :=
    write_spec (show i < linked.size by rw [hsize]; exact hi') none
  refine ⟨⟨first, after, before⟩, ?_, ⟨hsize₁, hsize₂, hsize₃.trans hsize⟩, hget₁, hget₂,
    fun j => ?_⟩
  · rw [DegreeBuckets.insert, hd]
    simp only [Option.bind_eq_bind, Option.bind_some, hlink, hfirst, hafter, hbefore]
    rfl
  · show before[j]? = _
    rw [hget₃, hget]

theorem remove_run (hd : d < b.first.size) (ha : b.after[i]? = some following)
    (hb : b.before[i]? = some preceding) (hf : ∀ j ∈ following, j < b.before.size)
    (hp : ∀ j ∈ preceding, j < b.after.size) :
    ∃ b', b.remove i d = some b' ∧ SameSize b b' ∧
      (∀ e : Nat, b'.first[e]? = if preceding = none ∧ e = d then some following else b.first[e]?) ∧
      (∀ j : Nat, b'.after[j]? = if preceding = some j then some following else b.after[j]?) ∧
      ∀ j : Nat, b'.before[j]? = if following = some j then some preceding else b.before[j]? := by
  obtain ⟨before, hlink, hsize, hget⟩ := link_spec hf preceding
  cases preceding with
  | none =>
      obtain ⟨first, hfirst, hsize₁, hget₁⟩ := write_spec hd following
      refine ⟨⟨first, b.after, before⟩, ?_, ⟨hsize₁, rfl, hsize⟩, fun e => ?_, fun j => ?_, hget⟩
      · rw [DegreeBuckets.remove, ha, hb]
        simp only [Option.bind_eq_bind, Option.bind_some, hlink, hfirst]
        rfl
      · simp [hget₁]
      · simp
  | some k =>
      obtain ⟨after, hafter, hsize₁, hget₁⟩ := write_spec (hp k rfl) following
      refine ⟨⟨b.first, after, before⟩, ?_, ⟨rfl, hsize₁, hsize⟩, fun e => ?_, fun j => ?_, hget⟩
      · rw [DegreeBuckets.remove, ha, hb]
        simp only [Option.bind_eq_bind, Option.bind_some, hlink, hafter]
        rfl
      · simp
      · show after[j]? = _
        rw [hget₁]
        simp only [Option.some.injEq, eq_comm]

end Run

/-! ## One list -/

/-- The links lead through the list in both directions. -/
def Linked (after before : Nat → Option (Option Nat)) (xs : List Nat) : Prop :=
  ∀ l i r, xs = l ++ i :: r → after i = some r.head? ∧ before i = some l.getLast?

section Linked

variable {after before after' before' : Nat → Option (Option Nat)} {xs l r : List Nat} {i : Nat}

theorem Linked.congr (h : Linked after before xs) (ha : ∀ j ∈ xs, after' j = after j)
    (hb : ∀ j ∈ xs, before' j = before j) : Linked after' before' xs := by
  intro l j r hs
  have hj : j ∈ xs := by rw [hs]; simp
  rw [ha j hj, hb j hj]
  exact h l j r hs

/-- A new node in front: its own links are set, and the way back from the old front. -/
theorem Linked.cons (h : Linked after before xs) (hnodup : (i :: xs).Nodup)
    (ha : ∀ j, after' j = if j = i then some xs.head? else after j)
    (hb : ∀ j, before' j =
      if j = i then some none else if xs.head? = some j then some (some i) else before j) :
    Linked after' before' (i :: xs) := by
  intro l j r hs
  rw [ha, hb]
  cases l with
  | nil =>
      obtain ⟨rfl, rfl⟩ := List.cons.inj hs
      rw [if_pos rfl, if_pos rfl]
      exact ⟨rfl, rfl⟩
  | cons y l =>
      obtain ⟨rfl, hxs⟩ : i = y ∧ xs = l ++ j :: r := List.cons.inj hs
      rw [List.nodup_cons] at hnodup
      have hji : j ≠ i := fun heq => hnodup.1 (by rw [hxs, heq]; simp)
      obtain ⟨hafter, hbefore⟩ := h l j r hxs
      rw [if_neg hji, if_neg hji]
      refine ⟨hafter, ?_⟩
      cases l with
      | nil =>
          rw [if_pos (by rw [hxs]; rfl)]
          rfl
      | cons z l =>
          have hzj : z ≠ j := by
            have hz := hnodup.2
            rw [hxs, List.cons_append, List.nodup_cons] at hz
            exact fun heq => hz.1 (heq ▸ by simp)
          rw [if_neg (by rw [hxs]; simpa using hzj), List.getLast?_cons_cons]
          exact hbefore

/-- A split of a list with a gap is a split on one side of the gap. -/
theorem append_eq_append_cons {l r l' r' : List Nat} {j : Nat} (h : l ++ r = l' ++ j :: r') :
    (∃ m, l = l' ++ j :: m ∧ r' = m ++ r) ∨ ∃ m, l' = l ++ m ∧ r = m ++ j :: r' := by
  rcases List.append_eq_append_iff.mp h with ⟨m, hl, hr⟩ | ⟨m, hl, hr⟩
  · exact Or.inr ⟨m, hl, hr⟩
  · cases m with
    | nil => exact Or.inr ⟨[], by rw [hl]; simp, hr.symm⟩
    | cons y m =>
        obtain ⟨rfl, hr'⟩ : j = y ∧ r' = m ++ r := List.cons.inj hr
        exact Or.inl ⟨m, hl, hr'⟩

/-- A node taken out of the middle: what precedes and what follows are joined. -/
theorem Linked.remove (h : Linked after before (l ++ i :: r)) (hnodup : (l ++ i :: r).Nodup)
    (ha : ∀ j, after' j = if l.getLast? = some j then some r.head? else after j)
    (hb : ∀ j, before' j = if r.head? = some j then some l.getLast? else before j) :
    Linked after' before' (l ++ r) := by
  intro l' j r' hs
  rw [ha, hb]
  rw [List.nodup_append, List.nodup_cons] at hnodup
  obtain ⟨hl, ⟨-, hr⟩, hlr⟩ := hnodup
  rcases append_eq_append_cons hs with ⟨m, rfl, rfl⟩ | ⟨m, rfl, rfl⟩
  · -- The split is before the gap, and only the way forward can lead across it.
    obtain ⟨hafter, hbefore⟩ := h l' j (m ++ i :: r) (by simp)
    have hhead : r.head? ≠ some j := fun heq =>
      hlr j (by simp) j (List.mem_cons_of_mem _ (List.mem_of_mem_head? heq)) rfl
    rw [if_neg hhead]
    refine ⟨?_, hbefore⟩
    rw [List.nodup_append, List.nodup_cons] at hl
    cases m with
    | nil =>
        rw [if_pos (by simp)]
        rfl
    | cons y m =>
        have hlast : (l' ++ j :: y :: m).getLast? ≠ some j := by
          rw [List.getLast?_append_of_ne_nil _ (by simp), List.getLast?_cons_cons]
          exact fun heq => hl.2.1.1 (List.mem_of_getLast? heq)
        rw [if_neg hlast]
        exact hafter
  · -- The split is behind the gap, and only the way back can.
    obtain ⟨hafter, hbefore⟩ := h (l ++ i :: m) j r' (by simp)
    have hlast : l.getLast? ≠ some j := fun heq =>
      hlr j (List.mem_of_getLast? heq) j (by simp) rfl
    rw [if_neg hlast]
    refine ⟨hafter, ?_⟩
    cases m with
    | nil =>
        rw [if_pos (by simp), List.append_nil]
    | cons z m =>
        have hzj : z ≠ j := by
          rw [List.cons_append, List.nodup_cons] at hr
          exact fun heq => hr.1 (heq ▸ by simp)
        rw [if_neg (by simpa using hzj), hbefore, List.getLast?_append_of_ne_nil _ (by simp),
          List.getLast?_append_of_ne_nil _ (by simp), List.getLast?_cons_cons]

end Linked

/-! ## All lists -/

/-- The buckets hold the nodes of the lists that `f` has below `n`, in the order of the lists. -/
structure Holds (b : DegreeBuckets) (n : Nat) (f : Nat → List Nat) : Prop where
  size_first : b.first.size = n
  size_after : b.after.size = n
  size_before : b.before.size = n
  first : ∀ d < n, b.first[d]? = some (f d).head?
  linked : ∀ d < n, Linked (b.after[·]?) (b.before[·]?) (f d)
  nodup : ∀ d < n, (f d).Nodup
  disjoint : ∀ d < n, ∀ e < n, ∀ i, i ∈ f d → i ∈ f e → d = e

theorem holds_empty (n : Nat) : (empty n).Holds n fun _ => [] where
  size_first := Array.size_replicate
  size_after := Array.size_replicate
  size_before := Array.size_replicate
  first d hd := by simp [empty, hd]
  linked d _ l i r h := by simp at h
  nodup d _ := List.nodup_nil
  disjoint d _ e _ i h := nomatch h

section Holds

variable {b : DegreeBuckets} {n : Nat} {f : Nat → List Nat} {d i : Nat}

theorem Holds.lt (h : b.Holds n f) (hd : d < n) (hi : i ∈ f d) : i < n := by
  obtain ⟨l, r, hsplit⟩ := List.append_of_mem hi
  obtain ⟨hlt, -⟩ := Array.getElem?_eq_some_iff.mp (h.linked d hd l i r hsplit).1
  rwa [h.size_after] at hlt

/-- What changes one list leaves the links of the others as they are. -/
theorem Holds.update (h : b.Holds n f) {b' : DegreeBuckets} {xs : List Nat} (hsize : SameSize b b')
    (hhead : ∀ e, b'.first[e]? = if e = d then some xs.head? else b.first[e]?)
    (hlinked : Linked (b'.after[·]?) (b'.before[·]?) xs) (hnodup : xs.Nodup)
    (hfresh : ∀ e < n, e ≠ d → ∀ j ∈ f e, j ∉ xs)
    (hsame : ∀ e < n, e ≠ d → ∀ j ∈ f e,
      b'.after[j]? = b.after[j]? ∧ b'.before[j]? = b.before[j]?) :
    b'.Holds n (Function.update f d xs) := by
  refine {
    size_first := hsize.first.trans h.size_first
    size_after := hsize.after.trans h.size_after
    size_before := hsize.before.trans h.size_before
    first := fun e he => ?_
    linked := fun e he => ?_
    nodup := fun e he => ?_
    disjoint := fun e he e' he' j hj hj' => ?_ }
  · rw [hhead, Function.update_apply]
    split
    · rfl
    · exact h.first e he
  · by_cases hed : e = d
    · rw [hed, Function.update_self]
      exact hlinked
    · rw [Function.update_of_ne hed]
      exact (h.linked e he).congr (fun j hj => (hsame e he hed j hj).1)
        fun j hj => (hsame e he hed j hj).2
  · rw [Function.update_apply]
    split
    · exact hnodup
    · exact h.nodup e he
  · by_cases hed : e = d <;> by_cases hed' : e' = d
    · rw [hed, hed']
    · rw [hed, Function.update_self] at hj
      rw [Function.update_of_ne hed'] at hj'
      exact absurd hj (hfresh e' he' hed' j hj')
    · rw [Function.update_of_ne hed] at hj
      rw [hed', Function.update_self] at hj'
      exact absurd hj' (hfresh e he hed j hj)
    · rw [Function.update_of_ne hed] at hj
      rw [Function.update_of_ne hed'] at hj'
      exact h.disjoint e he e' he' j hj hj'

/-- A node that is in no list goes in front of the list of its degree. -/
theorem Holds.insert (h : b.Holds n f) (hd : d < n) (hi : i < n) (hnew : ∀ e < n, i ∉ f e) :
    ∃ b', b.insert i d = some b' ∧ b'.Holds n (Function.update f d (i :: f d)) := by
  have hhead : ∀ j ∈ (f d).head?, j ∈ f d := fun j hj => List.mem_of_mem_head? hj
  obtain ⟨b', hrun, hsize, hfirst, hafter, hbefore⟩ := insert_run (h.first d hd)
    (h.size_after.symm ▸ hi) (h.size_before.symm ▸ hi)
    fun j hj => h.size_before.symm ▸ h.lt hd (hhead j hj)
  have hnodup : (i :: f d).Nodup := List.nodup_cons.mpr ⟨hnew d hd, h.nodup d hd⟩
  refine ⟨b', hrun, h.update hsize hfirst ((h.linked d hd).cons hnodup hafter hbefore) hnodup
    (fun e he hed j hj hmem => ?_) fun e he hed j hj => ?_⟩
  · rcases List.mem_cons.mp hmem with rfl | hmem
    · exact hnew e he hj
    · exact hed (h.disjoint e he d hd j hj hmem)
  · have hji : j ≠ i := fun heq => hnew e he (heq ▸ hj)
    have hne : (f d).head? ≠ some j := fun heq => hed (h.disjoint e he d hd j hj (hhead j heq))
    rw [hafter, hbefore, if_neg hji, if_neg hji, if_neg hne]
    exact ⟨rfl, rfl⟩

/-- A node is taken out of the list of its degree. -/
theorem Holds.remove (h : b.Holds n f) (hd : d < n) (hi : i ∈ f d) :
    ∃ b', b.remove i d = some b' ∧ b'.Holds n (Function.update f d ((f d).erase i)) := by
  obtain ⟨l, r, hsplit⟩ := List.append_of_mem hi
  obtain ⟨hafteri, hbeforei⟩ := h.linked d hd l i r hsplit
  have hlast : ∀ j ∈ l.getLast?, j ∈ f d := fun j hj => by
    rw [hsplit]
    exact List.mem_append_left _ (List.mem_of_getLast? hj)
  have hhead : ∀ j ∈ r.head?, j ∈ f d := fun j hj => by
    rw [hsplit]
    exact List.mem_append_right _ (List.mem_cons_of_mem _ (List.mem_of_mem_head? hj))
  obtain ⟨b', hrun, hsize, hfirst, hafter, hbefore⟩ := remove_run (h.size_first.symm ▸ hd)
    hafteri hbeforei (fun j hj => h.size_before.symm ▸ h.lt hd (hhead j hj))
    fun j hj => h.size_after.symm ▸ h.lt hd (hlast j hj)
  have hnodup := h.nodup d hd
  have hlinked := h.linked d hd
  rw [hsplit] at hnodup hlinked
  have herase : (f d).erase i = l ++ r := by
    have hil : i ∉ l := fun hmem => (List.nodup_append.mp hnodup).2.2 i hmem i (by simp) rfl
    rw [hsplit, List.erase_append_right _ hil, List.erase_cons_head]
  refine ⟨b', hrun, h.update hsize (fun e => ?_) ?_ ((h.nodup d hd).erase i)
    (fun e he hed j hj hmem => ?_) fun e he hed j hj => ?_⟩
  · rw [hfirst, herase]
    have hfirstd := h.first d hd
    rw [hsplit] at hfirstd
    cases l with
    | nil => simp
    | cons k l =>
        rw [if_neg (by simp)]
        split
        · next hed => rw [hed, hfirstd]; rfl
        · rfl
  · rw [herase]
    exact hlinked.remove hnodup hafter hbefore
  · exact hed (h.disjoint e he d hd j hj (List.mem_of_mem_erase hmem))
  · have hnot : j ∉ f d := fun hmem => hed (h.disjoint e he d hd j hj hmem)
    have hlastj : l.getLast? ≠ some j := fun heq => hnot (hlast j heq)
    have hheadj : r.head? ≠ some j := fun heq => hnot (hhead j heq)
    rw [hafter, hbefore, if_neg hlastj, if_neg hheadj]
    exact ⟨rfl, rfl⟩

/-- A search upwards from `low` that finds something has found it at the first place. -/
theorem exists_of_findSome?_range' {β : Type} {g : Nat → Option β} {low m : Nat} {y : β}
    (h : (List.range' low m).findSome? g = some y) :
    ∃ e, low ≤ e ∧ e < low + m ∧ g e = some y ∧ ∀ e', low ≤ e' → e' < e → g e' = none := by
  induction m generalizing low with
  | zero => cases h
  | succ m ih =>
      rw [List.range'_succ, List.findSome?_cons] at h
      cases hlow : g low with
      | some x =>
          rw [hlow] at h
          exact ⟨low, Nat.le_refl _, by omega, hlow.trans h, fun e' hle hlt => by omega⟩
      | none =>
          rw [hlow] at h
          obtain ⟨e, hle, hlt, hvalue, hbelow⟩ := ih h
          refine ⟨e, by omega, by omega, hvalue, fun e' hle' hlt' => ?_⟩
          rcases Nat.eq_or_lt_of_le hle' with rfl | hlow'
          · exact hlow
          · exact hbelow e' hlow' hlt'

/-- The search finds the front of the first list, from the given degree on, that is not
empty. -/
theorem Holds.firstFrom (h : b.Holds n f) {low : Nat} (hd : d < n) (hlow : low ≤ d)
    (hne : f d ≠ []) :
    ∃ e i rest, b.firstFrom low = some (e, i) ∧ low ≤ e ∧ e < n ∧ f e = i :: rest ∧
      ∀ e', low ≤ e' → e' < e → f e' = [] := by
  have hread : ∀ e < n, (b.first[e]?).join.map (fun i => (e, i)) =
      (f e).head?.map fun i => (e, i) := by
    intro e he
    rw [h.first e he]
    rfl
  have hsome : (b.firstFrom low).isSome := by
    rw [DegreeBuckets.firstFrom, List.findSome?_isSome_iff]
    refine ⟨d, ?_, ?_⟩
    · rw [h.size_first, List.mem_range'_1]
      omega
    · obtain ⟨i, rest, hcons⟩ := List.exists_cons_of_ne_nil hne
      rw [hread d hd, hcons]
      rfl
  obtain ⟨⟨e, i⟩, hfound⟩ := Option.isSome_iff_exists.mp hsome
  have hfound' := hfound
  rw [DegreeBuckets.firstFrom, h.size_first] at hfound'
  obtain ⟨x, hlowx, hx, hvalue, hbelow⟩ := exists_of_findSome?_range' hfound'
  rw [hread x (by omega), Option.map_eq_some_iff] at hvalue
  obtain ⟨j, hj, heq⟩ := hvalue
  obtain ⟨rfl, rfl⟩ := Prod.mk.inj heq
  obtain ⟨rest, hrest⟩ := List.head?_eq_some_iff.mp hj
  refine ⟨x, j, rest, hfound, hlowx, by omega, hrest, fun e' hlow' hlt => ?_⟩
  have hnone := hbelow e' hlow' hlt
  rw [hread e' (by omega), Option.map_eq_none_iff] at hnone
  exact List.head?_eq_none_iff.mp hnone

end Holds

end Saddle.Elimination.DegreeBuckets
