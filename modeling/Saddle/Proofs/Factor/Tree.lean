import Mathlib.Logic.Relation
import Mathlib.Tactic.ByContra
import Saddle.Proofs.Sparse.Pattern
import Saddle.Factor.Symbolic

/-!
# What the analysis finds

Row `k` of the factor has an entry in column `i` exactly if `i` lies below `k` on
a path of the elimination tree that starts at an entry of column `k`. The analysis
counts these entries while it builds the tree, so that it walks paths of a tree
that is not finished: a node without a parent becomes a child of the column at
hand, and later columns add nodes above it.

That is no loss. A parent once given is never taken back, and a node that is
counted for row `k` has a parent that is at most `k` from then on. So the pattern
of row `k`, read off any later tree, is the one that was walked: paths only grow
at nodes that have no parent, and none of those is below `k` on a path of row `k`.
The invariant of the outer loop says this of the rows before the column at hand;
that of the inner loop says that the marked nodes are closed under taking
parents, but for the one that the climb stands at.

Marks mean something below the column at hand only. There each is of a column that
has been walked, so that none is mistaken for one of the column at hand; behind it
nothing has been marked, and column 0 would find its own mark everywhere.
-/

namespace Saddle.Factor

variable {α : Type}

/-- The tree has `p` above `i`. -/
def Parent (parent : Array (Option Nat)) (i p : Nat) : Prop := parent[i]? = some (some p)

/-- The path up from `r` meets `i`; it meets `r`. -/
def Above (parent : Array (Option Nat)) : Nat → Nat → Prop :=
  Relation.ReflTransGen (Parent parent)

/-- Row `k` of the factor has an entry in column `i`. -/
def InRow (a : Csc α) (parent : Array (Option Nat)) (k i : Nat) : Prop :=
  i < k ∧ ∃ e ∈ a.col k, Above parent e.1 i

open Classical in
/-- The rows before row `k` that have an entry in column `i` of the factor. -/
noncomputable def rowsBefore (a : Csc α) (parent : Array (Option Nat)) (k i : Nat) : List Nat :=
  (List.range k).filter fun k => InRow a parent k i

/-- What an analysis of `a` says of its factor. -/
structure Analyzed (a : Csc α) (s : Symbolic) : Prop where
  n_eq : s.n = a.ncols
  size_parent : s.parent.size = a.ncols
  size_counts : s.counts.size = a.ncols
  rising : ∀ i p, Parent s.parent i p → i < p ∧ p < a.ncols
  parent_le : ∀ k < a.ncols, ∀ i, InRow a s.parent k i → ∃ p, Parent s.parent i p ∧ p ≤ k
  parent_row : ∀ i p, Parent s.parent i p → InRow a s.parent p i
  counts_eq : ∀ i < a.ncols, s.counts[i]? = some (rowsBefore a s.parent a.ncols i).length
  total_eq : s.total = s.counts.sum

/-! ## Paths -/

section Paths

variable {parent parent' : Array (Option Nat)} {r i p k : Nat}

theorem Parent.unique (h : Parent parent i p) {q : Nat} (h' : Parent parent i q) : p = q := by
  rw [Parent, h] at h'
  simpa using h'

theorem Above.mono (hp : ∀ i p, Parent parent i p → Parent parent' i p)
    (h : Above parent r i) : Above parent' r i :=
  Relation.ReflTransGen.mono hp _ _ h

theorem Above.le (hrise : ∀ i p, Parent parent i p → i < p) (h : Above parent r i) : r ≤ i := by
  induction h with
  | refl => exact Nat.le_refl _
  | tail _ hp ih => exact Nat.le_of_lt (Nat.lt_of_le_of_lt ih (hrise _ _ hp))

variable {a : Csc α}

theorem InRow.lt (h : InRow a parent k i) : i < k := h.1

theorem InRow.of_entry {e : Nat × α} (he : e ∈ a.col k) (hk : e.1 < k) :
    InRow a parent k e.1 :=
  ⟨hk, e, he, Relation.ReflTransGen.refl⟩

theorem InRow.up (h : InRow a parent k i) (hp : Parent parent i p) (hk : p < k) :
    InRow a parent k p := by
  obtain ⟨_, e, he, hr⟩ := h
  exact ⟨hk, e, he, hr.tail hp⟩

theorem InRow.mono (hp : ∀ i p, Parent parent i p → Parent parent' i p)
    (h : InRow a parent k i) : InRow a parent' k i := by
  obtain ⟨hk, e, he, hr⟩ := h
  exact ⟨hk, e, he, hr.mono hp⟩

/-- A set that holds the entries of column `k` and the parents of its members
holds row `k`. -/
theorem InRow.mem_of_closed {S : Nat → Prop} (hrise : ∀ i p, Parent parent i p → i < p)
    (hentry : ∀ e ∈ a.col k, e.1 < k → S e.1)
    (hclosed : ∀ i p, S i → Parent parent i p → p < k → S p)
    (h : InRow a parent k i) : S i := by
  obtain ⟨hk, e, he, hr⟩ := h
  induction hr with
  | refl => exact hentry e he hk
  | tail _ hp ih =>
      have hlt := hrise _ _ hp
      exact hclosed _ _ (ih (by omega)) hp hk

/-- A column of row `k` has `k` above it. -/
theorem InRow.above (hrise : ∀ i p, Parent parent i p → i < p)
    (hle : ∀ i, InRow a parent k i → ∃ p, Parent parent i p ∧ p ≤ k) (h : InRow a parent k i) :
    Above parent i k := by
  obtain ⟨d, hd⟩ : ∃ d, k - i = d := ⟨_, rfl⟩
  induction d using Nat.strong_induction_on generalizing i with
  | _ d ih =>
      obtain ⟨p, hp, hpk⟩ := hle i h
      have hlt := hrise i p hp
      rcases Nat.lt_or_eq_of_le hpk with hpk | rfl
      · exact Relation.ReflTransGen.head hp (ih (k - p) (by omega) (h.up hp hpk) rfl)
      · exact Relation.ReflTransGen.single hp

/-- More nodes of the tree get a parent, but no row that was walked before
changes. -/
theorem inRow_iff_of_extends (hext : ∀ i p, Parent parent i p → Parent parent' i p)
    (hrise : ∀ i p, Parent parent' i p → i < p)
    (hparent : ∀ i, InRow a parent k i → ∃ p, Parent parent i p) :
    InRow a parent' k i ↔ InRow a parent k i := by
  refine ⟨fun h => ?_, fun h => h.mono hext⟩
  refine h.mem_of_closed (S := InRow a parent k) hrise
    (fun e he hk => InRow.of_entry he hk) fun i p hi hp hk => ?_
  obtain ⟨q, hq⟩ := hparent i hi
  rw [(hext i q hq).unique hp] at hq
  exact hi.up hq hk

open Classical in
theorem rowsBefore_succ (a : Csc α) (parent : Array (Option Nat)) (k i : Nat) :
    rowsBefore a parent (k + 1) i =
      rowsBefore a parent k i ++ if InRow a parent k i then [k] else [] := by
  rw [rowsBefore, List.range_succ, List.filter_append, rowsBefore]
  by_cases h : InRow a parent k i <;> simp [h]

theorem mem_rowsBefore : p ∈ rowsBefore a parent k i ↔ p < k ∧ InRow a parent p i := by
  simp [rowsBefore]

theorem rowsBefore_congr (h : ∀ q < k, (InRow a parent q i ↔ InRow a parent' q i)) :
    rowsBefore a parent k i = rowsBefore a parent' k i := by
  rw [rowsBefore, rowsBefore]
  refine List.filter_congr fun q hq => ?_
  rw [decide_eq_decide]
  exact h q (List.mem_range.mp hq)

end Paths

/-! ## The climb -/

/-- Column `j` is being added to the walk `w₀`, and the climb stands at `cur`. -/
structure Climbing (a : Csc α) (w₀ : Walk) (j cur : Nat) (w : Walk) : Prop where
  size_parent : w.parent.size = a.ncols
  size_counts : w.counts.size = a.ncols
  size_seen : w.seen.size = a.ncols
  ext : ∀ i p, Parent w₀.parent i p → Parent w.parent i p
  rising : ∀ i p, Parent w.parent i p → i < p ∧ p ≤ j
  fresh : ∀ i p, Parent w.parent i p →
    Parent w₀.parent i p ∨ p = j ∧ w.seen[i]? = some j ∧ i < j
  seen_self : w.seen[j]? = some j
  closed : ∀ i < j, w.seen[i]? = some j →
    ∃ p, Parent w.parent i p ∧ (w.seen[p]? = some j ∨ p = cur)
  origin : ∀ i < j, w.seen[i]? = some j → ∃ e ∈ a.col j, Above w.parent e.1 i
  counts : ∀ i : Nat, w.counts[i]? =
    w₀.counts[i]?.map fun c => if w.seen[i]? = some j ∧ i < j then c + 1 else c
  seen_old : ∀ i < j, w.seen[i]? ≠ some j → w.seen[i]? = w₀.seen[i]?

theorem Climbing.lt_up {a : Csc α} {w₀ w : Walk} {j i : Nat} (h : Climbing a w₀ j i w)
    (hi : i < j) {o : Option Nat} (ho : w.parent[i]? = some o) :
    i < o.getD j ∧ o.getD j ≤ j := by
  cases o with
  | none => exact ⟨hi, Nat.le_refl _⟩
  | some p => exact h.rising i p ho

/-- A node that is given a parent has that one, and the others keep theirs. -/
theorem parent_write {parent : Array (Option Nat)} {i q x p : Nat} (hi : i < parent.size) :
    Parent (parent.setIfInBounds i (some q)) x p ↔
      x = i ∧ p = q ∨ x ≠ i ∧ Parent parent x p := by
  rw [Parent, Parent, Array.getElem?_setIfInBounds]
  by_cases hix : i = x
  · subst hix
    simp [hi, eq_comm]
  · simp [hix, Ne.symm hix]

/-- A node that has a parent keeps it when the one it has, or else `j`, is written again. -/
theorem Parent.write {parent : Array (Option Nat)} {i x p : Nat} {o : Option Nat}
    (h : Parent parent x p) (ho : parent[i]? = some o) (j : Nat) :
    Parent (parent.setIfInBounds i (some (o.getD j))) x p := by
  rw [parent_write (Array.getElem?_eq_some_iff.mp ho).1]
  by_cases hxi : x = i
  · subst hxi
    rw [Parent, ho, Option.some.injEq] at h
    exact Or.inl ⟨rfl, by rw [h]; rfl⟩
  · exact Or.inr ⟨hxi, h⟩

theorem seen_write {seen : Array Nat} {i j x : Nat} (hi : i < seen.size) :
    (seen.setIfInBounds i j)[x]? = some j ↔ x = i ∨ seen[x]? = some j := by
  rw [Array.getElem?_setIfInBounds]
  by_cases hix : i = x
  · subst hix
    simp [hi]
  · simp [hix, Ne.symm hix]

theorem Climbing.step {a : Csc α} {w₀ w : Walk} {j i : Nat} (h : Climbing a w₀ j i w)
    (hj : j < a.ncols) (hi : i < j) (hseen : w.seen[i]? ≠ some j) {o : Option Nat}
    (ho : w.parent[i]? = some o) (horigin : ∃ e ∈ a.col j, Above w.parent e.1 i) :
    Climbing a w₀ j (o.getD j)
      { parent := w.parent.setIfInBounds i (some (o.getD j))
        counts := w.counts.modify i (· + 1)
        seen := w.seen.setIfInBounds i j } := by
  have hip : i < w.parent.size := by rw [h.size_parent]; omega
  have his : i < w.seen.size := by rw [h.size_seen]; omega
  have hmono : ∀ x p, Parent w.parent x p →
      Parent (w.parent.setIfInBounds i (some (o.getD j))) x p := fun x p hx => hx.write ho j
  refine
    { size_parent := by simpa using h.size_parent
      size_counts := by simpa using h.size_counts
      size_seen := by simpa using h.size_seen
      ext := fun x p hx => hmono x p (h.ext x p hx)
      rising := ?_
      fresh := ?_
      seen_self := (seen_write his).mpr (Or.inr h.seen_self)
      closed := ?_
      origin := ?_
      counts := ?_
      seen_old := ?_ }
  · intro x p hx
    rcases (parent_write hip).mp hx with ⟨rfl, rfl⟩ | ⟨-, hx⟩
    · exact h.lt_up hi ho
    · exact h.rising x p hx
  · intro x p hx
    rcases (parent_write hip).mp hx with ⟨rfl, rfl⟩ | ⟨-, hx⟩
    · -- Only a node that had no parent gets a new one.
      cases o with
      | none => exact Or.inr ⟨rfl, (seen_write his).mpr (Or.inl rfl), hi⟩
      | some q => exact (h.fresh x q ho).imp_right fun hs => absurd hs.2.1 hseen
    · exact (h.fresh x p hx).imp_right fun hs =>
        ⟨hs.1, (seen_write his).mpr (Or.inr hs.2.1), hs.2.2⟩
  · intro x hxj hx
    rcases (seen_write his).mp hx with rfl | hx
    · exact ⟨o.getD j, (parent_write hip).mpr (Or.inl ⟨rfl, rfl⟩), Or.inr rfl⟩
    · obtain ⟨p, hp, hpj⟩ := h.closed x hxj hx
      exact ⟨p, hmono x p hp, Or.inl ((seen_write his).mpr hpj.symm)⟩
  · intro x hxj hx
    rcases (seen_write his).mp hx with rfl | hx
    · obtain ⟨e, he, hr⟩ := horigin
      exact ⟨e, he, hr.mono hmono⟩
    · obtain ⟨e, he, hr⟩ := h.origin x hxj hx
      exact ⟨e, he, hr.mono hmono⟩
  · intro x
    rw [Array.getElem?_modify, h.counts x]
    simp only [seen_write his]
    by_cases hix : i = x
    · subst hix
      rw [if_pos rfl, Option.map_map]
      congr 1
      funext c
      simp [hseen, hi]
    · simp [hix, Ne.symm hix]
  · intro x hxj hx
    rw [Ne, seen_write his, not_or] at hx
    rw [Array.getElem?_setIfInBounds, if_neg (Ne.symm hx.1)]
    exact h.seen_old x hxj hx.2

/-- A climb from an entry, or from a node above one, marks the nodes on its way
and ends at a mark. -/
theorem climb_spec {a : Csc α} {w₀ : Walk} {j : Nat} (hj : j < a.ncols) :
    ∀ {fuel i : Nat} {w : Walk}, Climbing a w₀ j i w → i ≤ j → j - i < fuel →
      (i ≠ j → ∃ e ∈ a.col j, Above w.parent e.1 i) →
      ∃ w', w.climb j fuel i = some w' ∧ Climbing a w₀ j j w' ∧ w'.seen[i]? = some j ∧
        ∀ x : Nat, w.seen[x]? = some j → w'.seen[x]? = some j := by
  intro fuel
  induction fuel with
  | zero => intro i w _ _ hf; omega
  | succ fuel ih =>
      intro i w h hi hf horigin
      have his : i < w.seen.size := by rw [h.size_seen]; omega
      have hip : i < w.parent.size := by rw [h.size_parent]; omega
      have hic : i < w.counts.size := by rw [h.size_counts]; omega
      rw [Walk.climb, Array.getElem?_eq_getElem his, Option.bind_eq_bind, Option.bind_some]
      by_cases hs : w.seen[i] = j
      · have hs' : w.seen[i]? = some j := by rw [Array.getElem?_eq_getElem his, hs]
        rw [if_pos hs]
        refine ⟨w, rfl, { h with closed := ?_ }, hs', fun _ hx => hx⟩
        intro x hxj hx
        obtain ⟨p, hp, hpj⟩ := h.closed x hxj hx
        refine ⟨p, hp, Or.inl ?_⟩
        rcases hpj with hpj | rfl
        · exact hpj
        · exact hs'
      · have hs' : w.seen[i]? ≠ some j := by
          rw [Array.getElem?_eq_getElem his]
          simpa using hs
        have hij : i < j := by
          rcases Nat.lt_or_ge i j with hij | hij
          · exact hij
          · obtain rfl : i = j := by omega
            exact absurd h.seen_self hs'
        have ho : w.parent[i]? = some w.parent[i] := Array.getElem?_eq_getElem hip
        have hup := h.lt_up hij ho
        have hstep := h.step hj hij hs' ho (horigin (Nat.ne_of_lt hij))
        have hmark : (w.seen.setIfInBounds i j)[i]? = some j := (seen_write his).mpr (Or.inl rfl)
        obtain ⟨w', hrun, hw', hsup, hkeep⟩ := ih hstep hup.2 (by omega) (by
          intro _
          obtain ⟨e, he, hr⟩ := hstep.origin i hij hmark
          exact ⟨e, he, hr.tail ((parent_write hip).mpr (Or.inl ⟨rfl, rfl⟩))⟩)
        refine ⟨w', ?_, hw', hkeep i hmark, fun x hx => hkeep x ((seen_write his).mpr (Or.inr hx))⟩
        rw [if_neg hs, ho]
        simp only [Option.bind_eq_bind, Option.bind_some, Access.write_of_lt hip,
          Access.adjust_of_lt hic, Access.write_of_lt his]
        exact hrun

/-! ## Column after column -/

/-- The columns before column `j` have been walked. -/
structure Walked (a : Csc α) (j : Nat) (w : Walk) : Prop where
  size_parent : w.parent.size = a.ncols
  size_counts : w.counts.size = a.ncols
  size_seen : w.seen.size = a.ncols
  rising : ∀ i p, Parent w.parent i p → i < p ∧ p < j
  parent_le : ∀ k < j, ∀ i, InRow a w.parent k i → ∃ p, Parent w.parent i p ∧ p ≤ k
  parent_row : ∀ i p, Parent w.parent i p → InRow a w.parent p i
  counts_eq : ∀ i < a.ncols, w.counts[i]? = some (rowsBefore a w.parent j i).length
  seen_lt : ∀ i < j, ∃ s, w.seen[i]? = some s ∧ s < j

theorem not_parent_start {n i p : Nat} : ¬ Parent (Walk.start n).parent i p := by
  rw [Parent, Walk.start, Array.getElem?_replicate]
  split <;> simp

theorem walked_start (a : Csc α) : Walked a 0 (Walk.start a.ncols) where
  size_parent := by simp [Walk.start]
  size_counts := by simp [Walk.start]
  size_seen := by simp [Walk.start]
  rising i p h := absurd h not_parent_start
  parent_le k hk := absurd hk (Nat.not_lt_zero k)
  parent_row i p h := absurd h not_parent_start
  counts_eq i hi := by simp [Walk.start, rowsBefore, hi]
  seen_lt i hi := absurd hi (Nat.not_lt_zero i)

/-- The walk whose column `j` has marked itself. -/
def Walk.entered (w : Walk) (j : Nat) : Walk := { w with seen := w.seen.setIfInBounds j j }

theorem Walk.enter_of_lt {w : Walk} {j : Nat} (h : j < w.seen.size) :
    w.enter j = some (w.entered j) := by
  rw [enter, Access.write_of_lt h]
  rfl

namespace Walked

variable {a : Csc α} {j : Nat} {w₀ w : Walk}

theorem enter_eq (h : Walked a j w₀) (hj : j < a.ncols) : w₀.enter j = some (w₀.entered j) :=
  Walk.enter_of_lt (by rw [h.size_seen]; exact hj)

/-- No node below the column has the mark of the column. -/
theorem seen_ne (h : Walked a j w₀) {i : Nat} (hi : i < j) :
    (w₀.entered j).seen[i]? = w₀.seen[i]? ∧ w₀.seen[i]? ≠ some j := by
  obtain ⟨s, hs, hsj⟩ := h.seen_lt i hi
  constructor
  · rw [Walk.entered, Array.getElem?_setIfInBounds, if_neg (Nat.ne_of_gt hi)]
  · rw [hs, Ne, Option.some.injEq]
    exact Nat.ne_of_lt hsj

/-- Before its first entry, column `j` has marked itself only. -/
theorem climbing (h : Walked a j w₀) (hj : j < a.ncols) :
    Climbing a w₀ j j (w₀.entered j) where
  size_parent := h.size_parent
  size_counts := h.size_counts
  size_seen := by simpa [Walk.entered] using h.size_seen
  ext _ _ hp := hp
  rising i p hp := ⟨(h.rising i p hp).1, Nat.le_of_lt (h.rising i p hp).2⟩
  fresh _ _ hp := Or.inl hp
  seen_self := (seen_write (by rw [h.size_seen]; exact hj)).mpr (Or.inl rfl)
  closed i hi hs := absurd ((h.seen_ne hi).1 ▸ hs) (h.seen_ne hi).2
  origin i hi hs := absurd ((h.seen_ne hi).1 ▸ hs) (h.seen_ne hi).2
  counts i := by
    have : ¬ ((w₀.entered j).seen[i]? = some j ∧ i < j) := fun hs =>
      (h.seen_ne hs.2).2 ((h.seen_ne hs.2).1 ▸ hs.1)
    simp only [this, if_false, Option.map_id']
    rfl
  seen_old i hi _ := (h.seen_ne hi).1

/-- After its last entry, the nodes it has marked are its row. -/
theorem inRow_iff (hw : Climbing a w₀ j j w)
    (hentries : ∀ e ∈ a.col j, w.seen[e.1]? = some j) {i : Nat} :
    InRow a w.parent j i ↔ w.seen[i]? = some j ∧ i < j := by
  constructor
  · intro h
    refine ⟨?_, h.lt⟩
    refine h.mem_of_closed (S := fun x => w.seen[x]? = some j) (fun i p hp => (hw.rising i p hp).1)
      (fun e he _ => hentries e he) fun x p hx hp hpj => ?_
    have hxj : x < j := Nat.lt_trans (hw.rising _ _ hp).1 hpj
    obtain ⟨q, hq, hqj⟩ := hw.closed x hxj hx
    rw [hp.unique hq]
    rcases hqj with hqj | rfl
    · exact hqj
    · exact hw.seen_self
  · rintro ⟨hs, hi⟩
    exact ⟨hi, hw.origin i hi hs⟩

theorem step (h : Walked a j w₀) (hj : j < a.ncols) (hw : Climbing a w₀ j j w)
    (hentries : ∀ e ∈ a.col j, w.seen[e.1]? = some j) : Walked a (j + 1) w := by
  have hrow : ∀ i, InRow a w.parent j i ↔ w.seen[i]? = some j ∧ i < j :=
    fun i => inRow_iff hw hentries
  have hold : ∀ k < j, ∀ i, InRow a w.parent k i ↔ InRow a w₀.parent k i := by
    intro k hk i
    refine inRow_iff_of_extends hw.ext (fun i p hp => (hw.rising i p hp).1) fun x hx => ?_
    obtain ⟨p, hp, _⟩ := h.parent_le k hk x hx
    exact ⟨p, hp⟩
  refine
    { size_parent := hw.size_parent
      size_counts := hw.size_counts
      size_seen := hw.size_seen
      rising := fun i p hp => ⟨(hw.rising i p hp).1, Nat.lt_succ_of_le (hw.rising i p hp).2⟩
      parent_le := ?_
      parent_row := fun i p hp => ?_
      counts_eq := ?_
      seen_lt := ?_ }
  · intro k hk i hi
    rcases Nat.lt_or_eq_of_le (Nat.le_of_lt_succ hk) with hkj | rfl
    · obtain ⟨p, hp, hpk⟩ := h.parent_le k hkj i ((hold k hkj i).mp hi)
      exact ⟨p, hw.ext i p hp, hpk⟩
    · obtain ⟨hs, hlt⟩ := (hrow i).mp hi
      obtain ⟨p, hp, _⟩ := hw.closed i hlt hs
      exact ⟨p, hp, (hw.rising i p hp).2⟩
  · rcases hw.fresh i p hp with hold | ⟨rfl, hs⟩
    · exact (h.parent_row i p hold).mono hw.ext
    · exact (hrow i).mpr hs
  · intro i hi
    rw [hw.counts i, h.counts_eq i hi, rowsBefore_succ,
      rowsBefore_congr fun k hk => hold k hk i, List.length_append, Option.map_some]
    congr 1
    by_cases hs : w.seen[i]? = some j ∧ i < j
    · rw [if_pos hs, if_pos ((hrow i).mpr hs)]
      rfl
    · rw [if_neg hs, if_neg fun hr => hs ((hrow i).mp hr)]
      rfl
  · intro i hi
    by_cases hs : w.seen[i]? = some j
    · exact ⟨j, hs, Nat.lt_succ_self j⟩
    · have hne : i ≠ j := fun hij => hs (hij ▸ hw.seen_self)
      have hlt : i < j := by omega
      obtain ⟨s, hs', hsj⟩ := h.seen_lt i hlt
      exact ⟨s, (hw.seen_old i hlt hs).trans hs', by omega⟩

end Walked

/-- A climb ends at rest, and the column itself is always marked; so another may
start anywhere. -/
theorem Climbing.restart {a : Csc α} {w₀ w : Walk} {j : Nat} (h : Climbing a w₀ j j w) (i : Nat) :
    Climbing a w₀ j i w :=
  { h with
    closed := fun x hx hs => by
      obtain ⟨p, hp, hpj⟩ := h.closed x hx hs
      refine ⟨p, hp, Or.inl ?_⟩
      rcases hpj with hpj | rfl
      · exact hpj
      · exact h.seen_self }

/-- The climb from an entry of the column. -/
theorem Climbing.climb_entry {a : Csc α} {w₀ w : Walk} {j : Nat} (h : Climbing a w₀ j j w)
    (hj : j < a.ncols) {e : Nat × α} (he : e ∈ a.col j) (hej : e.1 ≤ j) :
    ∃ w', w.climb j (j + 1) e.1 = some w' ∧ Climbing a w₀ j j w' ∧ w'.seen[e.1]? = some j ∧
      ∀ x : Nat, w.seen[x]? = some j → w'.seen[x]? = some j :=
  climb_spec hj (h.restart e.1) hej (by omega) fun _ => ⟨e, he, Relation.ReflTransGen.refl⟩

theorem addEntries_spec {a : Csc α} {w₀ : Walk} {j : Nat} (hj : j < a.ncols)
    (h : Walked a j w₀) {es : List (Nat × α)} (hes : ∀ e ∈ es, e ∈ a.col j ∧ e.1 ≤ j) :
    ∃ w, (es.foldlM (fun w entry => Walk.addEntry j w entry.1) (w₀.entered j)).run =
        some (.ok w) ∧
      Climbing a w₀ j j w ∧ ∀ e ∈ es, w.seen[e.1]? = some j := by
  refine Checked.foldlM_total
    (fun (done : List (Nat × α)) w => Climbing a w₀ j j w ∧ ∀ e ∈ done, w.seen[e.1]? = some j)
    ⟨h.climbing hj, by simp⟩ ?_
  rintro done e rest rfl w ⟨hw, hdone⟩
  obtain ⟨he, hej⟩ := hes e (by simp)
  obtain ⟨w', hrun, hw', hsee, hkeep⟩ := hw.climb_entry hj he hej
  refine ⟨w', ?_, hw', ?_⟩
  · rw [Walk.addEntry, if_neg (by omega), hrun]
    rfl
  · intro e' he'
    rcases List.mem_append.mp he' with he' | he'
    · exact hkeep _ (hdone e' he')
    · rw [List.mem_singleton] at he'
      exact he' ▸ hsee

/-- Of a column its rows are looked at, and whether there are any. -/
theorem addColumn_eq {a : Csc α} (hr : a.Readable) {j : Nat} (hj : j < a.ncols) (w : Walk) :
    Walk.addColumn a w j = (do
      let w ← w.enter j
      if a.ptr j = a.ptr (j + 1) then throw (.emptyColumn j)
      else ((a.col j).map (·.1)).foldlM (Walk.addEntry j) w) := by
  rw [Walk.addColumn, hr.start?_eq hj, hr.stop?_eq hj, hr.column?_eq hj]
  refine congrArg _ (funext fun w => ?_)
  rw [List.foldlM_map]
  by_cases hptr : a.ptr j = a.ptr (j + 1)
  · rw [if_pos hptr]
    change (if a.ptr j = a.ptr (j + 1) then _ else _) = _
    rw [if_pos hptr]
    rfl
  · rw [if_neg hptr]
    change (if a.ptr j = a.ptr (j + 1) then _ else _) = _
    rw [if_neg hptr]
    rfl

/-- A column of a walk that has come to it. -/
theorem Walked.run_addColumn {a : Csc α} (hr : a.Readable) {w₀ : Walk} {j : Nat}
    (hj : j < a.ncols) (h : Walked a j w₀) :
    (Walk.addColumn a w₀ j).run =
      (if a.ptr j = a.ptr (j + 1) then throw (.emptyColumn j)
        else (a.col j).foldlM (fun w entry => Walk.addEntry j w entry.1) (w₀.entered j) :
          Checked Error Walk).run := by
  rw [addColumn_eq hr hj, h.enter_eq hj, Checked.run_some_bind, List.foldlM_map]

theorem addColumn_spec {a : Csc α} (hr : a.Readable) {w₀ : Walk} {j : Nat} (hj : j < a.ncols)
    (h : Walked a j w₀) (hne : a.col j ≠ []) (hle : ∀ e ∈ a.col j, e.1 ≤ j) :
    ∃ w, (Walk.addColumn a w₀ j).run = some (.ok w) ∧ Walked a (j + 1) w := by
  obtain ⟨w, hrun, hw, hentries⟩ := addEntries_spec hj h fun e he => ⟨he, hle e he⟩
  refine ⟨w, ?_, h.step hj hw hentries⟩
  have hptr : a.ptr j ≠ a.ptr (j + 1) := by
    intro heq
    have := hr.length_col hj
    rw [heq, Nat.sub_self, List.length_eq_zero_iff] at this
    exact hne this
  rw [h.run_addColumn hr hj, if_neg hptr]
  exact hrun

/-- Columns that store something, and nothing below the diagonal, are walked. -/
theorem walked_of_columns {a : Csc α} (hr : a.Readable) {n : Nat} (hn : n ≤ a.ncols)
    (h : ∀ j < n, a.col j ≠ [] ∧ ∀ e ∈ a.col j, e.1 ≤ j) :
    ∃ w, ((List.range n).foldlM (Walk.addColumn a) (Walk.start a.ncols)).run = some (.ok w) ∧
      Walked a n w := by
  obtain ⟨w, hrun, hw⟩ := Checked.foldlM_total (l := List.range n) (f := Walk.addColumn a)
    (fun done w => Walked a done.length w) (walked_start a) (by
      intro p j q hl w hw
      obtain ⟨rfl, hlt⟩ := range_split hl
      obtain ⟨w', h', hw'⟩ :=
        addColumn_spec hr (Nat.lt_of_lt_of_le hlt hn) hw (h _ hlt).1 (h _ hlt).2
      exact ⟨w', h', by simpa using hw'⟩)
  rw [List.length_range] at hw
  exact ⟨w, hrun, hw⟩

/-! ## The total -/

/-- The counts add up as far as the sum can be said. -/
theorem countAll_eq (counts : List Nat) : countAll counts =
    if counts.sum ≤ maxSize then .ok counts.sum else .error .countOverflow := by
  -- The loop over the rest of the list has the sum of what is in front of it.
  have hloop : ∀ (rest : List Nat) (total : Nat), total ≤ maxSize →
      rest.foldlM (fun total count =>
          if maxSize < total + count then .error .countOverflow
          else (.ok (total + count) : Except Error Nat)) total =
        if total + rest.sum ≤ maxSize then .ok (total + rest.sum)
        else .error .countOverflow := by
    intro rest
    induction rest with
    | nil =>
        intro total htotal
        rw [List.sum_nil, Nat.add_zero, if_pos htotal]
        rfl
    | cons count rest ih =>
        intro total _
        rw [List.foldlM_cons, List.sum_cons, ← Nat.add_assoc]
        by_cases hcount : maxSize < total + count
        · rw [if_pos hcount, if_neg (by omega)]
          rfl
        · rw [if_neg hcount]
          exact ih (total + count) (Nat.not_lt.mp hcount)
  have hall := hloop counts 0 (Nat.zero_le _)
  rwa [Nat.zero_add] at hall

theorem run_analyze {a : Csc α} (h : a.nrows = a.ncols) :
    (analyze a).run = (do
      let w ← walk a
      let total ← countAll w.counts.toList
      return ⟨a.ncols, w.parent, w.counts, total⟩ : Checked Error Symbolic).run := by
  rw [analyze, Checked.run_guard, if_neg (by simp [h])]

/-- What an analysis comes to once its walk is over. -/
theorem run_analyze_of_walk {a : Csc α} (h : a.nrows = a.ncols) {w : Walk}
    (hw : (walk a).run = some (.ok w)) : (analyze a).run =
      some (if w.counts.sum ≤ maxSize then .ok ⟨a.ncols, w.parent, w.counts, w.counts.sum⟩
        else .error .countOverflow) := by
  rw [run_analyze h, Checked.run_bind_ok hw, countAll_eq, Array.sum_toList]
  by_cases hsum : w.counts.sum ≤ maxSize
  · rw [if_pos hsum, if_pos hsum]
    rfl
  · rw [if_neg hsum, if_neg hsum]
    rfl

theorem Walked.analyzed {a : Csc α} {w : Walk} (hw : Walked a a.ncols w) :
    Analyzed a ⟨a.ncols, w.parent, w.counts, w.counts.sum⟩ :=
  ⟨rfl, hw.size_parent, hw.size_counts, hw.rising, hw.parent_le, hw.parent_row, hw.counts_eq, rfl⟩

/-- The walk over an upper triangle that stores something in each column ends, and finds the tree
and the counts; and the analysis succeeds if these can be added up. -/
theorem analyze_spec {a : Csc α} (hr : a.Readable) (hu : a.Upper)
    (hne : ∀ j < a.ncols, a.col j ≠ []) :
    ∃ s, Analyzed a s ∧ (analyze a).run =
      some (if s.total ≤ maxSize then .ok s else .error .countOverflow) := by
  obtain ⟨w, hrun, hw⟩ :=
    walked_of_columns hr (Nat.le_refl _) fun j hj => ⟨hne j hj, hu.row_le j hj⟩
  exact ⟨_, hw.analyzed, run_analyze_of_walk hu.square hrun⟩

/-! ## What a success tells -/

section Success

variable {a : Csc α} {s : Symbolic}

theorem exists_column_of_addColumn {j : Nat} {w w' : Walk}
    (h : (Walk.addColumn a w j).run = some (.ok w')) : ∃ es, a.column? j = some es := by
  rw [Walk.addColumn, Checked.run_bind_eq_ok] at h
  obtain ⟨entered, -, h⟩ := h
  rw [Checked.run_bind_eq_ok] at h
  obtain ⟨start, -, h⟩ := h
  rw [Checked.run_bind_eq_ok] at h
  obtain ⟨stop, -, h⟩ := h
  rw [Checked.run_guard_eq_ok, Checked.run_bind_eq_ok] at h
  obtain ⟨-, es, hes, -⟩ := h
  cases hcol : a.column? j with
  | none =>
      rw [hcol] at hes
      cases hes
  | some es => exact ⟨es, rfl⟩

/-- An analysis that was not refused has walked all columns of a square matrix. -/
theorem exists_walk_of_analyze (h : (analyze a).run = some (.ok s)) :
    a.nrows = a.ncols ∧ ∃ w, (walk a).run = some (.ok w) := by
  rw [analyze, Checked.run_guard_eq_ok, not_not, Checked.run_bind_eq_ok] at h
  obtain ⟨hsq, w, hrun, -⟩ := h
  exact ⟨hsq, w, hrun⟩

/-- The analysis reads every column. -/
theorem readable_of_analyze (h : (analyze a).run = some (.ok s)) : a.Readable := by
  obtain ⟨-, w, hrun⟩ := exists_walk_of_analyze h
  have hcol : ∀ j < a.ncols, ∃ es, a.column? j = some es := by
    intro j hj
    obtain ⟨t, t', ht⟩ := Checked.exists_step_of_foldlM hrun (List.mem_range.mpr hj)
    exact exists_column_of_addColumn ht
  constructor <;> intro j hj <;> obtain ⟨es, hes⟩ := hcol j hj
  · exact (Csc.of_column? hes).1
  · exact (Csc.of_column? hes).2.1
  · exact (Csc.of_column? hes).2.2.1
  · exact (Csc.of_column? hes).2.2.2

/-- A column that was added stores something, and nothing below the diagonal. -/
theorem of_addColumn (hr : a.Readable) {j : Nat} (hj : j < a.ncols) {w w' : Walk}
    (h : (Walk.addColumn a w j).run = some (.ok w')) :
    a.col j ≠ [] ∧ ∀ e ∈ a.col j, e.1 ≤ j := by
  rw [addColumn_eq hr hj, Checked.run_bind_eq_ok] at h
  obtain ⟨entered, -, h⟩ := h
  split at h
  · cases h
  rename_i hptr
  constructor
  · intro hnil
    have := hr.length_col hj
    rw [hnil, List.length_nil] at this
    have := hr.ptr_succ j hj
    omega
  · intro e he
    obtain ⟨u, u', hu⟩ := Checked.exists_step_of_foldlM h (List.mem_map_of_mem he)
    by_contra hlt
    rw [Walk.addEntry, if_pos (by omega)] at hu
    cases hu

/-- What a matrix is like whose analysis was not refused. -/
theorem upper_of_readable (hr : a.Readable) (h : (analyze a).run = some (.ok s)) :
    a.Upper ∧ ∀ j < a.ncols, a.col j ≠ [] := by
  obtain ⟨hsq, w, hrun⟩ := exists_walk_of_analyze h
  have hcol : ∀ j < a.ncols, a.col j ≠ [] ∧ ∀ e ∈ a.col j, e.1 ≤ j := by
    intro j hj
    obtain ⟨t, t', ht⟩ := Checked.exists_step_of_foldlM hrun (List.mem_range.mpr hj)
    exact of_addColumn hr hj ht
  exact ⟨⟨hsq, fun j hj => (hcol j hj).2⟩, fun j hj => (hcol j hj).1⟩

/-- An analysis that was not refused has found the tree and the counts. -/
theorem analyzed_of_readable (hr : a.Readable) (h : (analyze a).run = some (.ok s)) :
    Analyzed a s := by
  obtain ⟨hu, hne⟩ := upper_of_readable hr h
  obtain ⟨s', ha, hs'⟩ := analyze_spec hr hu hne
  rw [h] at hs'
  split at hs'
  · cases hs'
    exact ha
  · cases hs'

theorem upper_of_analyze (hf : a.Framed) (h : (analyze a).run = some (.ok s)) :
    a.Upper ∧ ∀ j < a.ncols, a.col j ≠ [] :=
  upper_of_readable hf.readable h

theorem analyzed_of_analyze (hf : a.Framed) (h : (analyze a).run = some (.ok s)) : Analyzed a s :=
  analyzed_of_readable hf.readable h

end Success

theorem analyze_congr {a b : Csc α} (h : Csc.SamePattern a b) (hb : b.Readable) :
    analyze a = analyze b := by
  have hcolumns : ∀ (js : List Nat) (w : Walk), (∀ j ∈ js, j < b.ncols) →
      js.foldlM (Walk.addColumn a) w = js.foldlM (Walk.addColumn b) w := by
    intro js
    induction js with
    | nil => intro w _; rfl
    | cons j js ih =>
        intro w hjs
        rw [List.forall_mem_cons] at hjs
        have hj : j < a.ncols := by rw [h.ncols_eq]; exact hjs.1
        rw [List.foldlM_cons, List.foldlM_cons, addColumn_eq (h.readable hb) hj,
          addColumn_eq hb hjs.1, h.rows_eq, h.ptr_eq, h.ptr_eq]
        exact congrArg _ (funext fun w' => ih w' hjs.2)
  rw [analyze, analyze, walk, walk, h.nrows_eq, h.ncols_eq]
  simp only [hcolumns _ _ fun j => List.mem_range.mp]

/-- An analysis is one of every matrix of the pattern. -/
theorem analyzed_of_samePattern {a b : Csc α} {s : Symbolic}
    (hs : (analyze a).run = some (.ok s)) (h : Csc.SamePattern b a) :
    b.Readable ∧ b.Upper ∧ Analyzed b s := by
  have hr := h.readable (readable_of_analyze hs)
  rw [← analyze_congr h (readable_of_analyze hs)] at hs
  exact ⟨hr, (upper_of_readable hr hs).1, analyzed_of_readable hr hs⟩

end Saddle.Factor
