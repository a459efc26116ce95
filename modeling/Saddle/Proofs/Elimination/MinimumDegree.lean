import Saddle.Proofs.Elimination.Adjacency
import Saddle.Proofs.Elimination.DegreeBuckets

/-!
# The minimum degree method is greedy and never leaves its arrays

A state of the method describes a graph three times over: by the lists of neighbours, by
the degrees on record and by the buckets. `Underway` says that the three agree on the
nodes that are left, and that no degree is below the one the search starts at. So a
search finds a node as long as one is left, and no later than at the degree of any of
them.

While the neighbours of a pivot are joined, one after the other, the lists are not those
of a graph; but the record and the buckets follow each list as it changes, and this is
all that the next step reads. When all have been joined, the lists are those of the
graph without the pivot.

A list that is extended has its nodes stamped with a tag that no node bears yet, so that
those with the tag are at each moment the nodes of the list. For that it is enough that
no stamp is above the last tag in use, which is all that one step leaves to the next.

All buckets together are one line in which the nodes wait: a bucket holds the nodes of
its degree in the order of the line, and what is put in front of its bucket goes to the
front of the line. At the start the nodes stand in the order of their numbers. The next
pivot is the first in line that has the fewest neighbours, and the neighbours it had go
to the front, one after the other.

`Queued` is what a whole run leaves behind: the pivots in turn, each picked from the line
in this way. `Greedy` says less of it, that no pivot had more neighbours than another node
that was left. Both speak of the lists alone, and no longer of buckets or of the record.
-/

namespace Saddle.Elimination.MinimumDegree

open Access DegreeBuckets

/-! ## Stamps -/

/-- No stamp is above the tag. -/
structure Stamps (n tag : Nat) (stamp : Array Nat) : Prop where
  size_eq : stamp.size = n
  le : ∀ x t : Nat, stamp[x]? = some t → t ≤ tag

/-- Of the nodes below `n` those in the list bear the tag. -/
structure Stamped (n tag : Nat) (xs : List Nat) (stamp : Array Nat) : Prop
    extends Stamps n tag stamp where
  iff : ∀ x < n, stamp[x]? = some tag ↔ x ∈ xs

section Stamps

variable {n tag u x : Nat} {stamp : Array Nat} {xs kept clique : List Nat}

/-- Nobody bears a new tag. -/
theorem Stamps.next (h : Stamps n tag stamp) : Stamped n (tag + 1) [] stamp where
  size_eq := h.size_eq
  le x t ht := (h.le x t ht).trans (Nat.le_succ tag)
  iff x _ := ⟨fun ht => absurd (h.le x _ ht) (Nat.not_succ_le_self tag), fun hx => nomatch hx⟩

theorem Stamped.write (h : Stamped n tag xs stamp) (hx : x < n) :
    ∃ stamp', write stamp x tag = some stamp' ∧ Stamped n tag (xs ++ [x]) stamp' := by
  have hlt : x < stamp.size := h.size_eq.symm ▸ hx
  refine ⟨_, write_of_lt hlt, ⟨by simpa using h.size_eq, fun y t ht => ?_⟩, fun y hy => ?_⟩
  · simp only [Array.getElem?_setIfInBounds, hlt, if_true] at ht
    split at ht
    · exact (Option.some.inj ht).symm.le
    · exact h.le y t ht
  · rw [Array.getElem?_setIfInBounds, List.mem_append, List.mem_singleton, ← h.iff y hy]
    by_cases hxy : x = y
    · simp [hxy, h.size_eq, hy]
    · simp [hxy, Ne.symm hxy]

theorem stampAll_spec (h : Stamps n tag stamp) (hxs : ∀ x ∈ xs, x < n) :
    ∃ stamp', stampAll (tag + 1) stamp xs = some stamp' ∧ Stamped n (tag + 1) xs stamp' := by
  refine foldlM_total (fun done stamp => Stamped n (tag + 1) done stamp) h.next ?_
  rintro done x rest rfl stamp hstamp
  exact hstamp.write (hxs x (by simp))

theorem appendNew_spec {list : Array Nat} (h : Stamped n tag list.toList stamp) (hx : x < n) :
    ∃ list' stamp', appendNew u tag (list, stamp) x = some (list', stamp') ∧
      list'.toList = list.toList ++ (if x ≠ u ∧ x ∉ list.toList then [x] else []) ∧
      Stamped n tag list'.toList stamp' := by
  rw [appendNew]
  by_cases hxu : x = u
  · exact ⟨list, stamp, by simp [hxu], by simp [hxu], h⟩
  obtain ⟨t, ht⟩ : ∃ t, stamp[x]? = some t :=
    ⟨_, Array.getElem?_eq_getElem (h.size_eq.symm ▸ hx)⟩
  by_cases hmem : x ∈ list.toList
  · have htag := (h.iff x hx).mpr hmem
    exact ⟨list, stamp, by simp [hxu, htag], by simp [hmem], h⟩
  · have htag : t ≠ tag := fun heq => hmem ((h.iff x hx).mp (heq ▸ ht))
    obtain ⟨stamp', hwrite, h'⟩ := h.write hx
    refine ⟨list.push x, stamp', by simp [hxu, ht, htag, hwrite], ?_, ?_⟩
    · rw [Array.toList_push, if_pos ⟨hxu, hmem⟩]
    · rw [Array.toList_push]
      exact h'

/-- Of a clique in which no node is twice, the nodes that are new to the list are appended. -/
theorem appendAll_spec (h : Stamped n tag kept stamp) (hnodup : clique.Nodup)
    (hlt : ∀ x ∈ clique, x < n) :
    ∃ list stamp', clique.foldlM (appendNew u tag) (kept.toArray, stamp) = some (list, stamp') ∧
      list.toList = kept ++ (clique.filter fun x => x ≠ u && !kept.contains x) ∧
      Stamps n tag stamp' := by
  obtain ⟨⟨list, stamp'⟩, hrun, hlist, h'⟩ := foldlM_total (l := clique)
    (f := appendNew u tag) (s := (kept.toArray, stamp))
    (fun done s => s.1.toList = kept ++ (done.filter fun x => x ≠ u && !kept.contains x) ∧
      Stamped n tag s.1.toList s.2)
    ⟨by simp, h⟩
    (by
      rintro done x rest rfl ⟨list, stamp⟩ ⟨hlist, hstamp⟩
      obtain ⟨list', stamp', hrun, hlist', hstamp'⟩ :=
        appendNew_spec (u := u) hstamp (hlt x (by simp))
      refine ⟨(list', stamp'), hrun, ?_, hstamp'⟩
      -- What has been appended so far is earlier in the clique.
      have hdone : x ∉ done := fun hmem =>
        (List.nodup_append.mp hnodup).2.2 x hmem x (by simp) rfl
      have hiff : x ∈ list.toList ↔ x ∈ kept := by
        rw [hlist, List.mem_append, List.mem_filter]
        exact or_iff_left fun hmem => hdone hmem.1
      rw [hlist', hlist, List.append_assoc, List.filter_append, ← hlist]
      simp [List.filter_cons, hiff])
  exact ⟨list, stamp', hrun, hlist, h'.toStamps⟩

end Stamps

/-! ## The state -/

/-- The lists, the degrees and the buckets agree on the nodes that are left. -/
structure Underway (n : Nat) (nodes : Finset Nat) (adj bucket : Nat → List Nat) (s : State) :
    Prop where
  lt : ∀ u ∈ nodes, u < n
  short : ∀ u ∈ nodes, (adj u).length < n
  adjacent : Tabulates s.adjacent n adj
  size_degree : s.degree.size = n
  degree : ∀ u ∈ nodes, s.degree[u]? = some (adj u).length
  buckets : s.buckets.Holds n bucket
  mem_bucket : ∀ d < n, ∀ u, u ∈ bucket d ↔ u ∈ nodes ∧ (adj u).length = d
  stamps : Stamps n s.tag s.stamp
  minDegree : ∀ u ∈ nodes, s.minDegree ≤ (adj u).length

/-- The nodes are picked in turn, each one with the neighbours it then has, which are no more than
any other node that is left has. -/
inductive Greedy : Finset Nat → (Nat → List Nat) → List (Nat × List Nat) → Prop where
  | done (adj : Nat → List Nat) : Greedy ∅ adj []
  | pick {nodes : Finset Nat} {adj : Nat → List Nat} {pivot : Nat} {picks : List (Nat × List Nat)}
      (hp : pivot ∈ nodes) (least : ∀ u ∈ nodes, (adj pivot).length ≤ (adj u).length)
      (rest : Greedy (nodes.erase pivot) (joining adj pivot (adj pivot)) picks) :
      Greedy nodes adj ((pivot, adj pivot) :: picks)

/-- The nodes in line, by their degrees. -/
def bucketsOf (adj : Nat → List Nat) (line : List Nat) (d : Nat) : List Nat :=
  line.filter fun u => (adj u).length = d

/-- The nodes that wait are in the buckets, in the order of the line. -/
structure Lined (n : Nat) (line : List Nat) (adj : Nat → List Nat) (s : State) : Prop where
  nodup : line.Nodup
  underway : Underway n line.toFinset adj (bucketsOf adj line) s

/-- Node `u` goes to the front. -/
def toFront (line : List Nat) (u : Nat) : List Nat := u :: line.erase u

/-- The line once `pivot` has left it and the nodes in `clique` have gone to the front in turn. -/
def requeue (line : List Nat) (pivot : Nat) (clique : List Nat) : List Nat :=
  clique.foldl toFront (line.erase pivot)

/-- The nodes are picked in turn, each time the first in line of those with the fewest neighbours,
and its neighbours go to the front. -/
inductive Queued : List Nat → (Nat → List Nat) → List (Nat × List Nat) → Prop where
  | done (adj : Nat → List Nat) : Queued [] adj []
  | pick {before after : List Nat} {adj : Nat → List Nat} {pivot : Nat}
      {picks : List (Nat × List Nat)} (nodup : (before ++ pivot :: after).Nodup)
      (fewer : ∀ u ∈ before, (adj pivot).length < (adj u).length)
      (least : ∀ u ∈ after, (adj pivot).length ≤ (adj u).length)
      (rest : Queued (requeue (before ++ pivot :: after) pivot (adj pivot))
        (joining adj pivot (adj pivot)) picks) :
      Queued (before ++ pivot :: after) adj ((pivot, adj pivot) :: picks)

section Underway

variable {n : Nat} {nodes : Finset Nat} {adj bucket : Nat → List Nat} {s : State} {u : Nat}

theorem Underway.leave (h : Underway n nodes adj bucket s) (hu : u ∈ nodes) :
    ∃ buckets, s.buckets.remove u (adj u).length = some buckets ∧
      Underway n (nodes.erase u) adj
        (Function.update bucket (adj u).length ((bucket (adj u).length).erase u))
        { s with buckets } := by
  have hshort := h.short u hu
  obtain ⟨buckets, hrun, hholds⟩ :=
    h.buckets.remove hshort ((h.mem_bucket _ hshort u).mpr ⟨hu, rfl⟩)
  have hrest : ∀ x ∈ nodes.erase u, x ∈ nodes := fun x hx => Finset.mem_of_mem_erase hx
  refine ⟨buckets, hrun, { h with
    lt := fun x hx => h.lt x (hrest x hx)
    short := fun x hx => h.short x (hrest x hx)
    degree := fun x hx => h.degree x (hrest x hx)
    buckets := hholds
    mem_bucket := fun d hd x => ?_
    minDegree := fun x hx => h.minDegree x (hrest x hx) }⟩
  rw [Function.update_apply, Finset.mem_erase]
  by_cases hdu : d = (adj u).length
  · rw [if_pos hdu, (h.buckets.nodup _ hshort).mem_erase_iff, h.mem_bucket _ hshort, hdu, and_assoc]
  · rw [if_neg hdu, h.mem_bucket d hd]
    constructor
    · intro hx
      refine ⟨⟨?_, hx.1⟩, hx.2⟩
      rintro rfl
      exact hdu hx.2.symm
    · intro hx
      exact ⟨hx.1.2, hx.2⟩

/-- The neighbours of a node that is in no bucket are nobody's concern. -/
theorem Underway.rewire (h : Underway n nodes adj bucket s) (hu : u < n) (hnew : u ∉ nodes)
    (xs : List Nat) :
    ∃ adjacent, write s.adjacent u xs = some adjacent ∧
      Underway n nodes (Function.update adj u xs) bucket { s with adjacent } := by
  obtain ⟨adjacent, hrun, htab⟩ := h.adjacent.write hu xs
  have hne : ∀ x ∈ nodes, x ≠ u := fun x hx heq => hnew (heq ▸ hx)
  have hsame : ∀ x ∈ nodes, Function.update adj u xs x = adj x := fun x hx =>
    Function.update_of_ne (hne x hx) xs adj
  refine ⟨adjacent, hrun, { h with
    short := fun x hx => ?_
    adjacent := htab
    degree := fun x hx => ?_
    mem_bucket := fun d hd x => ?_
    minDegree := fun x hx => ?_ }⟩
  · rw [hsame x hx]
    exact h.short x hx
  · rw [hsame x hx]
    exact h.degree x hx
  · rw [h.mem_bucket d hd]
    exact and_congr_right fun hx => by rw [hsame x hx]
  · rw [hsame x hx]
    exact h.minDegree x hx

theorem Underway.put (h : Underway n nodes adj bucket s) (hu : u < n) (hnew : u ∉ nodes)
    (hshort : (adj u).length < n) {low : Nat} (hlow : low ≤ s.minDegree)
    (hlowu : low ≤ (adj u).length) :
    ∃ degree buckets, write s.degree u (adj u).length = some degree ∧
      s.buckets.insert u (adj u).length = some buckets ∧
      Underway n (insert u nodes) adj
        (Function.update bucket (adj u).length (u :: bucket (adj u).length))
        { s with degree, buckets, minDegree := low } := by
  have hne : ∀ x ∈ nodes, x ≠ u := fun x hx heq => hnew (heq ▸ hx)
  obtain ⟨degree, hdegree, hsize, hget⟩ := write_spec (h.size_degree.symm ▸ hu) (adj u).length
  obtain ⟨buckets, hbuckets, hholds⟩ := h.buckets.insert hshort hu
    fun e he hmem => hnew ((h.mem_bucket e he u).mp hmem).1
  refine ⟨degree, buckets, hdegree, hbuckets, { h with
    lt := (Finset.forall_mem_insert ..).mpr ⟨hu, h.lt⟩
    short := (Finset.forall_mem_insert ..).mpr ⟨hshort, h.short⟩
    size_degree := hsize.trans h.size_degree
    degree := ?_
    buckets := hholds
    mem_bucket := fun d hd x => ?_
    minDegree := (Finset.forall_mem_insert ..).mpr
      ⟨hlowu, fun x hx => hlow.trans (h.minDegree x hx)⟩ }⟩
  · refine (Finset.forall_mem_insert ..).mpr ⟨(hget u).trans (if_pos rfl), fun x hx => ?_⟩
    rw [← h.degree x hx]
    exact (hget x).trans (if_neg (hne x hx))
  · rw [Function.update_apply, Finset.mem_insert]
    by_cases hdu : d = (adj u).length
    · rw [if_pos hdu, List.mem_cons, h.mem_bucket _ hshort, hdu]
      constructor
      · rintro (rfl | ⟨hx, hd⟩)
        · exact ⟨Or.inl rfl, rfl⟩
        · exact ⟨Or.inr hx, hd⟩
      · rintro ⟨rfl | hx, hd⟩
        · exact Or.inl rfl
        · exact Or.inr ⟨hx, hd⟩
    · rw [if_neg hdu, h.mem_bucket d hd]
      constructor
      · intro hx
        exact ⟨Or.inr hx.1, hx.2⟩
      · rintro ⟨rfl | hx, hd⟩
        · exact absurd hd.symm hdu
        · exact ⟨hx, hd⟩

/-- The search may start anywhere below all degrees, and what is on record is not read. -/
theorem Underway.startAt (h : Underway n nodes adj bucket s) {low : Nat}
    (hlow : ∀ u ∈ nodes, low ≤ (adj u).length) (pivots : Array (Nat × List Nat)) :
    Underway n nodes adj bucket { s with minDegree := low, pivots } :=
  { h with minDegree := hlow }

theorem Underway.restamp (h : Underway n nodes adj bucket s) {tag : Nat} {stamp : Array Nat}
    (hstamp : Stamps n tag stamp) : Underway n nodes adj bucket { s with stamp, tag } :=
  { h with stamps := hstamp }

/-- The search finds the first node of the bucket of least degree. -/
theorem Underway.firstFrom (h : Underway n nodes adj bucket s) (hne : nodes.Nonempty) :
    ∃ pivot ∈ nodes, s.buckets.firstFrom s.minDegree = some ((adj pivot).length, pivot) ∧
      (∃ rest, bucket (adj pivot).length = pivot :: rest) ∧
      ∀ u ∈ nodes, (adj pivot).length ≤ (adj u).length := by
  obtain ⟨u, hu⟩ := hne
  have hmem := (h.mem_bucket _ (h.short u hu) u).mpr ⟨hu, rfl⟩
  obtain ⟨d, pivot, rest, hrun, -, hd, hbucket, hbelow⟩ := h.buckets.firstFrom (h.short u hu)
    (h.minDegree u hu) (List.ne_nil_of_mem hmem)
  obtain ⟨hpivot, rfl⟩ := (h.mem_bucket d hd pivot).mp (by rw [hbucket]; simp)
  refine ⟨pivot, hpivot, hrun, ⟨rest, hbucket⟩, fun x hx => ?_⟩
  by_contra hlt
  have hempty := hbelow _ (h.minDegree x hx) (Nat.lt_of_not_le hlt)
  have hmem := (h.mem_bucket _ (h.short x hx) x).mpr ⟨hx, rfl⟩
  rw [hempty] at hmem
  cases hmem

end Underway

/-! ## One line -/

section Line

variable {adj : Nat → List Nat} {line clique : List Nat} {u x d pivot : Nat}

theorem mem_toFront : x ∈ toFront line u ↔ x = u ∨ x ∈ line := by
  rw [toFront, List.mem_cons]
  by_cases hxu : x = u
  · simp only [hxu, true_or]
  · rw [List.mem_erase_of_ne hxu]

theorem mem_foldl_toFront : x ∈ clique.foldl toFront line ↔ x ∈ clique ∨ x ∈ line := by
  induction clique generalizing line with
  | nil => simp
  | cons u clique ih =>
      rw [List.foldl_cons, ih, mem_toFront, List.mem_cons]
      tauto

theorem toFinset_erase (h : line.Nodup) : (line.erase u).toFinset = line.toFinset.erase u := by
  ext x
  rw [List.mem_toFinset, h.mem_erase_iff, Finset.mem_erase, List.mem_toFinset]

theorem Graph.mem_erase_of_mem (h : Graph line.toFinset adj) (hp : pivot ∈ line)
    (hx : x ∈ adj pivot) : x ∈ line.erase pivot := by
  have hp' := List.mem_toFinset.mpr hp
  have hxp : x ≠ pivot := fun heq => h.irrefl pivot hp' (heq ▸ hx)
  exact (List.mem_erase_of_ne hxp).mpr (List.mem_toFinset.mp (h.mem pivot hp' x hx))

/-- Nobody leaves the line but the pivot, for its neighbours were in line before. -/
theorem toFinset_requeue (h : line.Nodup) (hg : Graph line.toFinset adj) (hp : pivot ∈ line) :
    (requeue line pivot (adj pivot)).toFinset = line.toFinset.erase pivot := by
  rw [← toFinset_erase h]
  ext x
  rw [requeue, List.mem_toFinset, mem_foldl_toFront, List.mem_toFinset]
  exact or_iff_right_of_imp fun hx => hg.mem_erase_of_mem hp hx

theorem Graph.requeue (hg : Graph line.toFinset adj) (h : line.Nodup) (hp : pivot ∈ line) :
    Graph (requeue line pivot (adj pivot)).toFinset (joining adj pivot (adj pivot)) := by
  rw [toFinset_requeue h hg hp]
  exact hg.eliminate (List.mem_toFinset.mpr hp)

theorem bucketsOf_erase (adj : Nat → List Nat) (line : List Nat) (u : Nat) :
    bucketsOf adj (line.erase u) = Function.update (bucketsOf adj line) (adj u).length
      ((bucketsOf adj line (adj u).length).erase u) := by
  funext d
  rw [Function.update_apply, bucketsOf, ← List.erase_filter]
  split
  · next hd => rw [hd, bucketsOf]
  · next hd => exact List.erase_of_not_mem (by simp [Ne.symm hd])

theorem bucketsOf_cons (adj : Nat → List Nat) (line : List Nat) (u : Nat) :
    bucketsOf adj (u :: line) = Function.update (bucketsOf adj line) (adj u).length
      (u :: bucketsOf adj line (adj u).length) := by
  funext d
  rw [Function.update_apply, bucketsOf]
  split
  · next hd => rw [hd, List.filter_cons_of_pos (by simp), bucketsOf]
  · next hd => rw [List.filter_cons_of_neg (by simpa using Ne.symm hd), bucketsOf]

theorem bucketsOf_update (hu : u ∉ line) (xs : List Nat) :
    bucketsOf (Function.update adj u xs) line = bucketsOf adj line := by
  funext d
  refine List.filter_congr fun x hx => ?_
  have hxu : x ≠ u := fun heq => hu (heq ▸ hx)
  rw [Function.update_of_ne hxu]

/-- The first node of a bucket is the first in line of its degree. -/
theorem split_of_bucketsOf {rest : List Nat} (h : bucketsOf adj line d = u :: rest) :
    ∃ before after, line = before ++ u :: after ∧ ∀ x ∈ before, (adj x).length ≠ d := by
  obtain ⟨before, after, hline, hbefore, -, -⟩ := List.filter_eq_cons_iff.mp h
  exact ⟨before, after, hline, fun x hx heq => hbefore x hx (by simpa using heq)⟩

end Line

section Lined

variable {n : Nat} {line : List Nat} {adj : Nat → List Nat} {s : State} {u : Nat}

theorem Lined.leave (h : Lined n line adj s) (hu : u ∈ line) :
    ∃ buckets, s.buckets.remove u (adj u).length = some buckets ∧
      Lined n (line.erase u) adj { s with buckets } := by
  obtain ⟨buckets, hrun, h'⟩ := h.underway.leave (List.mem_toFinset.mpr hu)
  rw [← toFinset_erase h.nodup, ← bucketsOf_erase] at h'
  exact ⟨buckets, hrun, h.nodup.erase u, h'⟩

theorem Lined.rewire (h : Lined n line adj s) (hu : u < n) (hnew : u ∉ line) (xs : List Nat) :
    ∃ adjacent, write s.adjacent u xs = some adjacent ∧
      Lined n line (Function.update adj u xs) { s with adjacent } := by
  obtain ⟨adjacent, hrun, h'⟩ := h.underway.rewire hu (fun hmem => hnew (by simpa using hmem)) xs
  rw [← bucketsOf_update hnew xs] at h'
  exact ⟨adjacent, hrun, h.nodup, h'⟩

theorem Lined.put (h : Lined n line adj s) (hu : u < n) (hnew : u ∉ line)
    (hshort : (adj u).length < n) {low : Nat} (hlow : low ≤ s.minDegree)
    (hlowu : low ≤ (adj u).length) :
    ∃ degree buckets, write s.degree u (adj u).length = some degree ∧
      s.buckets.insert u (adj u).length = some buckets ∧
      Lined n (u :: line) adj { s with degree, buckets, minDegree := low } := by
  obtain ⟨degree, buckets, hdegree, hbuckets, h'⟩ :=
    h.underway.put hu (fun hmem => hnew (by simpa using hmem)) hshort hlow hlowu
  rw [← List.toFinset_cons, ← bucketsOf_cons] at h'
  exact ⟨degree, buckets, hdegree, hbuckets, List.nodup_cons.mpr ⟨hnew, h.nodup⟩, h'⟩

theorem Lined.enter (h : Lined n line adj s) (hu : u < n) (hnew : u ∉ line)
    (hshort : (adj u).length < n) (hmin : s.minDegree = 0) :
    ∃ s', s.enter u = some s' ∧ Lined n (u :: line) adj s' ∧ s'.minDegree = 0 ∧
      s'.pivots = s.pivots := by
  obtain ⟨degree, buckets, hdegree, hbuckets, h'⟩ :=
    h.put hu hnew hshort (Nat.zero_le _) (Nat.zero_le _)
  refine ⟨{ s with degree, buckets }, ?_, ?_, hmin, rfl⟩
  · rw [State.enter, h.underway.adjacent.get u hu]
    simp only [Option.bind_eq_bind, Option.bind_some, hdegree, hbuckets]
    rfl
  · rw [← hmin] at h'
    exact h'

theorem Lined.join (h : Lined n line adj s) (hu : u ∈ line) {pivot : Nat} {clique : List Nat}
    (hkept : ∀ x ∈ adj u, x ≠ pivot → x < n) (hnodup : clique.Nodup) (hclique : ∀ x ∈ clique, x < n)
    (hshort : (joined pivot clique u (adj u)).length < n) :
    ∃ s', State.join pivot clique s u = some s' ∧
      Lined n (toFront line u) (Function.update adj u (joined pivot clique u (adj u))) s' := by
  have hmem := List.mem_toFinset.mpr hu
  have hun := h.underway.lt u hmem
  have hgone : u ∉ line.erase u := fun hmem => (h.nodup.mem_erase_iff.mp hmem).1 rfl
  have hmarked : ∀ x ∈ (adj u).filter (· ≠ pivot), x < n := fun x hx =>
    hkept x (List.mem_of_mem_filter hx) (by simpa using List.of_mem_filter hx)
  obtain ⟨stamp, hstampAll, hstamped⟩ := stampAll_spec h.underway.stamps hmarked
  obtain ⟨list, stamp', hlist, hjoined, hstamps⟩ :=
    appendAll_spec (u := u) hstamped hnodup hclique
  rw [← joined] at hjoined
  obtain ⟨removed, hremove, h₁⟩ := h.leave hu
  obtain ⟨adjacent, hadjacent, h₂⟩ := h₁.rewire hun hgone (joined pivot clique u (adj u))
  have hnew := Function.update_self u (joined pivot clique u (adj u)) adj
  have hlow : min s.minDegree (joined pivot clique u (adj u)).length ≤
      (Function.update adj u (joined pivot clique u (adj u)) u).length := by
    rw [hnew]
    exact Nat.min_le_right _ _
  obtain ⟨degree, buckets, hdegree, hbuckets, h₃⟩ :=
    h₂.put hun hgone (hnew.symm ▸ hshort) (Nat.min_le_left _ _) hlow
  rw [hnew] at hdegree hbuckets
  refine ⟨_, ?_, h₃.nodup, h₃.underway.restamp hstamps⟩
  have hsize : list.size = (joined pivot clique u (adj u)).length := by
    rw [← hjoined, Array.length_toList]
  rw [State.join, h.underway.adjacent.get u hun, h.underway.degree u hmem]
  simp only [Option.bind_eq_bind, Option.bind_some, hstampAll, hlist, hremove, hjoined, hsize,
    hadjacent, hdegree, hbuckets]
  rfl

theorem pivots_of_join {pivot : Nat} {clique : List Nat} {s' : State}
    (h : State.join pivot clique s u = some s') : s'.pivots = s.pivots := by
  simp only [State.join, Option.bind_eq_bind, Option.bind_eq_some_iff] at h
  obtain ⟨_, -, _, -, _, -, _, -, _, -, _, -, _, -, _, -, h⟩ := h
  obtain rfl := Option.some.inj h
  rfl

/-- A neighbour that has not been joined yet still has the list it had in the graph. -/
theorem Lined.joinNext {pivot x : Nat} {done rest : List Nat} (hg : Graph line.toFinset adj)
    (hp : pivot ∈ line) (hn : line.length ≤ n) (hclique : adj pivot = done ++ x :: rest)
    (h : Lined n (done.foldl toFront (line.erase pivot)) (joining adj pivot done) s) :
    ∃ s', State.join pivot (adj pivot) s x = some s' ∧
      Lined n ((done ++ [x]).foldl toFront (line.erase pivot))
        (joining adj pivot (done ++ [x])) s' := by
  have hp' := List.mem_toFinset.mpr hp
  have hx : x ∈ adj pivot := by rw [hclique]; simp
  have hxp : x ≠ pivot := fun heq => hg.irrefl pivot hp' (heq ▸ hx)
  have hxn : x ∈ line.toFinset.erase pivot := Finset.mem_erase.mpr ⟨hxp, hg.mem pivot hp' x hx⟩
  have hwaits : ∀ y ∈ line.erase pivot, y ∈ done.foldl toFront (line.erase pivot) := fun y hy =>
    mem_foldl_toFront.mpr (Or.inr hy)
  have hlt : ∀ y ∈ line.erase pivot, y < n := fun y hy =>
    h.underway.lt y (List.mem_toFinset.mpr (hwaits y hy))
  have hdone : x ∉ done := by
    have hnodup := hg.nodup pivot hp'
    rw [hclique, List.nodup_append] at hnodup
    exact fun hmem => hnodup.2.2 x hmem x List.mem_cons_self rfl
  have hold : joining adj pivot done x = adj x := by rw [joining, if_neg hxp, if_neg hdone]
  have hjoined : joining adj pivot (adj pivot) x = joined pivot (adj pivot) x (adj x) := by
    rw [joining, if_neg hxp, if_pos hx]
  have hfit : (joined pivot (adj pivot) x (joining adj pivot done x)).length < n := by
    have hshort := (hg.eliminate hp').length_lt hxn
    have hcard := Finset.card_erase_le (s := line.toFinset) (a := pivot)
    have hlength := List.toFinset_card_le line
    rw [hjoined] at hshort
    rw [hold]
    omega
  have hkept : ∀ y ∈ joining adj pivot done x, y ≠ pivot → y < n := by
    intro y hy hyp
    rw [hold] at hy
    have hyn := hg.mem x (Finset.mem_of_mem_erase hxn) y hy
    exact hlt y ((List.mem_erase_of_ne hyp).mpr (List.mem_toFinset.mp hyn))
  obtain ⟨s', hrun, h'⟩ := h.join (hwaits x (hg.mem_erase_of_mem hp hx)) hkept
    (hg.nodup pivot hp') (fun y hy => hlt y (hg.mem_erase_of_mem hp hy)) hfit
  rw [hold] at h'
  refine ⟨s', hrun, ?_⟩
  rw [joining_snoc adj hxp, List.foldl_append]
  exact h'

theorem Lined.joinAll {pivot : Nat} (hg : Graph line.toFinset adj) (hp : pivot ∈ line)
    (hn : line.length ≤ n) (h : Lined n (line.erase pivot) (Function.update adj pivot []) s) :
    ∃ s', (adj pivot).foldlM (State.join pivot (adj pivot)) s = some s' ∧
      Lined n (requeue line pivot (adj pivot)) (joining adj pivot (adj pivot)) s' ∧
      s'.pivots = s.pivots := by
  obtain ⟨s', hrun, h'⟩ := foldlM_total (l := adj pivot)
    (f := State.join pivot (adj pivot)) (s := s)
    (fun done s => Lined n (done.foldl toFront (line.erase pivot)) (joining adj pivot done) s)
    (by rw [joining_nil]; exact h)
    fun done x rest hclique s h => h.joinNext hg hp hn hclique
  refine ⟨s', hrun, h', ?_⟩
  exact foldlM_keeps (I := fun t => t.pivots = s.pivots)
    (fun t x t' ht hstep => (pivots_of_join hstep).trans ht) hrun rfl

/-- A step eliminates the first in line of least degree, and records the neighbours it had. -/
theorem Lined.eliminate (h : Lined n line adj s) (hg : Graph line.toFinset adj)
    (hn : line.length ≤ n) (hne : line ≠ []) :
    ∃ before pivot after, line = before ++ pivot :: after ∧
      (∀ u ∈ before, (adj pivot).length < (adj u).length) ∧
      (∀ u ∈ after, (adj pivot).length ≤ (adj u).length) ∧
      ∃ s', s.eliminate = some s' ∧ s'.pivots = s.pivots.push (pivot, adj pivot) ∧
        Lined n (requeue line pivot (adj pivot)) (joining adj pivot (adj pivot)) s' := by
  obtain ⟨pivot, hp, hfirst, ⟨rest, hbucket⟩, hleast⟩ :=
    h.underway.firstFrom (List.toFinset_nonempty_iff line |>.mpr hne)
  simp only [List.mem_toFinset] at hp hleast
  obtain ⟨before, after, hline, hbefore⟩ := split_of_bucketsOf hbucket
  have hpn := h.underway.lt pivot (List.mem_toFinset.mpr hp)
  have hgone : pivot ∉ line.erase pivot := fun hmem => (h.nodup.mem_erase_iff.mp hmem).1 rfl
  obtain ⟨buckets, hremove, h₁⟩ := h.leave hp
  obtain ⟨adjacent, hadjacent, h₂⟩ := h₁.rewire hpn hgone []
  have hlow : ∀ u ∈ (line.erase pivot).toFinset,
      (adj pivot).length ≤ (Function.update adj pivot [] u).length := by
    intro u hu
    obtain ⟨hup, hul⟩ := h.nodup.mem_erase_iff.mp (List.mem_toFinset.mp hu)
    rw [Function.update_of_ne hup]
    exact hleast u hul
  have h₃ := h₂.underway.startAt hlow (s.pivots.push (pivot, adj pivot))
  obtain ⟨s', hjoin, h', hpivots⟩ := Lined.joinAll hg hp hn ⟨h₂.nodup, h₃⟩
  refine ⟨before, pivot, after, hline, fun u hu => ?_, fun u hu => ?_, s', ?_, hpivots, h'⟩
  · exact Nat.lt_of_le_of_ne (hleast u (by simp [hline, hu])) (hbefore u hu).symm
  · exact hleast u (by simp [hline, hu])
  · rw [State.eliminate, hfirst]
    simp only [Option.bind_eq_bind, Option.bind_some, h.underway.adjacent.get pivot hpn, hadjacent,
      hremove]
    exact hjoin

/-- As many steps can be taken as there are nodes in line. -/
theorem Lined.run (count : Nat) (h : Lined n line adj s) (hg : Graph line.toFinset adj)
    (hn : line.length ≤ n) (hcount : line.length = count) :
    ∃ s' picks, s.run count = some s' ∧ s'.pivots.toList = s.pivots.toList ++ picks ∧
      Queued line adj picks := by
  induction count generalizing line adj s with
  | zero =>
      obtain rfl := List.length_eq_zero_iff.mp hcount
      exact ⟨s, [], rfl, (List.append_nil _).symm, .done adj⟩
  | succ count ih =>
      have hne : line ≠ [] := List.ne_nil_of_length_pos (by omega)
      obtain ⟨before, pivot, after, rfl, hfewer, hleast, s₁, hstep, hpivots, h₁⟩ :=
        h.eliminate hg hn hne
      have hp : pivot ∈ before ++ pivot :: after := by simp
      have hlength : (requeue (before ++ pivot :: after) pivot (adj pivot)).length = count := by
        rw [← List.toFinset_card_of_nodup h₁.nodup, toFinset_requeue h.nodup hg hp,
          Finset.card_erase_of_mem (List.mem_toFinset.mpr hp), List.toFinset_card_of_nodup h.nodup,
          hcount, Nat.add_sub_cancel]
      obtain ⟨s', picks, hrun, hrest, hqueued⟩ :=
        ih h₁ (hg.requeue h.nodup hp) (by omega) hlength
      refine ⟨s', (pivot, adj pivot) :: picks, ?_, ?_, .pick h.nodup hfewer hleast hqueued⟩
      · rw [State.run, hstep]
        exact hrun
      · rw [hrest, hpivots, Array.toList_push, List.append_assoc, List.singleton_append]

end Lined

/-- Whoever is first in line of those with the fewest neighbours has the fewest. -/
theorem Queued.greedy {line : List Nat} {adj : Nat → List Nat} {picks : List (Nat × List Nat)}
    (h : Queued line adj picks) (hg : Graph line.toFinset adj) :
    Greedy line.toFinset adj picks := by
  induction h with
  | done adj => exact .done adj
  | @pick before after adj pivot picks nodup fewer least rest ih =>
      have hp : pivot ∈ before ++ pivot :: after := by simp
      have hrest := ih (hg.requeue nodup hp)
      rw [toFinset_requeue nodup hg hp] at hrest
      refine .pick (List.mem_toFinset.mpr hp) ?_ hrest
      intro u hu
      rw [List.mem_toFinset, List.mem_append, List.mem_cons] at hu
      rcases hu with hu | rfl | hu
      · exact (fewer u hu).le
      · exact Nat.le_refl _
      · exact least u hu

/-! ## The whole method -/

section Order

variable {p : Pattern}

theorem lined_start (n : Nat) {adjacent : Array (List Nat)} {adj : Nat → List Nat}
    (h : Tabulates adjacent n adj) :
    Lined n [] adj (.start n adjacent) where
  nodup := List.nodup_nil
  underway :=
    { lt := fun u hu => nomatch hu
      short := fun u hu => nomatch hu
      adjacent := h
      size_degree := Array.size_replicate
      degree := fun u hu => nomatch hu
      buckets := holds_empty n
      mem_bucket := fun d _ u => by simp [bucketsOf]
      stamps :=
        { size_eq := Array.size_replicate
          le := fun x t ht => by
            simp only [State.start, Array.getElem?_replicate] at ht
            split at ht
            · exact (Option.some.inj ht).symm.le
            · cases ht }
      minDegree := fun u hu => nomatch hu }

/-- Nodes that are put in from the last to the first stand in line from the first to the last. -/
theorem enterAll_spec {n : Nat} {adjacent : Array (List Nat)} {adj : Nat → List Nat}
    (h : Tabulates adjacent n adj) {xs : List Nat} (hnodup : xs.Nodup)
    (hshort : ∀ u ∈ xs, u < n ∧ (adj u).length < n) :
    ∃ s, xs.reverse.foldlM State.enter (.start n adjacent) = some s ∧
      Lined n xs adj s ∧ s.pivots.toList = [] := by
  obtain ⟨s, hrun, hs, -, hpivots⟩ := foldlM_total (l := xs.reverse) (f := State.enter)
    (s := .start n adjacent)
    (fun done s => Lined n done.reverse adj s ∧ s.minDegree = 0 ∧ s.pivots.toList = [])
    ⟨lined_start n h, rfl, rfl⟩
    (by
      intro done x rest hsplit s hs
      obtain ⟨hs, hmin, hpivots⟩ := hs
      have hx : x ∈ xs := by
        rw [← List.mem_reverse, hsplit]
        simp
      have hdone : x ∉ done.reverse := by
        rw [← List.nodup_reverse, hsplit, List.nodup_append] at hnodup
        rw [List.mem_reverse]
        exact fun hmem => hnodup.2.2 x hmem x (by simp) rfl
      obtain ⟨hxn, hxshort⟩ := hshort x hx
      obtain ⟨s', hrun, hs', hmin', hkept⟩ := hs.enter hxn hdone hxshort hmin
      refine ⟨s', hrun, ?_, hmin', by rw [hkept, hpivots]⟩
      rw [List.reverse_append]
      exact hs')
  rw [List.reverse_reverse] at hs
  exact ⟨s, hrun, hs, hpivots⟩

/-- On every pattern that can be followed the nodes that are not dense are picked from a line in
which they stand in the order of their numbers. -/
theorem pivots_spec (hp : p.Valid) (threshold : Nat) :
    ∃ adj picks, pivots p threshold = some (picks, denseNodes p.n adj threshold) ∧
      (∀ u, (adj u).Pairwise (· < ·) ∧ ∀ x, x ∈ adj u ↔ p.Adjacent u x) ∧
      Queued (remaining p.n (denseNodes p.n adj threshold))
        (restrict adj (denseNodes p.n adj threshold)) picks.toList := by
  obtain ⟨adjacent, adj, hrun, htab, hadj⟩ := adjacency_spec hp
  have hflags := tabulates_denseFlags htab threshold
  obtain ⟨dense, hdense⟩ : ∃ dense, denseNodes p.n adj threshold = dense := ⟨_, rfl⟩
  rw [hdense] at hflags
  have hg := graph_restrict hp hadj dense
  have hnodup := nodup_remaining p.n dense
  have hcard := List.toFinset_card_of_nodup hnodup
  have hlength : (remaining p.n dense).length ≤ p.n := by
    simpa [remaining] using List.length_filter_le (fun i => !dense.contains i) (List.range p.n)
  have hshort : ∀ u ∈ remaining p.n dense, u < p.n ∧ (restrict adj dense u).length < p.n := by
    intro u hu
    have hlt := hg.length_lt (List.mem_toFinset.mpr hu)
    exact ⟨(mem_remaining.mp hu).1, by omega⟩
  obtain ⟨sparse, hwithout, hsparse⟩ :=
    without_spec htab (fun u _ x hx => (((hadj u).2 x).mp hx).lt hp) hflags
  have hfront : select (denseFlags adjacent threshold) false (List.range p.n).reverse =
      some (remaining p.n dense).reverse := by
    rw [select_false hflags fun x hx => List.mem_range.mp (List.mem_reverse.mp hx),
      List.filter_reverse, remaining]
  have hback : select (denseFlags adjacent threshold) true (List.range p.n) = some dense := by
    rw [select_eq hflags true fun x => List.mem_range.mp, ← hdense, denseNodes]
    refine congrArg some (List.filter_congr fun x hx => ?_)
    rw [beq_true, List.contains_eq_mem]
    simp [List.mem_range.mp hx]
  obtain ⟨s, henter, hs, hstart⟩ := enterAll_spec hsparse hnodup hshort
  obtain ⟨final, picks, hfinal, hpicks, hqueued⟩ :=
    hs.run (remaining p.n dense).length hg hlength rfl
  rw [hstart, List.nil_append] at hpicks
  refine ⟨adj, final.pivots, ?_, hadj, ?_⟩
  · rw [pivots, hrun, hdense]
    simp only [Option.bind_eq_bind, Option.bind_some, hfront, hwithout, henter,
      List.length_reverse, hfinal, hback]
    rfl
  · rw [hdense, hpicks]
    exact hqueued

end Order

end Saddle.Elimination.MinimumDegree
