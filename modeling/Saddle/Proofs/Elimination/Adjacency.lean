import Saddle.Proofs.Elimination.Graph
import Saddle.Proofs.Elimination.Pattern

/-!
# The graph of a pattern

Two nodes are neighbours if the pattern has an entry for them on either side of the
diagonal. Reading the pattern puts each of the two into the list of the other, as often
as an entry says so and in the order of reading; sorting the lists and dropping what is
repeated leaves of this only which nodes are neighbours.

The nodes with too many neighbours are left out, and the lists of the others without
them are those of a graph again.
-/

namespace Saddle.Elimination

open Access

/-- The pattern has an entry for two different nodes. -/
def Pattern.Adjacent (p : Pattern) (u x : Nat) : Prop :=
  x ≠ u ∧ (u < p.n ∧ x ∈ p.rows u ∨ x < p.n ∧ u ∈ p.rows x)

theorem Pattern.Adjacent.symm {p : Pattern} {u x : Nat} (h : p.Adjacent u x) : p.Adjacent x u :=
  ⟨h.1.symm, h.2.symm⟩

theorem Pattern.Adjacent.lt {p : Pattern} {u x : Nat} (h : p.Adjacent u x) (hp : p.Valid) :
    x < p.n := by
  rcases h.2 with ⟨hu, hx⟩ | ⟨hx, -⟩
  · exact hp.rows_lt hu hx
  · exact hx

namespace MinimumDegree

/-! ## Sorting -/

/-- In a list in order, what is erased are the repetitions. -/
theorem eraseReps_loop_spec (xs : List Nat) (a : Nat) (acc : List Nat)
    (h : (a :: xs).Pairwise (· ≤ ·)) :
    ∃ ys, List.eraseRepsBy.loop (· == ·) a xs acc = acc.reverse ++ ys ∧ ys.Pairwise (· < ·) ∧
      ∀ x, x ∈ ys ↔ x ∈ a :: xs := by
  induction xs generalizing a acc with
  | nil =>
      refine ⟨[a], ?_, List.pairwise_singleton _ a, fun x => Iff.rfl⟩
      rw [List.eraseRepsBy.loop, List.reverse_cons]
  | cons b xs ih =>
      rw [List.pairwise_cons] at h
      by_cases hab : a = b
      · subst hab
        obtain ⟨ys, hrun, hinc, hmem⟩ := ih a acc h.2
        refine ⟨ys, ?_, hinc, fun x => ?_⟩
        · rw [List.eraseRepsBy.loop, beq_self_eq_true]
          exact hrun
        · rw [hmem]
          simp
      · obtain ⟨ys, hrun, hinc, hmem⟩ := ih b (a :: acc) h.2
        refine ⟨a :: ys, ?_, List.pairwise_cons.mpr ⟨fun x hx => ?_, hinc⟩, fun x => ?_⟩
        · rw [List.eraseRepsBy.loop, beq_false_of_ne hab]
          exact hrun.trans (by simp)
        · have hb := h.1 b (by simp)
          rcases List.mem_cons.mp ((hmem x).mp hx) with rfl | hx
          · omega
          · have := (List.pairwise_cons.mp h.2).1 x hx
            omega
        · rw [List.mem_cons, List.mem_cons, hmem]

theorem sortDistinct_spec (xs : List Nat) :
    (sortDistinct xs).Pairwise (· < ·) ∧ ∀ x, x ∈ sortDistinct xs ↔ x ∈ xs := by
  have hsorted : (xs.mergeSort (· ≤ ·)).Pairwise (· ≤ ·) := by
    have h : (xs.mergeSort (· ≤ ·)).Pairwise fun a b => decide (a ≤ b) = true :=
      List.pairwise_mergeSort
      (fun a b c => by simp only [decide_eq_true_eq]; exact Nat.le_trans)
      (fun a b => by simpa using Nat.le_total a b) xs
    simpa only [decide_eq_true_eq] using h
  have hmem : ∀ x, x ∈ xs.mergeSort (· ≤ ·) ↔ x ∈ xs := fun x => List.mem_mergeSort
  rw [sortDistinct, List.eraseReps]
  cases hxs : xs.mergeSort (· ≤ ·) with
  | nil =>
      rw [hxs] at hmem
      exact ⟨List.Pairwise.nil, hmem⟩
  | cons a rest =>
      rw [hxs] at hsorted hmem
      obtain ⟨ys, hrun, hinc, hys⟩ := eraseReps_loop_spec rest a [] hsorted
      rw [List.eraseRepsBy, hrun]
      exact ⟨hinc, fun x => (hys x).trans (hmem x)⟩

/-! ## Reading -/

section Read

variable {n : Nat} {adjacent : Array (List Nat)} {g : Nat → List Nat} {p : Pattern}

theorem connect_spec (h : Tabulates adjacent n g) {i j : Nat} (hi : i < n) (hj : j < n) :
    ∃ adjacent' g', connect j adjacent i = some adjacent' ∧ Tabulates adjacent' n g' ∧
      ∀ u x, x ∈ g' u ↔ x ∈ g u ∨ x ≠ u ∧ (u = j ∧ x = i ∨ x = j ∧ u = i) := by
  by_cases hij : i = j
  · refine ⟨adjacent, g, by rw [connect, if_pos hij], h, fun u x => ?_⟩
    refine ⟨Or.inl, fun hx => hx.resolve_right fun ⟨hne, hux⟩ => ?_⟩
    omega
  · obtain ⟨first, hfirst, htab⟩ := h.adjust hi (j :: ·)
    obtain ⟨second, hsecond, htab'⟩ := htab.adjust hj (i :: ·)
    refine ⟨second, _, ?_, htab', fun u x => ?_⟩
    · rw [connect, if_neg hij, hfirst]
      exact hsecond
    · rw [Function.update_of_ne (Ne.symm hij)]
      by_cases huj : u = j
      · subst huj
        rw [Function.update_self, List.mem_cons]
        refine or_comm.trans (or_congr_right ⟨fun hx => ?_, fun hx => ?_⟩) <;> omega
      · rw [Function.update_of_ne huj]
        by_cases hui : u = i
        · subst hui
          rw [Function.update_self, List.mem_cons]
          refine or_comm.trans (or_congr_right ⟨fun hx => ?_, fun hx => ?_⟩) <;> omega
        · rw [Function.update_of_ne hui]
          exact ⟨Or.inl, fun hx => hx.resolve_right fun ⟨hne, hux⟩ => by omega⟩

/-- The neighbours that the columns before `k` tell of. -/
def Tells (p : Pattern) (k u x : Nat) : Prop :=
  x ≠ u ∧ (u < k ∧ x ∈ p.rows u ∨ x < k ∧ u ∈ p.rows x)

/-- The neighbours that the rows in `done` of column `k` tell of. -/
def TellsIn (k : Nat) (done : List Nat) (u x : Nat) : Prop :=
  x ≠ u ∧ (u = k ∧ x ∈ done ∨ x = k ∧ u ∈ done)

theorem tellsIn_snoc {k i u x : Nat} {done : List Nat} :
    TellsIn k (done ++ [i]) u x ↔
      TellsIn k done u x ∨ x ≠ u ∧ (u = k ∧ x = i ∨ x = k ∧ u = i) := by
  simp only [TellsIn, List.mem_append, List.mem_singleton]
  rw [← and_or_left]
  refine and_congr_right fun _ => ?_
  rw [and_or_left, and_or_left, or_or_or_comm]

theorem tells_succ {k u x : Nat} :
    Tells p (k + 1) u x ↔ Tells p k u x ∨ TellsIn k (p.rows k) u x := by
  have hlt : ∀ i j : Nat, (i < k + 1 ∧ j ∈ p.rows i) ↔
      (i < k ∧ j ∈ p.rows i) ∨ (i = k ∧ j ∈ p.rows k) := by
    intro i j
    rw [Nat.lt_succ_iff_lt_or_eq, or_and_right]
    refine or_congr_right (and_congr_right fun hi => ?_)
    rw [hi]
  simp only [Tells, TellsIn]
  rw [← and_or_left]
  refine and_congr_right fun _ => ?_
  rw [hlt, hlt, or_or_or_comm]

theorem readColumn_spec (hp : p.Valid) {k : Nat} (hk : k < p.n) (h : Tabulates adjacent p.n g)
    (hg : ∀ u x, x ∈ g u ↔ Tells p k u x) :
    ∃ adjacent' g', (p.rows k).foldlM (connect k) adjacent = some adjacent' ∧
      Tabulates adjacent' p.n g' ∧ ∀ u x, x ∈ g' u ↔ Tells p (k + 1) u x := by
  obtain ⟨adjacent', hrun, g', htab, hg'⟩ := foldlM_total (l := p.rows k) (f := connect k)
    (s := adjacent)
    (fun done adjacent => ∃ g, Tabulates adjacent p.n g ∧
      ∀ u x, x ∈ g u ↔ Tells p k u x ∨ TellsIn k done u x)
    ⟨g, h, fun u x => by simp [hg, TellsIn]⟩
    (by
      rintro done i rest hrows adjacent ⟨g, htab, hg⟩
      have hi : i < p.n := hp.rows_lt hk (by rw [hrows]; simp)
      obtain ⟨adjacent', g', hrun, htab', hg'⟩ := connect_spec htab hi hk
      refine ⟨adjacent', hrun, g', htab', fun u x => ?_⟩
      rw [hg', hg, or_assoc, tellsIn_snoc])
  refine ⟨adjacent', g', hrun, htab, fun u x => ?_⟩
  rw [hg', tells_succ]

/-- The lists are in order and name the neighbours of each node. -/
theorem adjacency_spec (hp : p.Valid) :
    ∃ adjacent adj, adjacency p = some adjacent ∧ Tabulates adjacent p.n adj ∧
      ∀ u, (adj u).Pairwise (· < ·) ∧ ∀ x, x ∈ adj u ↔ p.Adjacent u x := by
  obtain ⟨adjacent, hrun, g, htab, hg⟩ := foldlM_range_total (n := p.n)
    (f := fun adjacent j => do (← p.column? j).foldlM (connect j) adjacent)
    (s := Array.replicate p.n [])
    (fun k adjacent => ∃ g, Tabulates adjacent p.n g ∧ ∀ u x, x ∈ g u ↔ Tells p k u x)
    ⟨_, Tabulates.replicate p.n [], fun u x => by simp [Tells]⟩
    (by
      rintro k adjacent hk ⟨g, htab, hg⟩
      obtain ⟨adjacent', g', hrun, htab', hg'⟩ := readColumn_spec hp hk htab hg
      refine ⟨adjacent', ?_, g', htab', hg'⟩
      rw [hp.column?_eq hk]
      exact hrun)
  refine ⟨adjacent.map sortDistinct, fun u => sortDistinct (g u), ?_, ⟨?_, fun u hu => ?_⟩,
    fun u => ?_⟩
  · rw [adjacency, hrun]
    rfl
  · rw [Array.size_map, htab.size_eq]
  · rw [Array.getElem?_map, htab.get u hu]
    rfl
  · obtain ⟨hinc, hmem⟩ := sortDistinct_spec (g u)
    exact ⟨hinc, fun x => (hmem x).trans (hg u x)⟩

end Read

/-! ## Leaving nodes out -/

section Without

variable {p : Pattern} {n : Nat} {adjacent : Array (List Nat)} {adj : Nat → List Nat}
  {dense : List Nat} {flags : Array Bool}

/-- The nodes that are not left out. -/
def remaining (n : Nat) (dense : List Nat) : List Nat :=
  (List.range n).filter fun i => !dense.contains i

theorem mem_remaining {n u : Nat} : u ∈ remaining n dense ↔ u < n ∧ u ∉ dense := by
  simp [remaining]

theorem nodup_remaining (n : Nat) (dense : List Nat) : (remaining n dense).Nodup :=
  List.nodup_range.filter _

/-- The nodes with more than `threshold` neighbours in the lists. -/
def denseNodes (n : Nat) (adj : Nat → List Nat) (threshold : Nat) : List Nat :=
  (List.range n).filter fun u => threshold < (adj u).length

theorem tabulates_denseFlags (h : Tabulates adjacent n adj) (threshold : Nat) :
    Tabulates (denseFlags adjacent threshold) n
      fun u => decide (u ∈ denseNodes n adj threshold) := by
  refine ⟨by rw [denseFlags, Array.size_map, h.size_eq], fun u hu => ?_⟩
  rw [denseFlags, Array.getElem?_map, h.get u hu]
  simp [denseNodes, hu]

/-- What is selected by flags that stand for a list. -/
theorem select_eq (h : Tabulates flags n fun u => decide (u ∈ dense)) (wanted : Bool)
    {xs : List Nat} (hxs : ∀ x ∈ xs, x < n) :
    select flags wanted xs = some (xs.filter fun x => dense.contains x == wanted) := by
  induction xs with
  | nil => rfl
  | cons x xs ih =>
      rw [List.forall_mem_cons] at hxs
      rw [select, h.get x hxs.1, ih hxs.2, List.filter_cons, List.contains_eq_mem]
      simp only [Option.bind_eq_bind, Option.bind_some, beq_iff_eq]
      split <;> rfl

theorem select_false (h : Tabulates flags n fun u => decide (u ∈ dense)) {xs : List Nat}
    (hxs : ∀ x ∈ xs, x < n) :
    select flags false xs = some (xs.filter fun x => !dense.contains x) := by
  rw [select_eq h false hxs]
  simp only [beq_false]

/-- The lists without the nodes that are left out. -/
def restrict (adj : Nat → List Nat) (dense : List Nat) (u : Nat) : List Nat :=
  if dense.contains u then [] else (adj u).filter fun x => !dense.contains x

theorem mem_restrict {u x : Nat} :
    x ∈ restrict adj dense u ↔ u ∉ dense ∧ x ∈ adj u ∧ x ∉ dense := by
  rw [restrict]
  by_cases hu : u ∈ dense
  · simp [hu]
  · simp [hu, List.mem_filter]

theorem dropDense_spec (hflags : Tabulates flags n fun u => decide (u ∈ dense))
    (hlt : ∀ u < n, ∀ x ∈ adj u, x < n) {g : Nat → List Nat} (h : Tabulates adjacent n g) {k : Nat}
    (hk : k < n) (hgk : g k = adj k) :
    ∃ adjacent', dropDense flags adjacent k = some adjacent' ∧
      Tabulates adjacent' n (Function.update g k (restrict adj dense k)) := by
  obtain ⟨adjacent', hwrite, htab⟩ := h.write hk (restrict adj dense k)
  refine ⟨adjacent', ?_, htab⟩
  rw [dropDense, h.get k hk, hflags.get k hk, hgk]
  simp only [Option.bind_eq_bind, Option.bind_some, select_false hflags (hlt k hk)]
  rw [← hwrite, restrict, List.contains_eq_mem]
  split <;> rfl

theorem without_spec (h : Tabulates adjacent n adj) (hlt : ∀ u < n, ∀ x ∈ adj u, x < n)
    (hflags : Tabulates flags n fun u => decide (u ∈ dense)) :
    ∃ adjacent', without adjacent flags = some adjacent' ∧
      Tabulates adjacent' n (restrict adj dense) := by
  rw [without, h.size_eq]
  by_cases hany : flags.any id = true
  · obtain ⟨adjacent', hrun, htab⟩ := foldlM_range_total (f := dropDense flags)
      (fun k adjacent => Tabulates adjacent n
        fun u => if u < k then restrict adj dense u else adj u)
      (h.congr fun u _ => (if_neg (Nat.not_lt_zero u)).symm) fun k adjacent hk hadjacent => by
        obtain ⟨adjacent', hrun, htab⟩ :=
          dropDense_spec hflags hlt hadjacent hk (if_neg (Nat.lt_irrefl k))
        refine ⟨adjacent', hrun, htab.congr fun u _ => ?_⟩
        rw [Function.update_apply]
        by_cases huk : u = k
        · rw [if_pos huk, if_pos (huk ▸ Nat.lt_succ_self k), huk]
        · simp only [if_neg huk, show u < k + 1 ↔ u < k by omega]
    rw [if_pos hany]
    exact ⟨adjacent', hrun, htab.congr fun u hu => if_pos hu⟩
  · -- Without dense nodes there is nothing to leave out.
    have hnone : ∀ x < n, x ∉ dense := by
      intro x hx hmem
      have hget := hflags.get x hx
      rw [decide_eq_true hmem] at hget
      obtain ⟨hbound, hget⟩ := Array.getElem?_eq_some_iff.mp hget
      exact hany (Array.any_eq_true.mpr ⟨x, hbound, hget⟩)
    rw [if_neg hany]
    refine ⟨adjacent, rfl, h.congr fun u hu => ?_⟩
    rw [restrict, List.contains_eq_mem, if_neg (by simpa using hnone u hu)]
    refine (List.filter_eq_self.mpr fun x hx => ?_).symm
    simpa using hnone x (hlt u hu x hx)

/-- The graph without the nodes that are left out. -/
theorem graph_restrict (hp : p.Valid)
    (hadj : ∀ u, (adj u).Pairwise (· < ·) ∧ ∀ x, x ∈ adj u ↔ p.Adjacent u x) (dense : List Nat) :
    Graph (remaining p.n dense).toFinset (restrict adj dense) := by
  refine ⟨fun u _ => ?_, fun u _ x hx => ?_, fun u _ hmem => ?_, fun u _ x hx => ?_⟩
  · rw [restrict]
    split
    · exact List.nodup_nil
    · exact ((hadj u).1.imp fun h => Nat.ne_of_lt h).filter _
  · obtain ⟨-, hx, hxd⟩ := mem_restrict.mp hx
    rw [List.mem_toFinset, mem_remaining]
    exact ⟨(((hadj u).2 x).mp hx).lt hp, hxd⟩
  · obtain ⟨-, hu, -⟩ := mem_restrict.mp hmem
    exact (((hadj u).2 u).mp hu).1 rfl
  · obtain ⟨hud, hx, hxd⟩ := mem_restrict.mp hx
    exact mem_restrict.mpr ⟨hxd, ((hadj x).2 u).mpr (((hadj u).2 x).mp hx).symm, hud⟩

end Without

end MinimumDegree

end Saddle.Elimination
