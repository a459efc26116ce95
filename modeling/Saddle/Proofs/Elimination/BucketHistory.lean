import Saddle.Proofs.Elimination.DegreeBuckets

/-!
# The buckets after any history

What a bucket holds can be said without the links: a node is in the bucket into which
the last request that names it has put it, and of two nodes of a bucket the one that was
put there later is in front. A walk along the links from the front of a bucket has to
come to its end, and to pass these nodes in this order.

The links that a node had when it was removed stay behind, and may lead into lists that
have changed since. That they do no harm is part of the invariant of
`Saddle.Proofs.Elimination.DegreeBuckets`, which describes the links of the nodes that
are in a list and no others. Here the lists are tied to the history: a request changes
the last request of its own node only, so that one list has a node more or less, and
what is put in front has been put there last.
-/

namespace Saddle.Elimination.DegreeBuckets

/-- What is asked of the buckets. -/
inductive Request where
  | insert (node degree : Nat)
  | remove (node degree : Nat)

namespace Request

/-- The node that is inserted or removed. -/
def node : Request → Nat
  | insert i _ => i
  | remove i _ => i

/-- The bucket into which it is put, or from which it is taken. -/
def degree : Request → Nat
  | insert _ d => d
  | remove _ d => d

end Request

/-- Does what is asked. -/
def serve (b : DegreeBuckets) : Request → Option DegreeBuckets
  | .insert i d => b.insert i d
  | .remove i d => b.remove i d

/-- The buckets for `n` nodes after the requests, the first one first. -/
def serveAll (n : Nat) (history : List Request) : Option DegreeBuckets :=
  history.foldlM serve (empty n)

/-! ## Histories -/

/-- Request number `t` has put node `i` into the bucket of `d`, and no later one names `i`. -/
def PutAt (history : List Request) (t i d : Nat) : Prop :=
  history[t]? = some (.insert i d) ∧ ∀ u r, t < u → history[u]? = some r → r.node ≠ i

/-- Node `i` is in the bucket of `d`. -/
def Present (history : List Request) (i d : Nat) : Prop := ∃ t, PutAt history t i d

/-- A node is inserted if it is in no bucket, and removed from the bucket in which it is. -/
def Allowed (n : Nat) (history : List Request) : Request → Prop
  | .insert i d => i < n ∧ d < n ∧ ∀ e, ¬ Present history i e
  | .remove i d => i < n ∧ d < n ∧ Present history i d

/-- Each request was allowed after those before it. -/
inductive Admissible (n : Nat) : List Request → Prop where
  | nil : Admissible n []
  | snoc {history : List Request} {r : Request} : Admissible n history → Allowed n history r →
      Admissible n (history ++ [r])

section History

variable {history : List Request} {r : Request} {t i d : Nat}

theorem PutAt.lt_length (h : PutAt history t i d) : t < history.length :=
  (List.getElem?_eq_some_iff.mp h.1).1

theorem getElem?_snoc {β : Type} {xs : List β} {x y : β} {k : Nat} :
    (xs ++ [x])[k]? = some y ↔ xs[k]? = some y ∨ k = xs.length ∧ x = y := by
  rcases Nat.lt_trichotomy k xs.length with hlt | rfl | hgt
  · rw [List.getElem?_append_left hlt]
    simp [Nat.ne_of_lt hlt]
  · simp
  · rw [List.getElem?_eq_none (by simp; omega), List.getElem?_eq_none (Nat.le_of_lt hgt)]
    simp [Nat.ne_of_gt hgt]

/-- The last request decides on its own node. -/
theorem putAt_snoc : PutAt (history ++ [r]) t i d ↔
    t = history.length ∧ r = .insert i d ∨ r.node ≠ i ∧ PutAt history t i d := by
  constructor
  · intro ⟨hput, hlater⟩
    rcases getElem?_snoc.mp hput with hput | hlast
    · have ht := (List.getElem?_eq_some_iff.mp hput).1
      refine Or.inr ⟨hlater history.length r ht (getElem?_snoc.mpr (Or.inr ⟨rfl, rfl⟩)), hput, ?_⟩
      intro u r' hu hr'
      exact hlater u r' hu (getElem?_snoc.mpr (Or.inl hr'))
    · exact Or.inl hlast
  · rintro (⟨rfl, rfl⟩ | ⟨hne, hput⟩)
    · refine ⟨getElem?_snoc.mpr (Or.inr ⟨rfl, rfl⟩), ?_⟩
      intro u r' hu hr'
      rcases getElem?_snoc.mp hr' with hr' | ⟨rfl, -⟩
      · have := (List.getElem?_eq_some_iff.mp hr').1
        omega
      · exact absurd hu (Nat.lt_irrefl _)
    · refine ⟨getElem?_snoc.mpr (Or.inl hput.1), ?_⟩
      intro u r' hu hr'
      rcases getElem?_snoc.mp hr' with hr' | ⟨-, rfl⟩
      · exact hput.2 u r' hu hr'
      · exact hne

theorem not_present_nil : ¬ Present [] i d := by
  intro ⟨t, hput, _⟩
  simp at hput

theorem present_snoc : Present (history ++ [r]) i d ↔
    r = .insert i d ∨ r.node ≠ i ∧ Present history i d := by
  simp only [Present, putAt_snoc]
  constructor
  · rintro ⟨t, ⟨-, hr⟩ | ⟨hne, hput⟩⟩
    · exact Or.inl hr
    · exact Or.inr ⟨hne, t, hput⟩
  · rintro (hr | ⟨hne, t, hput⟩)
    · exact ⟨_, Or.inl ⟨rfl, hr⟩⟩
    · exact ⟨t, Or.inr ⟨hne, hput⟩⟩

end History

/-! ## Walks along the links -/

/-- From the given node on the links lead through the nodes of the list, and there they end. -/
inductive Leads (after : Array (Option Nat)) : Option Nat → List Nat → Prop where
  | done : Leads after none []
  | next {i : Nat} {following : Option Nat} {rest : List Nat} : after[i]? = some following →
      Leads after following rest → Leads after (some i) (i :: rest)

/-- A walk from the front of the bucket of `d` passes the nodes of the list. -/
def Walks (b : DegreeBuckets) (d : Nat) (xs : List Nat) : Prop :=
  ∃ front, b.first[d]? = some front ∧ Leads b.after front xs

theorem Leads.unique {after : Array (Option Nat)} {start : Option Nat} {xs ys : List Nat}
    (h : Leads after start xs) (h' : Leads after start ys) : xs = ys := by
  induction h generalizing ys with
  | done => cases h'; rfl
  | next hi _ ih =>
      cases h' with
      | next hi' hrest =>
          rw [hi, Option.some.injEq] at hi'
          rw [ih (hi' ▸ hrest)]

theorem Walks.unique {b : DegreeBuckets} {d : Nat} {xs ys : List Nat} (h : b.Walks d xs)
    (h' : b.Walks d ys) : xs = ys := by
  obtain ⟨front, hfront, hleads⟩ := h
  obtain ⟨front', hfront', hleads'⟩ := h'
  rw [hfront, Option.some.injEq] at hfront'
  exact hleads.unique (hfront' ▸ hleads')

section Walk

variable {after before : Array (Option Nat)} {xs : List Nat}

theorem Linked.leads (h : Linked (after[·]?) (before[·]?) xs) : Leads after xs.head? xs := by
  have walk : ∀ r l, xs = l ++ r → Leads after r.head? r := by
    intro r
    induction r with
    | nil => exact fun _ _ => .done
    | cons i r ih =>
        intro l hsplit
        exact .next (h l i r hsplit).1 (ih (l ++ [i]) (by rw [hsplit]; simp))
  exact walk xs [] rfl

/-- Along a list the two directions are inverse to each other. -/
theorem Linked.after_iff_before (h : Linked (after[·]?) (before[·]?) xs) {i j : Nat}
    (hi : i ∈ xs) (hj : j ∈ xs) :
    after[i]? = some (some j) ↔ before[j]? = some (some i) := by
  constructor
  · intro hafter
    obtain ⟨l, r, hsplit⟩ := List.append_of_mem hi
    have hhead := (h l i r hsplit).1.symm.trans hafter
    obtain ⟨r, rfl⟩ := List.head?_eq_some_iff.mp (Option.some.inj hhead)
    have hbefore := (h (l ++ [i]) j r (by rw [hsplit]; simp)).2
    simpa using hbefore
  · intro hbefore
    obtain ⟨l, r, hsplit⟩ := List.append_of_mem hj
    have hlast := (h l j r hsplit).2.symm.trans hbefore
    obtain ⟨l, rfl⟩ := List.getLast?_eq_some_iff.mp (Option.some.inj hlast)
    have hafter := (h l i (j :: r) (by rw [hsplit]; simp)).1
    simpa using hafter

end Walk

/-! ## What the buckets hold -/

/-- The bucket of `d` is the list, as the history has it. -/
structure Lists (b : DegreeBuckets) (history : List Request) (d : Nat) (xs : List Nat) :
    Prop where
  walks : b.Walks d xs
  mem_iff : ∀ i, i ∈ xs ↔ Present history i d
  nodup : xs.Nodup
  latest_first : xs.Pairwise fun i j => ∀ t u, PutAt history t i d → PutAt history u j d → u < t
  front : ∀ i ∈ xs.head?, b.before[i]? = some none
  inverse : ∀ i ∈ xs, ∀ j ∈ xs,
    (b.after[i]? = some (some j) ↔ b.before[j]? = some (some i))

/-- The lists are those of the history, each with what was put into it last in front. -/
structure Records (n : Nat) (history : List Request) (f : Nat → List Nat) : Prop where
  mem_iff : ∀ d < n, ∀ i, i ∈ f d ↔ Present history i d
  latest_first : ∀ d < n,
    (f d).Pairwise fun i j => ∀ t u, PutAt history t i d → PutAt history u j d → u < t

theorem records_nil (n : Nat) : Records n [] fun _ => [] where
  mem_iff d _ i := by simp [not_present_nil]
  latest_first d _ := List.Pairwise.nil

section Records

variable {n : Nat} {history : List Request} {f : Nat → List Nat} {i d : Nat}

/-- A request about another node leaves the order of two nodes as it is. -/
theorem Records.pairwise_snoc (h : Records n history f) {r : Request} {e : Nat} (he : e < n)
    {xs : List Nat} (hsub : xs.Sublist (f e)) (hother : ∀ j ∈ xs, r.node ≠ j) :
    xs.Pairwise fun i j =>
      ∀ t u, PutAt (history ++ [r]) t i e → PutAt (history ++ [r]) u j e → u < t := by
  have hold : ∀ j ∈ xs, ∀ t, PutAt (history ++ [r]) t j e → PutAt history t j e := by
    intro j hj t hput
    rcases putAt_snoc.mp hput with ⟨-, rfl⟩ | ⟨-, hput⟩
    · exact absurd rfl (hother j hj)
    · exact hput
  refine ((h.latest_first e he).sublist hsub).imp_of_mem ?_
  intro j k hj hk hlatest t u ht hu
  exact hlatest t u (hold j hj t ht) (hold k hk u hu)

/-- A request that names no node of a list, and puts none into it, leaves the list as it is. -/
theorem Records.mem_iff_snoc (h : Records n history f) {r : Request} {e : Nat} (he : e < n)
    (hnew : ∀ j, r ≠ .insert j e) (hother : ∀ j ∈ f e, r.node ≠ j) (j : Nat) :
    j ∈ f e ↔ Present (history ++ [r]) j e := by
  rw [present_snoc, h.mem_iff e he]
  constructor
  · intro hj
    exact Or.inr ⟨hother j ((h.mem_iff e he j).mpr hj), hj⟩
  · rintro (heq | ⟨-, hj⟩)
    · exact absurd heq (hnew j)
    · exact hj

theorem Records.insert (h : Records n history f) (hnew : ∀ e, ¬ Present history i e) :
    Records n (history ++ [.insert i d]) (Function.update f d (i :: f d)) := by
  have hother : ∀ e < n, ∀ j ∈ f e, i ≠ j := by
    intro e he j hj heq
    exact hnew e (heq ▸ (h.mem_iff e he j).mp hj)
  refine ⟨?_, ?_⟩
  · intro e he j
    rw [Function.update_apply]
    by_cases hed : e = d
    · subst hed
      rw [if_pos rfl, present_snoc, List.mem_cons, h.mem_iff e he]
      constructor
      · rintro (rfl | hj)
        · exact Or.inl rfl
        · exact Or.inr ⟨hother e he j ((h.mem_iff e he j).mpr hj), hj⟩
      · rintro (heq | ⟨-, hj⟩)
        · cases heq
          exact Or.inl rfl
        · exact Or.inr hj
    · rw [if_neg hed]
      refine h.mem_iff_snoc (r := .insert i d) he ?_ (hother e he) j
      intro j' heq
      cases heq
      exact hed rfl
  · intro e he
    have hrest := h.pairwise_snoc (r := .insert i d) he (List.Sublist.refl _) (hother e he)
    rw [Function.update_apply]
    split
    · next hed =>
        subst hed
        refine List.Pairwise.cons ?_ hrest
        -- What is in front has been put there by the last request, all else before.
        intro j hj t u ht hu
        rcases putAt_snoc.mp ht with ⟨rfl, -⟩ | ⟨hne, -⟩
        · rcases putAt_snoc.mp hu with ⟨-, heq⟩ | ⟨-, hu⟩
          · cases heq
            exact absurd rfl (hother e he i hj)
          · exact hu.lt_length
        · exact absurd rfl hne
    · exact hrest

theorem Records.remove (h : Records n history f) (hnodup : (f d).Nodup)
    (hdisjoint : ∀ e < n, i ∈ f e → e = d) :
    Records n (history ++ [.remove i d]) (Function.update f d ((f d).erase i)) := by
  have hother : ∀ e < n, e ≠ d → ∀ j ∈ f e, i ≠ j := by
    intro e he hed j hj heq
    exact hed (hdisjoint e he (heq ▸ hj))
  refine ⟨?_, ?_⟩
  · intro e he j
    rw [Function.update_apply]
    by_cases hed : e = d
    · subst hed
      rw [if_pos rfl, present_snoc, hnodup.mem_erase_iff, h.mem_iff e he]
      simp [Request.node, eq_comm]
    · rw [if_neg hed]
      exact h.mem_iff_snoc (r := .remove i d) he (by simp) (hother e he hed) j
  · intro e he
    rw [Function.update_apply]
    split
    · next hed =>
        subst hed
        refine h.pairwise_snoc he List.erase_sublist ?_
        intro j hj heq
        exact (hnodup.mem_erase_iff.mp hj).1 heq.symm
    · next hed => exact h.pairwise_snoc he (List.Sublist.refl _) (hother e he hed)

end Records

theorem Holds.lists {b : DegreeBuckets} {n : Nat} {history : List Request} {f : Nat → List Nat}
    (h : b.Holds n f) (hf : Records n history f) {d : Nat} (hd : d < n) :
    b.Lists history d (f d) where
  walks := ⟨_, h.first d hd, (h.linked d hd).leads⟩
  mem_iff := hf.mem_iff d hd
  nodup := h.nodup d hd
  latest_first := hf.latest_first d hd
  front i hi := by
    obtain ⟨rest, hrest⟩ := List.head?_eq_some_iff.mp hi
    exact (h.linked d hd [] i rest hrest).2
  inverse i hi j hj := (h.linked d hd).after_iff_before hi hj

/-- A request that is allowed is served, and changes one list as the history says. -/
theorem serve_step {b : DegreeBuckets} {n : Nat} {history : List Request} {f : Nat → List Nat}
    (h : b.Holds n f) (hf : Records n history f) {r : Request} (hr : Allowed n history r) :
    ∃ b' xs, b.serve r = some b' ∧ b'.Holds n (Function.update f r.degree xs) ∧
      Records n (history ++ [r]) (Function.update f r.degree xs) := by
  cases r with
  | insert i d =>
      obtain ⟨hi, hd, hnew⟩ := hr
      obtain ⟨b', hrun, hb'⟩ := h.insert hd hi fun e he hmem => hnew e ((hf.mem_iff e he i).mp hmem)
      exact ⟨b', _, hrun, hb', hf.insert hnew⟩
  | remove i d =>
      obtain ⟨-, hd, hpresent⟩ := hr
      have hmem := (hf.mem_iff d hd i).mpr hpresent
      obtain ⟨b', hrun, hb'⟩ := h.remove hd hmem
      exact ⟨b', _, hrun, hb', hf.remove (h.nodup d hd) fun e he hi =>
        h.disjoint e he d hd i hi hmem⟩

/-- After an admissible history the links hold the lists of the history. -/
theorem serveAll_spec {n : Nat} {history : List Request} (h : Admissible n history) :
    ∃ b f, serveAll n history = some b ∧ b.Holds n f ∧ Records n history f := by
  induction h with
  | nil => exact ⟨empty n, _, rfl, holds_empty n, records_nil n⟩
  | @snoc history r _ hr ih =>
      obtain ⟨b, f, hrun, hb, hf⟩ := ih
      obtain ⟨b', xs, hserve, hb', hf'⟩ := serve_step hb hf hr
      refine ⟨b', _, ?_, hb', hf'⟩
      rw [serveAll, List.foldlM_append, ← serveAll, hrun]
      simp [hserve]

/-- A bucket is the list of the nodes that the history has left in it, with the one put there
last in front, and a request leaves the other buckets as they are. -/
theorem lists_of_history {n : Nat} {history : List Request} (h : Admissible n history) :
    ∃ b, serveAll n history = some b ∧
      (∀ d < n, ∃ xs, b.Lists history d xs ∧ ∀ ys, b.Walks d ys → ys = xs) ∧
      ∀ r, Allowed n history r → ∃ b', b.serve r = some b' ∧
        ∀ e < n, e ≠ r.degree → ∀ xs, b.Walks e xs →
          b'.Walks e xs ∧ ∀ i ∈ xs, b'.after[i]? = b.after[i]? ∧ b'.before[i]? = b.before[i]? := by
  obtain ⟨b, f, hrun, hb, hf⟩ := serveAll_spec h
  refine ⟨b, hrun, ?_, ?_⟩
  · intro d hd
    have hlists := hb.lists hf hd
    exact ⟨f d, hlists, fun ys hys => hys.unique hlists.walks⟩
  · intro r hr
    obtain ⟨b', xs', hserve, hb', hf'⟩ := serve_step hb hf hr
    refine ⟨b', hserve, ?_⟩
    intro e he hed xs hwalks
    obtain rfl := hwalks.unique (hb.lists hf he).walks
    have hlists' := hb'.lists hf' he
    have hlinked' := hb'.linked e he
    rw [Function.update_of_ne hed] at hlists' hlinked'
    refine ⟨hlists'.walks, ?_⟩
    intro i hi
    obtain ⟨l, r', hsplit⟩ := List.append_of_mem hi
    obtain ⟨hafter, hbefore⟩ := hb.linked e he l i r' hsplit
    obtain ⟨hafter', hbefore'⟩ := hlinked' l i r' hsplit
    exact ⟨hafter'.trans hafter.symm, hbefore'.trans hbefore.symm⟩

/-- Node 1 goes from the middle of one bucket into another. -/
def relocation : List Request :=
  [.insert 0 2, .insert 1 2, .insert 2 2, .remove 1 2, .insert 1 3]

theorem admissible_relocation : Admissible 4 relocation := by
  have h₁ : Admissible 4 ([] ++ [.insert 0 2]) :=
    Admissible.nil.snoc ⟨by decide, by decide, fun _ => not_present_nil⟩
  have h₂ := h₁.snoc (r := .insert 1 2) ⟨by decide, by decide, by
    simp only [present_snoc, not_present_nil]
    simp⟩
  have h₃ := h₂.snoc (r := .insert 2 2) ⟨by decide, by decide, by
    simp only [present_snoc, not_present_nil]
    simp⟩
  have h₄ := h₃.snoc (r := .remove 1 2) ⟨by decide, by decide, by
    simp only [present_snoc, not_present_nil]
    simp [Request.node]⟩
  exact h₄.snoc (r := .insert 1 3) ⟨by decide, by decide, by
    simp only [present_snoc, not_present_nil]
    simp [Request.node]⟩

theorem lists_of_history_relocation :
    Admissible 4 relocation ∧ ∃ b, serveAll 4 relocation = some b ∧ b.Lists relocation 2 [2, 0] ∧
      b.Lists relocation 3 [1] ∧ ∃ b', b.serve (.remove 0 2) = some b' ∧ b'.Walks 3 [1] := by
  obtain ⟨b, hrun, hlists, hother⟩ := lists_of_history admissible_relocation
  have hb : b = ⟨#[none, none, some 2, some 1], #[none, none, some 0, none],
      #[some 2, none, none, none]⟩ := Option.some.inj (hrun.symm.trans (by decide))
  have hwalk : b.Walks 2 [2, 0] := by
    rw [hb]
    exact ⟨_, rfl, .next rfl (.next rfl .done)⟩
  have hwalk' : b.Walks 3 [1] := by
    rw [hb]
    exact ⟨_, rfl, .next rfl .done⟩
  obtain ⟨xs, hxs, hunique⟩ := hlists 2 (by decide)
  obtain ⟨ys, hys, hunique'⟩ := hlists 3 (by decide)
  obtain ⟨b', hserve, hsame⟩ := hother (.remove 0 2) ⟨by decide, by decide,
    (hxs.mem_iff 0).mp (hunique _ hwalk ▸ by decide)⟩
  exact ⟨admissible_relocation, b, hrun, hunique _ hwalk ▸ hxs, hunique' _ hwalk' ▸ hys, b', hserve,
    (hsame 3 (by decide) (by decide) _ hwalk').1⟩

end Saddle.Elimination.DegreeBuckets
