import Saddle.Proofs.Sparse.Columns
import Saddle.Sparse.Product

/-!
# What a dense copy shows

A dense copy starts from zeros and adds each stored entry to its place. Of a matrix in
order each place is met once at most, so that it shows zero, or the sum of zero and the
one value stored for it; nothing need be known of the addition.

The copy of a symmetric matrix starts as that of its upper triangle and then carries
every stored entry off the diagonal across it. It reads above the diagonal and writes
below, so the order of the entries is of no concern, and a place below the diagonal that
nothing is carried to shows the same zero as the one above that it mirrors.
-/

namespace Saddle.Csc

open Access

variable {α : Type}

/-- The rows are those of a matrix with `m` rows and `n` columns whose entries `f` gives. -/
structure Shows (dense : Array (Array α)) (m n : Nat) (f : Nat → Nat → α) : Prop where
  size_eq : dense.size = m
  row : ∀ i < m, ∃ row, dense[i]? = some row ∧ Tabulates row n (f i)

/-- The entry in row `i` and column `j` of a dense matrix. -/
def denseAt (dense : Array (Array α)) (i j : Nat) : Option α := (dense[i]?).bind (·[j]?)

section Shows

variable {dense : Array (Array α)} {m n : Nat} {f g : Nat → Nat → α} {i j : Nat}

theorem Shows.congr (h : Shows dense m n f) (hfg : ∀ i < m, ∀ j < n, f i j = g i j) :
    Shows dense m n g := by
  refine ⟨h.size_eq, fun i hi => ?_⟩
  obtain ⟨row, hrow, htab⟩ := h.row i hi
  exact ⟨row, hrow, htab.congr (hfg i hi)⟩

theorem Shows.denseAt_eq (h : Shows dense m n f) (hi : i < m) (hj : j < n) :
    denseAt dense i j = some (f i j) := by
  obtain ⟨row, hrow, htab⟩ := h.row i hi
  rw [denseAt, hrow]
  exact htab.get j hj

/-- There is nothing to be read outside of a dense matrix. -/
theorem Shows.denseAt_eq_ite (h : Shows dense m n f) (i j : Nat) :
    denseAt dense i j = if i < m ∧ j < n then some (f i j) else none := by
  by_cases hi : i < m
  · obtain ⟨row, hrow, htab⟩ := h.row i hi
    by_cases hj : j < n
    · rw [if_pos ⟨hi, hj⟩, h.denseAt_eq hi hj]
    · rw [if_neg (fun hij => hj hij.2), denseAt, hrow]
      exact Array.getElem?_eq_none (by rw [htab.size_eq]; omega)
  · rw [if_neg (fun hij => hi hij.1), denseAt,
      Array.getElem?_eq_none (by rw [h.size_eq]; omega)]
    rfl

theorem Shows.ext {dense' : Array (Array α)} (h : Shows dense m n f) (h' : Shows dense' m n f) :
    dense = dense' := by
  refine Array.ext_getElem? fun i => ?_
  rcases Nat.lt_or_ge i m with hi | hi
  · obtain ⟨row, hrow, htab⟩ := h.row i hi
    obtain ⟨row', hrow', htab'⟩ := h'.row i hi
    rw [hrow, hrow', htab.ext htab' fun _ _ => rfl]
  · rw [Array.getElem?_eq_none (by rw [h.size_eq]; exact hi),
      Array.getElem?_eq_none (by rw [h'.size_eq]; exact hi)]

theorem shows_replicate (m n : Nat) (x : α) :
    Shows (Array.replicate m (Array.replicate n x)) m n fun _ _ => x :=
  ⟨Array.size_replicate, fun _ hi => ⟨_, (Tabulates.replicate m _).get _ hi, .replicate n x⟩⟩

/-- A row is replaced by one that differs from it in one place. -/
theorem Shows.write (h : Shows dense m n f) (hi : i < m) {row : Array α} {x : α}
    (hrow : Tabulates row n (Function.update (f i) j x)) :
    ∃ dense', write dense i row = some dense' ∧
      Shows dense' m n fun k l => if k = i ∧ l = j then x else f k l := by
  refine ⟨_, write_of_lt (h.size_eq ▸ hi), Array.size_setIfInBounds.trans h.size_eq, fun k hk => ?_⟩
  rw [Array.getElem?_setIfInBounds]
  by_cases hik : i = k
  · subst hik
    rw [if_pos rfl, if_pos (h.size_eq ▸ hi)]
    refine ⟨row, rfl, hrow.congr fun l _ => ?_⟩
    rw [Function.update_apply]
    simp only [true_and]
  · obtain ⟨old, hold, htab⟩ := h.row k hk
    rw [if_neg hik]
    refine ⟨old, hold, htab.congr fun l _ => ?_⟩
    rw [if_neg fun hkl => hik hkl.1.symm]

variable [Scalar α]

theorem addDense_spec (h : Shows dense m n f) (hi : i < m) (hj : j < n) (x : α) :
    ∃ dense', addDense dense i j x = some dense' ∧
      Shows dense' m n fun k l => if k = i ∧ l = j then f k l + x else f k l := by
  obtain ⟨row, hrow, htab⟩ := h.row i hi
  obtain ⟨row', hrow', htab'⟩ := htab.adjust hj (· + x)
  obtain ⟨dense', hwrite, hshows⟩ := h.write hi htab'
  refine ⟨dense', ?_, hshows.congr fun k _ l _ => ?_⟩
  · rw [addDense, hrow]
    simp only [Option.bind_eq_bind, Option.bind_some, hrow']
    exact hwrite
  · split
    · next hkl => rw [hkl.1, hkl.2]
    · rfl

omit [Scalar α] in
theorem reflectDense_spec (h : Shows dense n n f) (hi : i < n) (hj : j < n) :
    ∃ dense', reflectDense dense i j = some dense' ∧
      Shows dense' n n fun k l => if k = j ∧ l = i then f i j else f k l := by
  obtain ⟨source, hsource, htab⟩ := h.row i hi
  obtain ⟨target, htarget, htab'⟩ := h.row j hj
  obtain ⟨row, hrow, htab''⟩ := htab'.write hi (f i j)
  obtain ⟨dense', hwrite, hshows⟩ := h.write hj htab''
  refine ⟨dense', ?_, hshows⟩
  rw [reflectDense, hsource]
  simp only [Option.bind_eq_bind, Option.bind_some, htab.get j hj, htarget, hrow]
  exact hwrite

end Shows

/-! ## The copy of a matrix -/

section Copy

variable [Scalar α]

/-- What a place of row `i` shows once the entries of its column have been added. -/
def accumulated (i : Nat) (es : List (Nat × α)) : α :=
  es.foldl (fun x e => if e.1 = i then x + e.2 else x) 0

theorem accumulated_snoc (i : Nat) (es : List (Nat × α)) (e : Nat × α) :
    accumulated i (es ++ [e]) = if e.1 = i then accumulated i es + e.2 else accumulated i es := by
  rw [accumulated, List.foldl_append]
  rfl

theorem accumulated_of_notMem {i : Nat} {es : List (Nat × α)} (h : ∀ e ∈ es, e.1 ≠ i) :
    accumulated i es = 0 := by
  induction es using List.reverseRecOn with
  | nil => rfl
  | append_singleton es e ih =>
      rw [accumulated_snoc, if_neg (h e (by simp)), ih fun e' he' => h e' (by simp [he'])]

/-- A row that is stored once is added to zero once. -/
theorem accumulated_eq_lastOf {es : List (Nat × α)} (h : es.Pairwise (·.1 ≠ ·.1)) (i : Nat) :
    accumulated i es = (lastOf es i).elim 0 (0 + ·) := by
  induction es using List.reverseRecOn with
  | nil => rfl
  | append_singleton es e ih =>
      rw [List.pairwise_append] at h
      rw [accumulated_snoc, lastOf_snoc]
      by_cases he : e.1 = i
      · have hold : accumulated i es = 0 := accumulated_of_notMem fun e' he' =>
          he ▸ h.2.2 e' he' e (List.mem_singleton_self e)
        rw [if_pos he, if_pos he.symm, hold]
        rfl
      · rw [if_neg he, if_neg (Ne.symm he), ih h.1]

/-- What is shown after the columns before `k` and the entries `done` of column `k`. -/
def shownAt (a : Csc α) (k : Nat) (done : List (Nat × α)) (i j : Nat) : α :=
  if j < k then accumulated i (a.col j) else if j = k then accumulated i done else 0

variable {a : Csc α} {dense : Array (Array α)} {k : Nat}

theorem shownAt_nil (a : Csc α) (k i j : Nat) :
    a.shownAt k [] i j = if j < k then accumulated i (a.col j) else 0 := by
  rw [shownAt]
  congr 1
  exact ite_self _

theorem shownAt_col (a : Csc α) (k i j : Nat) :
    a.shownAt k (a.col k) i j = a.shownAt (k + 1) [] i j := by
  rw [shownAt_nil, shownAt]
  rcases Nat.lt_trichotomy j k with hjk | rfl | hjk
  · rw [if_pos hjk, if_pos (by omega)]
  · rw [if_neg (Nat.lt_irrefl j), if_pos rfl, if_pos (Nat.lt_succ_self j)]
  · rw [if_neg (by omega), if_neg (by omega), if_neg (by omega)]

theorem shownAt_snoc (a : Csc α) (k : Nat) (done : List (Nat × α)) (e : Nat × α) (i j : Nat) :
    a.shownAt k (done ++ [e]) i j =
      if i = e.1 ∧ j = k then a.shownAt k done i j + e.2 else a.shownAt k done i j := by
  rw [shownAt, shownAt, accumulated_snoc]
  by_cases hjk : j = k
  · subst hjk
    simp only [Nat.lt_irrefl, if_false, if_true, and_true, eq_comm]
  · simp only [hjk, if_false, and_false]

theorem copyColumn_spec (h : a.Valid) (hk : k < a.ncols)
    (hd : Shows dense a.nrows a.ncols (a.shownAt k [])) :
    ∃ dense', (a.col k).foldlM (fun dense (row, value) => addDense dense row k value) dense =
        some dense' ∧
      Shows dense' a.nrows a.ncols (a.shownAt (k + 1) []) := by
  obtain ⟨dense', hrun, hd'⟩ := foldlM_total (l := a.col k) (s := dense)
    (f := fun dense (row, value) => addDense dense row k value)
    (fun done dense => Shows dense a.nrows a.ncols (a.shownAt k done)) hd
    (by
      rintro done e rest hcol dense hd
      have he : e.1 < a.nrows := h.row_lt k hk e (by rw [hcol]; simp)
      obtain ⟨dense', hrun, hd'⟩ := addDense_spec hd he hk e.2
      exact ⟨dense', hrun, hd'.congr fun i _ j _ => (shownAt_snoc a k done e i j).symm⟩)
  exact ⟨dense', hrun, hd'.congr fun i _ j _ => shownAt_col a k i j⟩

/-- The dense copy shows the entries. -/
theorem toDense_spec (h : a.Valid) :
    ∃ dense, a.toDense = some dense ∧
      Shows dense a.nrows a.ncols fun i j => accumulated i (a.col j) := by
  obtain ⟨dense, hrun, hd⟩ := foldlM_range_total (n := a.ncols)
    (f := fun dense j => do
      (← a.column? j).foldlM (fun dense (row, value) => addDense dense row j value) dense)
    (s := Array.replicate a.nrows (Array.replicate a.ncols 0))
    (fun k dense => Shows dense a.nrows a.ncols (a.shownAt k []))
    ((shows_replicate _ _ _).congr fun i _ j _ => by rw [shownAt_nil, if_neg (Nat.not_lt_zero j)])
    (by
      intro k dense hk hd
      obtain ⟨dense', hrun, hd'⟩ := copyColumn_spec h hk hd
      refine ⟨dense', ?_, hd'⟩
      rw [h.column?_eq hk]
      exact hrun)
  exact ⟨dense, hrun, hd.congr fun i _ j hj => by rw [shownAt_nil, if_pos hj]⟩

/-! ## The copy of a symmetric matrix -/

/-- What is shown after the columns before `k` and the entries `done` of column `k` have been
carried across the diagonal. -/
def mirroredAt (a : Csc α) (k : Nat) (done : List (Nat × α)) (i j : Nat) : α :=
  if j < i ∧ (i < k ∨ i = k ∧ ∃ e ∈ done, e.1 = j) then accumulated j (a.col i)
  else accumulated i (a.col j)

theorem mirroredAt_start (a : Csc α) (i j : Nat) :
    a.mirroredAt 0 [] i j = accumulated i (a.col j) := by
  rw [mirroredAt, if_neg (by simp)]

/-- Nothing is stored below the diagonal. -/
theorem Upper.accumulated_eq_zero (hu : a.Upper) {i j : Nat} (hji : j < i) (hj : j < a.ncols) :
    accumulated i (a.col j) = 0 := by
  refine accumulated_of_notMem fun e he heq => ?_
  have := hu.row_le j hj e he
  omega

theorem mirroredAt_col (hu : a.Upper) (hk : k < a.ncols) {i j : Nat} :
    a.mirroredAt k (a.col k) i j = a.mirroredAt (k + 1) [] i j := by
  by_cases hki : i = k ∧ j < i ∧ ¬ ∃ e ∈ a.col k, e.1 = j
  · -- What is not stored shows zero on both sides.
    obtain ⟨rfl, hji, hnone⟩ := hki
    rw [mirroredAt, mirroredAt, if_neg fun h => hnone ((h.2.resolve_left (Nat.lt_irrefl i)).2),
      if_pos ⟨hji, Or.inl (Nat.lt_succ_self i)⟩, hu.accumulated_eq_zero hji (hji.trans hk),
      accumulated_of_notMem fun e he heq => hnone ⟨e, he, heq⟩]
  · rw [mirroredAt, mirroredAt]
    refine if_congr (and_congr_right fun hji => ?_) rfl rfl
    by_cases hik : i = k
    · have hstored := not_not.mp fun hnone => hki ⟨hik, hji, hnone⟩
      exact iff_of_true (Or.inr ⟨hik, hstored⟩) (Or.inl (by omega))
    · simp only [hik, false_and, or_false, List.not_mem_nil, exists_false, and_false]
      omega

theorem mirroredAt_snoc_diagonal (a : Csc α) {done : List (Nat × α)} {e : Nat × α} (he : e.1 = k)
    (i j : Nat) : a.mirroredAt k (done ++ [e]) i j = a.mirroredAt k done i j := by
  rw [mirroredAt, mirroredAt]
  refine if_congr (and_congr_right fun hji => or_congr_right ?_) rfl rfl
  refine and_congr_right fun hik => ?_
  simp only [List.mem_append, List.mem_singleton, or_and_right, exists_or, exists_eq_left,
    or_iff_left_iff_imp]
  omega

theorem mirroredAt_snoc (a : Csc α) {done : List (Nat × α)} {e : Nat × α} (he : e.1 < k)
    (i j : Nat) :
    a.mirroredAt k (done ++ [e]) i j =
      if i = k ∧ j = e.1 then a.mirroredAt k done e.1 k else a.mirroredAt k done i j := by
  by_cases hij : i = k ∧ j = e.1
  · obtain ⟨rfl, rfl⟩ := hij
    rw [if_pos ⟨rfl, rfl⟩, mirroredAt, mirroredAt,
      if_pos ⟨he, Or.inr ⟨rfl, e, by simp, rfl⟩⟩, if_neg (by omega)]
  · rw [if_neg hij, mirroredAt, mirroredAt]
    refine if_congr (and_congr_right fun _ => or_congr_right ?_) rfl rfl
    refine and_congr_right fun hik => ?_
    have hne : e.1 ≠ j := fun heq => hij ⟨hik, heq.symm⟩
    simp only [List.mem_append, List.mem_singleton, or_and_right, exists_or, exists_eq_left, hne,
      or_false]

theorem reflectColumn_spec (hu : a.Upper) (hk : k < a.ncols)
    (hd : Shows dense a.ncols a.ncols (a.mirroredAt k [])) :
    ∃ dense', (a.col k).foldlM
        (fun dense (row, _) => if row = k then some dense else reflectDense dense row k) dense =
          some dense' ∧
      Shows dense' a.ncols a.ncols (a.mirroredAt (k + 1) []) := by
  obtain ⟨dense', hrun, hd'⟩ := foldlM_total (l := a.col k) (s := dense)
    (f := fun dense (row, _) => if row = k then some dense else reflectDense dense row k)
    (fun done dense => Shows dense a.ncols a.ncols (a.mirroredAt k done)) hd
    (by
      rintro done e rest hcol dense hd
      have hle : e.1 ≤ k := hu.row_le k hk e (by rw [hcol]; simp)
      by_cases he : e.1 = k
      · refine ⟨dense, if_pos he, hd.congr fun i _ j _ => ?_⟩
        exact (mirroredAt_snoc_diagonal a he i j).symm
      · obtain ⟨dense', hrun, hd'⟩ := reflectDense_spec hd (show e.1 < a.ncols by omega) hk
        refine ⟨dense', (if_neg he).trans hrun, hd'.congr fun i _ j _ => ?_⟩
        exact (mirroredAt_snoc a (by omega) i j).symm)
  exact ⟨dense', hrun, hd'.congr fun i _ j _ => mirroredAt_col hu hk⟩

/-- The dense copy of a symmetric matrix shows on either side of the diagonal what is stored
above it. -/
theorem toDenseSymmetric_spec (h : a.Valid) (hu : a.Upper) :
    ∃ dense, a.toDenseSymmetric = some dense ∧
      Shows dense a.ncols a.ncols fun i j => accumulated (min i j) (a.col (max i j)) := by
  obtain ⟨start, hstart, hcopy⟩ := toDense_spec h
  rw [hu.square] at hcopy
  obtain ⟨dense, hrun, hd⟩ := foldlM_range_total (n := a.ncols)
    (f := fun dense j => do
      (← a.column? j).foldlM
        (fun dense (row, _) => if row = j then some dense else reflectDense dense row j) dense)
    (s := start)
    (fun k dense => Shows dense a.ncols a.ncols (a.mirroredAt k []))
    (hcopy.congr fun i _ j _ => (mirroredAt_start a i j).symm)
    (by
      intro k dense hk hd
      obtain ⟨dense', hrun, hd'⟩ := reflectColumn_spec hu hk hd
      refine ⟨dense', ?_, hd'⟩
      rw [h.column?_eq hk]
      exact hrun)
  refine ⟨dense, ?_, hd.congr fun i hi j _ => ?_⟩
  · rw [toDenseSymmetric, hstart]
    exact hrun
  · rw [mirroredAt]
    rcases Nat.lt_or_ge j i with hji | hij
    · rw [if_pos ⟨hji, Or.inl hi⟩, min_eq_right (Nat.le_of_lt hji), max_eq_left (Nat.le_of_lt hji)]
    · rw [if_neg (by omega), min_eq_left hij, max_eq_right hij]

end Copy

end Saddle.Csc
