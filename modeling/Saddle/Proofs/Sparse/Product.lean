import Mathlib.Algebra.BigOperators.Ring.Finset
import Mathlib.Tactic.Ring
import Saddle.Proofs.Exact
import Saddle.Proofs.Sparse.Cells
import Saddle.Proofs.Sparse.Dense
import Saddle.Proofs.Sparse.DenseCopy

/-!
# One matrix, read in four ways

The products scatter the columns of a matrix over the result, the dense copies lay them
out, and the symmetric variants add what an entry off the diagonal stands for on the
other side. In a commutative ring the order of the additions is of no concern, and each
of the four is determined by what the columns have in every row (`sumAt`).

For a general matrix this is a matter of exchanging two sums. For a triangle, an entry of
column `j` is met once, and has to count once in its own row and once in row `j`, unless
these are the same. So row `i` collects two things: what the columns have in row `i`, and
what column `i` has off the diagonal, taken along the column. Above the diagonal only the
first is there, below it only the second.
-/

namespace Saddle.Csc

open Access

/-- The product of a dense matrix with a vector. -/
def denseMulVec {α : Type} [Zero α] [Add α] [Mul α] (dense : Array (Array α)) (x : Array α) :
    Array α :=
  dense.map fun row => (row.toList.zipWith (· * ·) x.toList).sum

variable {α : Type} [RingScalar α]

/-! ## Sums -/

theorem accumulated_eq_sumAt (i : Nat) (es : List (Nat × α)) : accumulated i es = sumAt i es := by
  induction es using List.reverseRecOn with
  | nil => rfl
  | append_singleton es e ih =>
      rw [accumulated_snoc, sumAt_append, sumAt_cons, sumAt_nil, add_zero, ih]
      split
      · rfl
      · rw [add_zero]

/-- The product of a dense matrix with a vector has the sums over its rows. -/
theorem Shows.denseMulVec {dense : Array (Array α)} {x : Array α} {m n : Nat}
    {f : Nat → Nat → α} {g : Nat → α} (h : Shows dense m n f) (hx : Tabulates x n g) :
    Tabulates (denseMulVec dense x) m fun i => ∑ j ∈ Finset.range n, f i j * g j := by
  refine ⟨by rw [Csc.denseMulVec, Array.size_map, h.size_eq], fun i hi => ?_⟩
  obtain ⟨row, hrow, htab⟩ := h.row i hi
  rw [Csc.denseMulVec, Array.getElem?_map, hrow, Option.map_some, htab.toList_eq, hx.toList_eq,
    List.zipWith_map, List.zipWith_self]
  rfl

theorem adjust_add {y : Array α} {m i : Nat} {f : Nat → α} (hy : Tabulates y m f) (hi : i < m)
    (c : α) :
    ∃ y', adjust y i (· + c) = some y' ∧
      Tabulates y' m fun k => f k + if k = i then c else 0 := by
  obtain ⟨y', hrun, hy'⟩ := hy.adjust hi (· + c)
  refine ⟨y', hrun, hy'.congr fun k _ => ?_⟩
  rw [Function.update_apply]
  split
  · next h => rw [h]
  · rw [add_zero]

theorem tabulates_clear {y : Array α} {m : Nat} (hy : y.size = m) :
    Tabulates (y.map fun _ => (0 : α)) m fun _ => 0 := by
  refine ⟨by rw [Array.size_map, hy], fun i hi => ?_⟩
  rw [Array.getElem?_map, Array.getElem?_eq_getElem (hy ▸ hi)]
  rfl

/-! ## The product with a general matrix -/

section General

variable {a : Csc α} {x y : Array α} {m : Nat} {f g : Nat → α}

theorem axpyEntries_spec (c : α) {es : List (Nat × α)} (hes : ∀ e ∈ es, e.1 < m)
    (hy : Tabulates y m f) :
    ∃ y', axpyEntries c es y = some y' ∧ Tabulates y' m fun i => f i + sumAt i es * c := by
  induction es generalizing y f with
  | nil => exact ⟨y, rfl, hy.congr fun i _ => by rw [sumAt_nil, zero_mul, add_zero]⟩
  | cons e es ih =>
      rw [List.forall_mem_cons] at hes
      obtain ⟨y', hrun, hy'⟩ := adjust_add hy hes.1 (c * e.2)
      obtain ⟨y'', hrun', hy''⟩ := ih hes.2 hy'
      refine ⟨y'', ?_, hy''.congr fun i _ => ?_⟩
      · rw [axpyEntries, hrun]
        exact hrun'
      · simp only [sumAt_cons, eq_comm (a := i)]
        split <;> ring

theorem mulVecInto_spec (h : a.Valid) (hx : Tabulates x a.ncols g) (hy : y.size = a.nrows) :
    ∃ z, a.mulVecInto x y = some z ∧
      Tabulates z a.nrows fun i => ∑ j ∈ Finset.range a.ncols, sumAt i (a.col j) * g j := by
  refine foldlM_range_total
    (fun k z => Tabulates z a.nrows fun i => ∑ j ∈ Finset.range k, sumAt i (a.col j) * g j)
    (tabulates_clear hy) fun k z hk hz => ?_
  obtain ⟨z', hrun, hz'⟩ := axpyEntries_spec (g k) (h.row_lt k hk) hz
  refine ⟨z', ?_, hz'.congr fun i _ => (Finset.sum_range_succ _ k).symm⟩
  simp only [axpyColumn, Option.bind_eq_bind, Option.bind_some, hx.get k hk, h.column?_eq hk]
  exact hrun

end General

/-! ## The product with a triangle -/

section Symmetric

variable {a : Csc α} {x y : Array α} {n j : Nat} {f g : Nat → α}

/-- What an entry of column `j` adds in row `i` to the product with the vector `g`. -/
def share (g : Nat → α) (j i : Nat) (e : Nat × α) : α :=
  (if i = e.1 then e.2 * g j else 0) +
    if i = j then e.2 * Function.update g j 0 e.1 else 0

theorem symmetricEntry_spec {e : Nat × α} (he : e.1 < n) (hj : j < n) (hx : Tabulates x n g)
    (hy : Tabulates y n f) :
    ∃ y', symmetricEntry x j y e = some y' ∧ Tabulates y' n fun i => f i + share g j i e := by
  obtain ⟨y', hrun, hy'⟩ := adjust_add hy he (e.2 * g j)
  by_cases hej : e.1 = j
  · refine ⟨y', ?_, hy'.congr fun i _ => ?_⟩
    · simp only [symmetricEntry, hx.get j hj, Option.bind_eq_bind, Option.bind_some, hrun,
        if_pos hej]
      rfl
    · rw [share, hej, Function.update_self, mul_zero, ite_self, add_zero]
  · obtain ⟨y'', hrun', hy''⟩ := adjust_add hy' hj (e.2 * g e.1)
    refine ⟨y'', ?_, hy''.congr fun i _ => ?_⟩
    · simp only [symmetricEntry, hx.get j hj, Option.bind_eq_bind, Option.bind_some, hrun,
        if_neg hej, hx.get _ he]
      exact hrun'
    · rw [share, Function.update_of_ne hej, add_assoc]

theorem sum_share (g : Nat → α) (i j : Nat) (es : List (Nat × α)) :
    (es.map (share g j i)).sum = sumAt i es * g j +
      if i = j then (es.map fun e => e.2 * Function.update g j 0 e.1).sum else 0 := by
  induction es with
  | nil => simp
  | cons e es ih =>
      rw [List.map_cons, List.sum_cons, List.map_cons, List.sum_cons, ih, sumAt_cons, share]
      simp only [eq_comm (a := i)]
      split <;> split <;> ring

theorem symmetricColumn_spec (hes : ∀ e ∈ a.col j, e.1 < n) (hj : j < n) (hx : Tabulates x n g)
    (hy : Tabulates y n f) :
    ∃ y', (a.col j).foldlM (symmetricEntry x j) y = some y' ∧
      Tabulates y' n fun i => f i + (sumAt i (a.col j) * g j +
        if i = j then ∑ k ∈ Finset.range n, sumAt k (a.col j) * Function.update g j 0 k
        else 0) := by
  obtain ⟨y', hrun, hy'⟩ := foldlM_total (l := a.col j) (s := y) (f := symmetricEntry x j)
    (fun done y => Tabulates y n fun i => f i + (done.map (share g j i)).sum)
    (hy.congr fun i _ => (add_zero _).symm) fun done e rest hcol y hy => by
      have he : e.1 < n := hes e (by rw [hcol]; simp)
      obtain ⟨y', hrun, hy'⟩ := symmetricEntry_spec he hj hx hy
      refine ⟨y', hrun, hy'.congr fun i _ => ?_⟩
      rw [List.map_append, List.sum_append, List.map_singleton, List.sum_singleton, add_assoc]
  refine ⟨y', hrun, hy'.congr fun i _ => ?_⟩
  rw [sum_share, sum_map_mul_eq hes]

theorem symmetricAt_mul_eq (hu : a.Upper) (g : Nat → α) {i : Nat} (hi : i < a.ncols)
    (hj : j < a.ncols) :
    a.symmetricAt i j * g j =
      sumAt i (a.col j) * g j + sumAt j (a.col i) * Function.update g i 0 j := by
  have hbelow : ∀ {k l}, l < k → l < a.ncols → sumAt k (a.col l) = 0 := fun hlk hl =>
    sumAt_of_notMem fun e he heq => by
      have := hu.row_le _ hl e he
      omega
  rw [symmetricAt]
  rcases Nat.lt_trichotomy i j with hij | rfl | hji
  · rw [min_eq_left hij.le, max_eq_right hij.le, hbelow hij hi, zero_mul, add_zero]
  · rw [min_self, max_self, Function.update_self, mul_zero, add_zero]
  · rw [min_eq_right hji.le, max_eq_left hji.le, hbelow hji hj, zero_mul, zero_add,
      Function.update_of_ne hji.ne]

theorem symmetricMulVecInto_spec (h : a.Valid) (hu : a.Upper) (hx : Tabulates x a.ncols g)
    (hy : y.size = a.ncols) :
    ∃ z, a.symmetricMulVecInto x y = some z ∧
      Tabulates z a.ncols fun i => ∑ j ∈ Finset.range a.ncols, a.symmetricAt i j * g j := by
  obtain ⟨z, hrun, hz⟩ := foldlM_range_total (n := a.ncols) (s := y.map fun _ => (0 : α))
    (f := fun y j => do (← a.column? j).foldlM (symmetricEntry x j) y)
    (fun k z => Tabulates z a.ncols fun i => ∑ j ∈ Finset.range k, (sumAt i (a.col j) * g j +
      if i = j then ∑ k ∈ Finset.range a.ncols, sumAt k (a.col j) * Function.update g j 0 k
      else 0))
    (tabulates_clear hy) fun k z hk hz => by
      have hrow := h.row_lt k hk
      rw [hu.square] at hrow
      obtain ⟨z', hrun, hz'⟩ := symmetricColumn_spec hrow hk hx hz
      refine ⟨z', ?_, hz'.congr fun i _ => (Finset.sum_range_succ _ k).symm⟩
      rw [h.column?_eq hk]
      exact hrun
  refine ⟨z, hrun, hz.congr fun i hi => ?_⟩
  calc ∑ j ∈ Finset.range a.ncols, (sumAt i (a.col j) * g j +
        if i = j then ∑ k ∈ Finset.range a.ncols, sumAt k (a.col j) * Function.update g j 0 k
        else 0)
      = ∑ j ∈ Finset.range a.ncols, sumAt i (a.col j) * g j +
          ∑ j ∈ Finset.range a.ncols, sumAt j (a.col i) * Function.update g i 0 j := by
        rw [Finset.sum_add_distrib, Finset.sum_ite_eq, if_pos (Finset.mem_range.mpr hi)]
    _ = ∑ j ∈ Finset.range a.ncols, a.symmetricAt i j * g j := by
        rw [← Finset.sum_add_distrib]
        refine Finset.sum_congr rfl fun j hj => ?_
        rw [symmetricAt_mul_eq hu g hi (Finset.mem_range.mp hj)]

end Symmetric

/-! ## The triangle of a matrix -/

section Triangle

variable {β : Type} {a t : Csc β}

theorem Valid.upperTriangle_spec (h : a.Valid) :
    ∃ t, a.upperTriangle = some t ∧ t.Valid ∧ t.nrows = a.nrows ∧ t.ncols = a.ncols ∧
      t.cellList = a.cellList.filter fun c => c.row ≤ c.column := by
  have hsorted := h.pairwise_cellList
  rw [List.pairwise_map] at hsorted
  have hpart : (a.cellList.filter fun c => c.row ≤ c.column).Sublist a.cellList :=
    List.filter_sublist
  refine ⟨ofCells a.nrows a.ncols (a.cellList.filter fun c => c.row ≤ c.column), ?_, ?_, rfl, rfl,
    ?_⟩
  · exact h.toFramed.upperTriangle_eq
  · exact valid_ofCells (fun c hc => (lt_of_mem_cellList h (hpart.subset hc)).2)
      (fun c hc => (lt_of_mem_cellList h (hpart.subset hc)).1)
      (h.pairwise_cellList.sublist (hpart.map _))
  · exact cellList_ofCells ((hsorted.sublist hpart).imp fun hcd => hcd.column_le)
      fun c hc => (lt_of_mem_cellList h (hpart.subset hc)).1

theorem Valid.upperTriangle_self (h : a.Valid) (hrow : ∀ c ∈ a.cellList, c.row ≤ c.column) :
    a.upperTriangle = some a := by
  have hall : (a.cellList.filter fun c => c.row ≤ c.column) = a.cellList :=
    List.filter_eq_self.mpr fun c hc => decide_eq_true (hrow c hc)
  rw [h.toFramed.upperTriangle_eq, hall, h.toFramed.ofCells_cellList]

theorem Valid.col_eq (h : a.Valid) {j : Nat} (hj : j < a.ncols) :
    a.col j = (a.cellList.filter (·.column = j)).map Cell.entry := by
  have hsorted := h.pairwise_cellList
  rw [List.pairwise_map] at hsorted
  rw [← col_ofCells (hsorted.imp fun hcd => hcd.column_le) hj, h.toFramed.ofCells_cellList]

/-- The triangle has the columns of the matrix, down to the diagonal. -/
theorem col_of_triangle (h : a.Valid) (ht : t.Valid) (hncols : t.ncols = a.ncols)
    (hcells : t.cellList = a.cellList.filter fun c => c.row ≤ c.column) {j : Nat}
    (hj : j < a.ncols) : t.col j = (a.col j).filter fun e => e.1 ≤ j := by
  rw [ht.col_eq (hncols ▸ hj), h.col_eq hj, hcells, List.filter_map, List.filter_filter,
    List.filter_filter]
  congr 1
  refine List.filter_congr fun c _ => Bool.eq_iff_iff.mpr ?_
  simp only [Bool.and_eq_true, decide_eq_true_eq, Function.comp_apply]
  constructor
  · rintro ⟨rfl, hrow⟩
    exact ⟨hrow, rfl⟩
  · rintro ⟨hrow, rfl⟩
    exact ⟨rfl, hrow⟩

end Triangle

/-! ## The four readings -/

section Readings

variable {a t : Csc α} {dense : Array (Array α)}

/-- The product with any vector, whatever its place held before, is that of the dense matrix. -/
def Multiplies (product : Array α → Array α → Option (Array α)) (dense : Array (Array α))
    (m n : Nat) : Prop :=
  ∀ x y, x.size = n → y.size = m → product x y = some (denseMulVec dense x)

theorem exists_toDense (h : a.Valid) :
    ∃ dense, a.toDense = some dense ∧
      Shows dense a.nrows a.ncols fun i j => sumAt i (a.col j) := by
  obtain ⟨dense, hrun, hd⟩ := toDense_spec h
  exact ⟨dense, hrun, hd.congr fun i _ j _ => accumulated_eq_sumAt i (a.col j)⟩

theorem exists_toDenseSymmetric (h : a.Valid) (hu : a.Upper) :
    ∃ dense, a.toDenseSymmetric = some dense ∧ Shows dense a.ncols a.ncols a.symmetricAt := by
  obtain ⟨dense, hrun, hd⟩ := toDenseSymmetric_spec h hu
  exact ⟨dense, hrun, hd.congr fun i _ j _ => accumulated_eq_sumAt _ _⟩

theorem multiplies_mulVecInto (h : a.Valid)
    (hd : Shows dense a.nrows a.ncols fun i j => sumAt i (a.col j)) :
    Multiplies a.mulVecInto dense a.nrows a.ncols := by
  intro x y hx hy
  have hx' := hx ▸ Tabulates.self x 0
  obtain ⟨z, hrun, hz⟩ := mulVecInto_spec h hx' hy
  rw [hrun, hz.ext (hd.denseMulVec hx') fun _ _ => rfl]

theorem multiplies_symmetricMulVecInto (h : a.Valid) (hu : a.Upper)
    (hd : Shows dense a.ncols a.ncols a.symmetricAt) :
    Multiplies a.symmetricMulVecInto dense a.ncols a.ncols := by
  intro x y hx hy
  have hx' := hx ▸ Tabulates.self x 0
  obtain ⟨z, hrun, hz⟩ := symmetricMulVecInto_spec h hu hx' hy
  rw [hrun, hz.ext (hd.denseMulVec hx') fun _ _ => rfl]

theorem symmetricAt_of_triangle (h : a.Valid) (ht : t.Valid) (hncols : t.ncols = a.ncols)
    (hcells : t.cellList = a.cellList.filter fun c => c.row ≤ c.column)
    (hsymm : ∀ i < a.ncols, ∀ j < a.ncols, sumAt i (a.col j) = sumAt j (a.col i)) {i j : Nat}
    (hi : i < a.ncols) (hj : j < a.ncols) : t.symmetricAt i j = sumAt i (a.col j) := by
  have hcol : ∀ {k l}, k ≤ l → l < a.ncols → sumAt k (t.col l) = sumAt k (a.col l) := by
    intro k l hkl hl
    rw [col_of_triangle h ht hncols hcells hl, sumAt_filter (· ≤ l), if_pos hkl]
  rw [symmetricAt]
  rcases Nat.le_total i j with hij | hji
  · rw [min_eq_left hij, max_eq_right hij, hcol hij hj]
  · rw [min_eq_right hji, max_eq_left hji, hcol hji hi, hsymm j hj i hi]

/-- The products and the dense copies describe one matrix, and the triangle of a symmetric matrix
describes it too. -/
theorem products_agree (h : a.check.run = some (.ok ())) :
    ∃ dense upper, a.toDense = some dense ∧ a.upperTriangle = some upper ∧
      Multiplies a.mulVecInto dense a.nrows a.ncols ∧
      (upper.check.run = some (.ok ()) ∧ upper.nrows = a.nrows ∧ upper.ncols = a.ncols ∧
        upper.cellList = (a.cellList.filter fun c => c.row ≤ c.column) ∧
        upper.upperTriangle = some upper) ∧
      (a.checkUpper.run = some (.ok ()) →
        ∃ mirrored, a.toDenseSymmetric = some mirrored ∧
          (∀ i j, denseAt mirrored i j = denseAt mirrored j i) ∧
          (∀ i j, i ≤ j → denseAt mirrored i j = denseAt dense i j) ∧
          Multiplies a.symmetricMulVecInto mirrored a.nrows a.ncols) ∧
      (a.nrows = a.ncols → (∀ i j, denseAt dense i j = denseAt dense j i) →
        upper.toDenseSymmetric = some dense ∧
        ∀ x y, x.size = a.ncols → y.size = a.nrows →
          upper.symmetricMulVecInto x y = a.mulVecInto x y) := by
  have hvalid := check_eq_ok.mp h
  obtain ⟨dense, hdense, hd⟩ := exists_toDense hvalid
  obtain ⟨upper, hupper, ht, hnrows, hncols, hcells⟩ := hvalid.upperTriangle_spec
  have hrow : ∀ c ∈ upper.cellList, c.row ≤ c.column := by
    intro c hc
    rw [hcells, List.mem_filter] at hc
    simpa using hc.2
  refine ⟨dense, upper, hdense, hupper, multiplies_mulVecInto hvalid hd,
    ⟨check_eq_ok.mpr ht, hnrows, hncols, hcells, ht.upperTriangle_self hrow⟩, fun hu => ?_,
    fun hsquare hsymm => ?_⟩
  · have hu := (checkUpper_eq_ok hvalid).mp hu
    obtain ⟨mirrored, hmirrored, hm⟩ := exists_toDenseSymmetric hvalid hu
    refine ⟨mirrored, hmirrored, fun i j => ?_, fun i j hij => ?_,
      hu.square ▸ multiplies_symmetricMulVecInto hvalid hu hm⟩
    · simp only [hm.denseAt_eq_ite, a.symmetricAt_comm i, and_comm (a := i < a.ncols)]
    · simp only [hm.denseAt_eq_ite, hd.denseAt_eq_ite, symmetricAt, min_eq_left hij,
        max_eq_right hij, hu.square]
  · have hu : upper.Upper := upper_iff_cellList.mpr ⟨by rw [hnrows, hncols, hsquare], hrow⟩
    have hsymm' : ∀ i < a.ncols, ∀ j < a.ncols, sumAt i (a.col j) = sumAt j (a.col i) := by
      intro i hi j hj
      have hij := hsymm i j
      rwa [hd.denseAt_eq (hsquare ▸ hi) hj, hd.denseAt_eq (hsquare ▸ hj) hi,
        Option.some.injEq] at hij
    obtain ⟨mirrored, hmirrored, hm⟩ := exists_toDenseSymmetric ht hu
    have hm' : Shows mirrored a.nrows a.ncols fun i j => sumAt i (a.col j) := by
      rw [hncols] at hm
      rw [hsquare]
      exact hm.congr fun i hi j hj =>
        symmetricAt_of_triangle hvalid ht hncols hcells hsymm' hi hj
    obtain rfl := hm'.ext hd
    refine ⟨hmirrored, fun x y hx hy => ?_⟩
    rw [multiplies_mulVecInto hvalid hd x y hx hy]
    exact multiplies_symmetricMulVecInto ht hu hm x y (by rw [hx, hncols])
      (by rw [hy, hncols, hsquare])

end Readings

/-- A symmetric matrix that stores both of its triangles. -/
def weave : Csc ℚ := ⟨3, 3, #[0, 2, 4, 6], #[0, 1, 0, 2, 1, 2], #[2, 1, 1, -3, -3, 4]⟩

/-- Its upper triangle. -/
def halfWeave : Csc ℚ := ⟨3, 3, #[0, 1, 2, 4], #[0, 0, 1, 2], #[2, 1, -3, 4]⟩

theorem products_agree_weave :
    weave.upperTriangle = some halfWeave ∧
      halfWeave.toDenseSymmetric = some #[#[2, 1, 0], #[1, 0, -3], #[0, -3, 4]] ∧
      weave.mulVecInto #[1, 2, 3] #[7, 7, 7] = some #[4, -8, 6] ∧
      halfWeave.symmetricMulVecInto #[1, 2, 3] #[7, 7, 7] = some #[4, -8, 6] := by
  have hdense : weave.toDense = some #[#[2, 1, 0], #[1, 0, -3], #[0, -3, 4]] := by decide +kernel
  have hhalf : weave.upperTriangle = some halfWeave := by decide +kernel
  have hsymm : ∀ i j, denseAt (α := ℚ) #[#[2, 1, 0], #[1, 0, -3], #[0, -3, 4]] i j =
      denseAt #[#[2, 1, 0], #[1, 0, -3], #[0, -3, 4]] j i := by
    rintro (_ | _ | _ | i) (_ | _ | _ | j) <;> rfl
  have hvalue : denseMulVec (α := ℚ) #[#[2, 1, 0], #[1, 0, -3], #[0, -3, 4]] #[1, 2, 3] =
      #[4, -8, 6] := by decide +kernel
  obtain ⟨dense, upper, hrun, hupper, hmul, -, -, hfold⟩ :=
    products_agree (a := weave) (by decide +kernel)
  obtain rfl := Option.some.inj (hdense.symm.trans hrun)
  obtain rfl := Option.some.inj (hhalf.symm.trans hupper)
  obtain ⟨hmirrored, -⟩ := hfold rfl hsymm
  obtain ⟨_, _, -, -, -, -, hside, -⟩ := products_agree (a := halfWeave) (by decide +kernel)
  obtain ⟨mirrored, hrun', -, -, hmul'⟩ := hside (by decide +kernel)
  obtain rfl := Option.some.inj (hmirrored.symm.trans hrun')
  exact ⟨hhalf, hmirrored, (hmul _ _ rfl rfl).trans (congrArg some hvalue),
    (hmul' _ _ rfl rfl).trans (congrArg some hvalue)⟩

end Saddle.Csc
