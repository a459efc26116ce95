import Saddle.Proofs.Factor.Reconstruct
import Saddle.Factor.Solve

/-!
# What solving with a factor computes

The loops are those of `forwardSubst` and `backwardSubst` on functions, whatever the
operations mean, and they stay inside their arrays for any factor whose columns can
be read and end inside the matrix, also for one that an elimination has left half
written. In exact arithmetic, where the columns of `L` lie below the diagonal, the
forward loop has done with a row once it gets to its column, and the backward loop
reads only rows that it has done with. Each then satisfies its triangular system, and
the two together invert the product of the factor, which need not come from an
elimination: the rows of a column may stand in any order, and more than once.
-/

namespace Saddle.Factor

open Csc Access

variable {α : Type}

section Any

variable [Scalar α]

/-! ## The loops on functions -/

/-- The vector after the given columns of `L` have been used. -/
def forwardSubst (cols : Nat → List (Nat × α)) (js : List Nat) (v : Nat → α) : Nat → α :=
  js.foldl (fun v j => carry (v j) (cols j) v) v

/-- What is left of `x` after the products of the entries with a vector. -/
def subtractAll (es : List (Nat × α)) (v : Nat → α) (x : α) : α :=
  es.foldl (fun x e => x - e.2 * v e.1) x

/-- The vector after the given columns of `L` have been used as rows. -/
def backwardSubst (cols : Nat → List (Nat × α)) (js : List Nat) (v : Nat → α) : Nat → α :=
  js.foldl (fun v j => Function.update v j (subtractAll (cols j) v (v j))) v

/-- The solution, from the columns of `L` and the reciprocals of the pivots. -/
def substitute (cols : Nat → List (Nat × α)) (dInv : Nat → α) (n : Nat) (v : Nat → α) :
    Nat → α :=
  backwardSubst cols (List.range n).reverse
    fun i => forwardSubst cols (List.range n) v i * dInv i

/-! ## The loops on arrays -/

section Arrays

variable {l : Csc α} {n : Nat} {xs : Array α} {v : Nat → α} {j : Nat}

theorem forwardColumn_spec (hl : l.Readable) (hn : l.ncols = n)
    (hrow : ∀ j < n, ∀ e ∈ l.col j, e.1 < n) (hxs : Tabulates xs n v) (hj : j < n) :
    ∃ ys, forwardColumn l xs j = some ys ∧ Tabulates ys n (carry (v j) (l.col j) v) := by
  have hj' : j < l.ncols := hn ▸ hj
  obtain ⟨ys, hrun, hys⟩ := subtractEntries_spec (hl.ptr_le j hj') (hl.ptr_le' j hj') rfl
    (hrow j hj) hxs (v j)
  refine ⟨ys, ?_, hys⟩
  rw [forwardColumn, hxs.get j hj, hl.positions?_eq hj']
  exact hrun

theorem backwardColumn_spec (hl : l.Readable) (hn : l.ncols = n)
    (hrow : ∀ j < n, ∀ e ∈ l.col j, e.1 < n) (hxs : Tabulates xs n v) (hj : j < n) :
    ∃ ys, backwardColumn l xs j = some ys ∧
      Tabulates ys n (Function.update v j (subtractAll (l.col j) v (v j))) := by
  have hj' : j < l.ncols := hn ▸ hj
  have hread := hl.mapM_positions hj'
  have hsum : ∀ (es : List (Nat × α)) (x : α), (∀ e ∈ es, e.1 < n) →
      es.foldlM (fun x (e : Nat × α) => do return x - e.2 * (← xs[e.1]?)) x =
        some (subtractAll es v x) := by
    intro es
    induction es with
    | nil => intro x _; rfl
    | cons e es ih =>
        intro x hes
        rw [List.forall_mem_cons] at hes
        rw [List.foldlM_cons, hxs.get e.1 hes.1]
        exact ih _ hes.2
  have hloop : (List.range' (l.ptr j) (l.ptr (j + 1) - l.ptr j)).foldlM (subtractProduct l xs)
      (v j) = some (subtractAll (l.col j) v (v j)) :=
    (foldlM_fetch hread (v j)).trans (hsum _ _ (hrow j hj))
  obtain ⟨ys, hwrite, hys⟩ := hxs.write hj (subtractAll (l.col j) v (v j))
  refine ⟨ys, ?_, hys⟩
  rw [backwardColumn, hxs.get j hj, hl.positions?_eq hj']
  simp only [Option.bind_eq_bind, Option.bind_some, hloop]
  exact hwrite

omit [Scalar α] in
/-- A loop over columns each of which is used as on functions. -/
theorem foldlM_columns {f : Array α → Nat → Option (Array α)} {g : (Nat → α) → Nat → Nat → α}
    (hstep : ∀ xs v j, Tabulates xs n v → j < n →
      ∃ ys, f xs j = some ys ∧ Tabulates ys n (g v j)) (js : List Nat) (hjs : ∀ j ∈ js, j < n)
    (hxs : Tabulates xs n v) :
    ∃ ys, js.foldlM f xs = some ys ∧ Tabulates ys n (js.foldl g v) := by
  refine foldlM_total (fun done ys => Tabulates ys n (done.foldl g v)) hxs ?_
  intro done j rest hsplit ys hys
  obtain ⟨zs, hrun, hzs⟩ := hstep ys _ j hys (hjs j (by rw [hsplit]; simp))
  refine ⟨zs, hrun, ?_⟩
  rw [List.foldl_append]
  exact hzs

theorem tabulates_scale {dInv : Array α} {d : Nat → α} (hxs : Tabulates xs n v)
    (hd : ∀ i < n, dInv[i]? = some (d i)) : Tabulates (scale dInv xs) n fun i => v i * d i := by
  refine ⟨by rw [scale, Array.size_mapIdx, hxs.size_eq], fun i hi => ?_⟩
  rw [scale, Array.getElem?_mapIdx, hxs.get i hi, Option.map_some, hd i hi]

end Arrays

/-- Solving stays inside its arrays, and goes through the two substitutions. -/
theorem solve_spec {f : Factorization α} {n : Nat} (hl : f.l.Readable) (hn : f.l.ncols = n)
    (hrow : ∀ j < n, ∀ e ∈ f.l.col j, e.1 < n) {xs : Array α} {v d : Nat → α}
    (hxs : Tabulates xs n v) (hd : ∀ i < n, f.dInv[i]? = some (d i)) :
    ∃ ys, solve f xs = some ys ∧ Tabulates ys n (substitute f.l.col d n v) := by
  obtain ⟨ys, hforward, hys⟩ := foldlM_columns (f := forwardColumn f.l)
    (fun _ _ _ => forwardColumn_spec hl hn hrow) (List.range n) (fun j => List.mem_range.mp) hxs
  have hscaled := tabulates_scale hys hd
  obtain ⟨zs, hbackward, hzs⟩ := foldlM_columns (f := backwardColumn f.l)
    (fun _ _ _ => backwardColumn_spec hl hn hrow) (List.range n).reverse
    (fun j hj => List.mem_range.mp (List.mem_reverse.mp hj)) hscaled
  refine ⟨zs, ?_, hzs⟩
  rw [solve, forward, hxs.size_eq, hforward]
  simp only [Option.bind_eq_bind, Option.bind_some]
  rw [backward, hscaled.size_eq, hbackward]

/-! ## A factor that fits -/

omit [Scalar α] in
theorem Fits.row_lt_of_mem {s : Symbolic} {f : Factorization α} (h : Fits s f) {j : Nat}
    {e : Nat × α} (he : e ∈ f.l.col j) : e.1 < s.n := by
  obtain ⟨i, hi⟩ := List.mem_iff_getElem?.mp he
  rw [col, getElem?_entriesAt] at hi
  split at hi
  · rw [ entry?] at hi
    cases hrow : f.l.rowIdx[f.l.ptr j + i]? with
    | none => simp [hrow] at hi
    | some row =>
        cases hval : f.l.vals[f.l.ptr j + i]? with
        | none => simp [hrow, hval] at hi
        | some value =>
            obtain rfl : (row, value) = e := by simpa [hrow, hval] using hi
            exact h.row_lt _ _ hrow
  · cases hi

theorem Fits.solve_spec {a : Csc α} {s : Symbolic} {f : Factorization α} (hf : Fits s f)
    (ha : Analyzed a s) {xs : Array α} {v d : Nat → α} (hxs : Tabulates xs s.n v)
    (hd : ∀ i < s.n, f.dInv[i]? = some (d i)) :
    ∃ ys, solve f xs = some ys ∧ Tabulates ys s.n (substitute f.l.col d s.n v) :=
  Factor.solve_spec (hf.framed ha).readable hf.ncols_eq (fun _ _ _ he => hf.row_lt_of_mem he) hxs hd

end Any

/-! ## In exact arithmetic -/

section Exact

open Finset

variable [FieldScalar α] {cols : Nat → List (Nat × α)} {n : Nat}

/-- What the forward loop solves, once it has used `k` columns. -/
theorem forwardSubst_eq (hcols : ∀ j < n, ∀ e ∈ cols j, j < e.1) (v : Nat → α) {k : Nat}
    (hk : k ≤ n) (i : Nat) :
    forwardSubst cols (List.range k) v i +
      ∑ j ∈ range k, sumAt i (cols j) * forwardSubst cols (List.range k) v j = v i := by
  induction k generalizing i with
  | zero => simp [forwardSubst]
  | succ k ih =>
      have ih := ih (by omega)
      obtain ⟨w, hw⟩ : ∃ w, forwardSubst cols (List.range k) v = w := ⟨_, rfl⟩
      have hnext : forwardSubst cols (List.range (k + 1)) v = carry (w k) (cols k) w := by
        rw [← hw, forwardSubst, List.range_succ, List.foldl_append]
        rfl
      -- The column at hand does not reach back to rows that have been used.
      have hkeep : ∀ j ≤ k, carry (w k) (cols k) w j = w j := fun j hj =>
        carry_of_notMem fun e he => Nat.ne_of_gt (Nat.lt_of_le_of_lt hj (hcols k hk e he))
      rw [hw] at ih
      rw [hnext, sum_range_succ, carry_eq, hkeep k (Nat.le_refl k)]
      have hsum : ∑ j ∈ range k, sumAt i (cols j) * carry (w k) (cols k) w j =
          ∑ j ∈ range k, sumAt i (cols j) * w j := by
        refine sum_congr rfl fun j hj => ?_
        rw [hkeep j (Nat.le_of_lt (mem_range.mp hj))]
      rw [hsum, ← ih i]
      ring

theorem subtractAll_eq (es : List (Nat × α)) (v : Nat → α) (x : α) :
    subtractAll es v x = x - (es.map fun e => e.2 * v e.1).sum := by
  induction es generalizing x with
  | nil => simp [subtractAll]
  | cons e es ih =>
      rw [subtractAll, List.foldl_cons, ← subtractAll, ih, List.map_cons, List.sum_cons]
      ring

/-- What the backward loop solves in the rows it has done with, the others being as
they were. -/
theorem backwardSubst_eq (hcols : ∀ j < n, ∀ e ∈ cols j, j < e.1) (v : Nat → α) :
    (∀ j, n ≤ j → backwardSubst cols (List.range n).reverse v j = v j) ∧
      ∀ j < n, backwardSubst cols (List.range n).reverse v j +
        ((cols j).map fun e =>
          e.2 * backwardSubst cols (List.range n).reverse v e.1).sum = v j := by
  induction n generalizing v with
  | zero => exact ⟨fun j _ => rfl, fun j hj => absurd hj (Nat.not_lt_zero j)⟩
  | succ n ih =>
      obtain ⟨u, hu⟩ : ∃ u, Function.update v n (subtractAll (cols n) v (v n)) = u := ⟨_, rfl⟩
      obtain ⟨w, hw⟩ : ∃ w, backwardSubst cols (List.range n).reverse u = w := ⟨_, rfl⟩
      have hnext : backwardSubst cols (List.range (n + 1)).reverse v = w := by
        rw [← hw, ← hu, backwardSubst, List.range_succ, List.reverse_append]
        rfl
      obtain ⟨hkeep, hsolve⟩ := ih (fun j hj => hcols j (by omega)) u
      rw [hw] at hkeep hsolve
      rw [hnext]
      have hlater : ∀ j, n < j → w j = v j := by
        intro j hj
        rw [hkeep j (Nat.le_of_lt hj), ← hu, Function.update_of_ne (Nat.ne_of_gt hj)]
      refine ⟨fun j hj => hlater j hj, fun j hj => ?_⟩
      rcases Nat.lt_or_eq_of_le (Nat.le_of_lt_succ hj) with hjn | rfl
      · rw [hsolve j hjn, ← hu, Function.update_of_ne (Nat.ne_of_lt hjn)]
      · have hsum : ((cols j).map fun e => e.2 * w e.1) = (cols j).map fun e => e.2 * v e.1 :=
          List.map_congr_left fun e he => by rw [hlater e.1 (hcols j hj e he)]
        rw [hkeep j (Nat.le_refl j), ← hu, Function.update_self, hsum, subtractAll_eq]
        ring

section Product

variable {st : Stage α}

/-- The product of column `l` of `I + L` with a vector. -/
theorem sum_mul_unit (h : Lower n st.cols) {l : Nat} (hl : l < n) (x : Nat → α) :
    ∑ j ∈ range n, st.unit j l * x j =
      x l + ((st.cols l).map fun e => e.2 * x e.1).sum := by
  have hself := sumAt_self h hl
  have hterm : ∀ j ∈ range n,
      st.unit j l * x j = (if l = j then x j else 0) + sumAt j (st.cols l) * x j := by
    intro j _
    rw [Stage.unit]
    by_cases hjl : j = l
    · subst hjl
      rw [if_pos rfl, if_pos rfl, hself]
      ring
    · rw [if_neg hjl, if_neg (Ne.symm hjl), zero_add]
  rw [sum_congr rfl hterm, sum_add_distrib, sum_ite_eq, if_pos (mem_range.mpr hl),
    sum_map_mul_eq fun e he => (h l hl e he).2]

/-- What the two substitutions solve is the system of the product. -/
theorem product_substitute (h : Lower n st.cols) (hinv : Inverted n st) (v : Nat → α) {i : Nat}
    (hi : i < n) :
    ∑ j ∈ range n, (∑ l ∈ range n, st.unit i l * st.d l * st.unit j l) *
      substitute st.cols st.dInv n v j = v i := by
  have hlower : ∀ j < n, ∀ e ∈ st.cols j, j < e.1 := fun j hj e he => (h j hj e he).1
  obtain ⟨y, hy⟩ : ∃ y, forwardSubst st.cols (List.range n) v = y := ⟨_, rfl⟩
  have hforward := forwardSubst_eq hlower v (Nat.le_refl _) i
  rw [hy] at hforward
  obtain ⟨x, hx⟩ : ∃ x, substitute st.cols st.dInv n v = x := ⟨_, rfl⟩
  have hbackward := (backwardSubst_eq hlower fun i => y i * st.dInv i).2
  rw [← hy, ← substitute, hx] at hbackward
  rw [hx]
  calc ∑ j ∈ range n, (∑ l ∈ range n, st.unit i l * st.d l * st.unit j l) * x j
      = ∑ j ∈ range n, ∑ l ∈ range n, st.unit i l * st.d l * (st.unit j l * x j) := by
        refine sum_congr rfl fun j _ => ?_
        rw [sum_mul]
        exact sum_congr rfl fun l _ => mul_assoc _ _ _
    _ = ∑ l ∈ range n, st.unit i l * st.d l * ∑ j ∈ range n, st.unit j l * x j := by
        rw [sum_comm]
        exact sum_congr rfl fun l _ => (mul_sum _ _ _).symm
    _ = ∑ l ∈ range n, st.unit i l * y l := by
        refine sum_congr rfl fun l hl => ?_
        have hl' := mem_range.mp hl
        rw [sum_mul_unit h hl', hbackward l hl', hy]
        linear_combination st.unit i l * y l * hinv l hl'
    _ = y i + ∑ l ∈ range n, sumAt i (st.cols l) * y l := sum_unit_mul h hi (Nat.le_refl _) y
    _ = v i := hforward

end Product

/-! ## The factor of a matrix -/

section Complete

variable {a : Csc α} {s : Symbolic} {st : Stage α} {f : Factorization α}

/-- What the two substitutions solve is the system that was factored. -/
theorem Complete.symmetricAt_substitute (h : Complete a s st f)
    (hrec : Reconstructs a a.ncols st) (hinv : Inverted a.ncols st) (v : Nat → α) {i : Nat}
    (hi : i < a.ncols) :
    ∑ j ∈ range a.ncols,
      a.symmetricAt i j * substitute f.l.col (f.dInv.getD · 0) a.ncols v j = v i := by
  have hinv' : Inverted a.ncols f.stage := fun l hl => by
    rw [h.stage_d hl, h.stage_dInv hl, hinv l hl]
  have hlower : Lower a.ncols f.stage.cols := h.lower
  refine (sum_congr rfl fun j hj => ?_).trans (product_substitute hlower hinv' v hi)
  rw [h.sum_range hrec hi (mem_range.mp hj)]
  rfl

end Complete

/-! ## Any factor -/

section Inverse

variable {f : Factorization α}

/-- Whatever it is the factor of: its columns can be read and lie below the diagonal, and
the reciprocals are those of its pivots. -/
structure Factorization.Invertible (f : Factorization α) : Prop where
  readable : f.l.Readable
  ncols_eq : f.l.ncols = f.n
  lower : ∀ j < f.n, ∀ e ∈ f.l.col j, j < e.1 ∧ e.1 < f.n
  reciprocal : ∀ k < f.n, f.d.getD k 0 * f.dInv.getD k 0 = 1

/-- The product `(I + L) D (I + L)ᵀ`. -/
def Factorization.product (f : Factorization α) : Matrix (Fin f.n) (Fin f.n) α :=
  f.unitLower f.n * Matrix.diagonal (f.pivots f.n) * (f.unitLower f.n).transpose

/-- The entries of an array, as a vector. -/
def vectorOf (n : Nat) (xs : Array α) : Fin n → α := fun i => xs.getD i 0

theorem Factorization.Invertible.dInv_eq (h : f.Invertible) {k : Nat} (hk : k < f.n) :
    f.dInv[k]? = some (f.dInv.getD k 0) := by
  have hlt : k < f.dInv.size := by
    by_contra hlt
    have hone := h.reciprocal k hk
    rw [Array.getD_eq_getD_getElem?, Array.getD_eq_getD_getElem?,
      Array.getElem?_eq_none (Nat.le_of_not_lt hlt), Option.getD_none, mul_zero] at hone
    exact zero_ne_one hone
  exact (Tabulates.self f.dInv 0).get k hlt

theorem Factorization.Invertible.exists_solve (h : f.Invertible) {x : Array α} (hx : x.size = f.n) :
    ∃ z, solve f x = some z ∧ z.size = f.n ∧
      f.product.mulVec (vectorOf f.n z) = vectorOf f.n x := by
  obtain ⟨z, hrun, hz⟩ := solve_spec h.readable h.ncols_eq (fun j hj e he => (h.lower j hj e he).2)
    (hx ▸ Tabulates.self x 0) fun k hk => h.dInv_eq hk
  refine ⟨z, hrun, hz.size_eq, funext fun i => ?_⟩
  rw [Matrix.mulVec, dotProduct]
  have hlower : Lower f.n f.stage.cols := h.lower
  have hinv : Inverted f.n f.stage := h.reciprocal
  have hsystem := product_substitute hlower hinv (x.getD · 0) i.isLt
  rw [Finset.sum_range] at hsystem
  refine (sum_congr rfl fun j _ => ?_).trans hsystem
  rw [Factorization.product, Factorization.product_apply h.lower, vectorOf,
    Array.getD_eq_getD_getElem?, hz.get j j.isLt]
  rfl

theorem eq_of_vectorOf {n : Nat} {x y : Array α} (hx : x.size = n) (hy : y.size = n)
    (hxy : vectorOf n x = vectorOf n y) : x = y := by
  have hx' : Tabulates x n (x.getD · 0) := hx ▸ Tabulates.self x 0
  have hy' : Tabulates y n (y.getD · 0) := hy ▸ Tabulates.self y 0
  exact hx'.ext hy' fun i hi => congrFun hxy ⟨i, hi⟩

/-- Solving inverts the product of the factor. -/
theorem solve_inverts (h : f.Invertible) :
    (∀ x, x.size = f.n → ∃ z, solve f x = some z ∧ z.size = f.n ∧
      f.product.mulVec (vectorOf f.n z) = vectorOf f.n x) ∧
    ∀ x y, x.size = f.n → y.size = f.n → f.product.mulVec (vectorOf f.n y) = vectorOf f.n x →
      solve f x = some y := by
  refine ⟨fun x hx => h.exists_solve hx, fun x y hx hy hxy => ?_⟩
  -- Every vector is a product, so that no two vectors have the same.
  have hsurjective : Function.Surjective f.product.mulVec := by
    intro b
    obtain ⟨z, -, -, hz⟩ := h.exists_solve (x := Array.ofFn b) Array.size_ofFn
    refine ⟨_, hz.trans (funext fun i => ?_)⟩
    simp [vectorOf, Array.getD]
  have hinjective := Matrix.mulVec_injective_iff_isUnit.mpr
    (Matrix.mulVec_surjective_iff_isUnit.mp hsurjective)
  obtain ⟨z, hrun, hsize, hz⟩ := h.exists_solve hx
  rw [hrun, eq_of_vectorOf hsize hy (hinjective (hz.trans hxy.symm))]

/-- A factor that has row 2 of its first column twice, and row 1 between them. -/
def jumbled : Factorization ℚ :=
  ⟨⟨3, 3, #[0, 3, 4, 4], #[2, 1, 2, 2], #[1, 2, 3, -1]⟩, #[2, -1, 4], #[1 / 2, -1, 1 / 4], 2⟩

theorem solve_inverts_jumbled :
    jumbled.Invertible ∧ solve jumbled #[34, 69, 147] = some #[1, 2, 3] ∧
      jumbled.product.mulVec (vectorOf 3 #[1, 2, 3]) = vectorOf 3 #[34, 69, 147] := by
  have hlower : ∀ j < 3, ∀ e ∈ jumbled.l.col j, j < e.1 ∧ e.1 < 3 := by decide
  have hjumbled : jumbled.Invertible :=
    ⟨⟨by decide, by decide, by decide, by decide⟩, rfl, hlower, by decide +kernel⟩
  have hsolve : solve jumbled #[34, 69, 147] = some #[1, 2, 3] := by decide +kernel
  obtain ⟨z, hrun, -, hz⟩ := (solve_inverts hjumbled).1 #[34, 69, 147] rfl
  obtain rfl := Option.some.inj (hsolve.symm.trans hrun)
  exact ⟨hjumbled, (solve_inverts hjumbled).2 _ _ rfl rfl hz, hz⟩

end Inverse

end Exact

end Saddle.Factor
