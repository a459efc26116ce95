import Saddle.Proofs.Exact
import Saddle.Proofs.Sparse.Checks
import Saddle.Proofs.Kkt.Update

/-!
# The assembled matrix, cell by cell

The matrix comes out of a list in which the diagonal of the variables stands first and
the blocks follow, sorted by place and merged. Here that detour is taken out. Which
cells there are, and what is in them, is said block by block, for any addition: the
only sum that is ever formed is that of `sigma` and a diagonal entry of `P`, in this
order, and every other value is as it came. As no value decides what is stored, an
entry that happens to be zero keeps its place, and two assemblies on the same patterns
have one pattern.

Blocks that do not fit together are refused by the first check that fails. The checks
are made in an order in which each may rely on the ones before, so for no data at all
is anything read outside the arrays.
-/

namespace Saddle.Kkt

open Cell Csc Triplets Checked

variable {α : Type}

/-! ## Refusals -/

/-- The answer of the first check that fails. -/
inductive Refusal (p a : Csc α) (lower : PerConstraint α) : Error → Prop
  | quadratic {e : Csc.Error} (hp : p.check.run = some (.error e)) :
      Refusal p a lower (.matrix e)
  | constraints {e : Csc.Error} (hp : p.check.run = some (.ok ()))
      (ha : a.check.run = some (.error e)) : Refusal p a lower (.matrix e)
  | triangle {e : Csc.Error} (hp : p.check.run = some (.ok ())) (ha : a.check.run = some (.ok ()))
      (hu : p.checkUpper.run = some (.error e)) : Refusal p a lower (.matrix e)
  | columns (hp : p.check.run = some (.ok ())) (ha : a.check.run = some (.ok ()))
      (hu : p.checkUpper.run = some (.ok ())) (hcolumns : a.ncols ≠ p.ncols) :
      Refusal p a lower (.columnMismatch p.ncols a.ncols)
  | regularization {values : Array α} (hp : p.check.run = some (.ok ()))
      (ha : a.check.run = some (.ok ())) (hu : p.checkUpper.run = some (.ok ()))
      (hcolumns : a.ncols = p.ncols) (hlower : lower = .each values)
      (hsize : values.size ≠ a.nrows) :
      Refusal p a lower (.regularizationLength a.nrows values.size)

section Refusal

variable {p a : Csc α} {lower : PerConstraint α}

theorem Refusal.run_checkBlocks {e : Error} (h : Refusal p a lower e) :
    (checkBlocks p a lower).run = some (.error e) := by
  rw [checkBlocks]
  cases h with
  | quadratic hp => exact run_bind_error (run_adapt_error hp)
  | constraints hp ha =>
      rw [run_bind_ok (run_adapt_eq_ok.mpr hp)]
      exact run_bind_error (run_adapt_error ha)
  | triangle hp ha hu =>
      rw [run_bind_ok (run_adapt_eq_ok.mpr hp), run_bind_ok (run_adapt_eq_ok.mpr ha)]
      exact run_bind_error (run_adapt_error hu)
  | columns hp ha hu hcolumns =>
      rw [run_bind_ok (run_adapt_eq_ok.mpr hp), run_bind_ok (run_adapt_eq_ok.mpr ha),
        run_bind_ok (run_adapt_eq_ok.mpr hu), run_guard, if_pos hcolumns]
  | regularization hp ha hu hcolumns hlower hsize =>
      rw [run_bind_ok (run_adapt_eq_ok.mpr hp), run_bind_ok (run_adapt_eq_ok.mpr ha),
        run_bind_ok (run_adapt_eq_ok.mpr hu), run_guard, if_neg (not_not_intro hcolumns),
        run_except, hlower, checkLength, if_pos hsize]

/-- There is no third way: blocks fit together, or some check is the first to fail. -/
theorem blocks_or_refusal (p a : Csc α) (lower : PerConstraint α) :
    Blocks p a lower ∨ ∃ e, Refusal p a lower e := by
  obtain ⟨rp, hp, hpv⟩ := inBounds_check p
  cases rp with
  | error e => exact Or.inr ⟨_, .quadratic hp⟩
  | ok _ =>
  obtain ⟨ra, ha, hav⟩ := inBounds_check a
  cases ra with
  | error e => exact Or.inr ⟨_, .constraints hp ha⟩
  | ok _ =>
  obtain ⟨ru, hu, huv⟩ := inBounds_checkUpper (hpv () rfl)
  cases ru with
  | error e => exact Or.inr ⟨_, .triangle hp ha hu⟩
  | ok _ =>
  by_cases hcolumns : a.ncols = p.ncols
  · by_cases hlower : lower.Fits a.nrows
    · exact Or.inl ⟨hpv () rfl, huv () rfl, hav () rfl, hcolumns, hlower⟩
    · cases lower with
      | uniform value => exact absurd trivial hlower
      | each values => exact Or.inr ⟨_, .regularization hp ha hu hcolumns rfl hlower⟩
  · exact Or.inr ⟨_, .columns hp ha hu hcolumns⟩

end Refusal

/-! ## Cells -/

variable [Scalar α]

/-- The cells of the saddle point matrix, by what they come from. -/
inductive SaddleCell (p a : Csc α) (sigma : α) (lower : PerConstraint α) : Cell α → Prop
  | stored {j : Nat} {x : α} (h : ⟨j, j, x⟩ ∈ p.cellList) :
      SaddleCell p a sigma lower ⟨j, j, sigma + x⟩
  | unstored {j : Nat} (hj : j < p.ncols) (h : ∀ x, ⟨j, j, x⟩ ∉ p.cellList) :
      SaddleCell p a sigma lower ⟨j, j, sigma⟩
  | quadratic {i j : Nat} {x : α} (hij : i ≠ j) (h : ⟨j, i, x⟩ ∈ p.cellList) :
      SaddleCell p a sigma lower ⟨j, i, x⟩
  | constraint {i j : Nat} {x : α} (h : ⟨j, i, x⟩ ∈ a.cellList) :
      SaddleCell p a sigma lower ⟨p.ncols + i, j, x⟩
  | lower {i : Nat} {x : α} (hi : i < a.nrows) (h : lower.get? i = some x) :
      SaddleCell p a sigma lower ⟨p.ncols + i, p.ncols + i, -x⟩

section Cells

variable {p a : Csc α} {sigma : α} {lower : PerConstraint α}

theorem mem_blockList {c : Cell α} :
    c ∈ blockList p a lower ↔ c ∈ p.cellList ∨ (∃ d ∈ a.cellList, c = shift p.ncols d) ∨
      ∃ i < a.nrows, c = ⟨p.ncols + i, p.ncols + i, -lower.value i⟩ := by
  simp only [blockList, List.mem_append, List.mem_map, List.mem_range, or_assoc, eq_comm]

/-- A place that no block has is on the diagonal of the variables, or empty. -/
theorem valuesAt_entryList_of_notMem {i j : Nat}
    (h : (j, i) ∉ (blockList p a lower).map place) :
    valuesAt (j, i) (entryList p a sigma lower) =
      if i = j ∧ j < p.ncols then [sigma] else [] := by
  rw [entryList_eq, valuesAt_append, valuesAt_of_notMem h, List.append_nil, valuesAt_diagonal]

theorem diagonal_notMem_blockList {j : Nat} (hj : j < p.ncols)
    (h : ∀ x, ⟨j, j, x⟩ ∉ p.cellList) : (j, j) ∉ (blockList p a lower).map place := by
  intro hmem
  obtain ⟨⟨column, row, x⟩, hc, hplace⟩ := List.mem_map.mp hmem
  obtain ⟨hcolumn, hrow⟩ : column = j ∧ row = j := Prod.mk.inj hplace
  subst hcolumn hrow
  rcases mem_blockList.mp hc with hc | ⟨d, hd, heq⟩ | ⟨i, hi, heq⟩
  · exact h x hc
  · have hcolumn : row = p.ncols + d.row := congrArg Cell.column heq
    omega
  · have hcolumn : row = p.ncols + i := congrArg Cell.column heq
    omega

theorem saddleCell_of_block (hb : Blocks p a lower) {c : Cell α} (hc : c ∈ blockList p a lower) :
    SaddleCell p a sigma lower ⟨c.column, c.row, slotValue p.ncols sigma c⟩ := by
  rw [slotValue]
  rcases mem_blockList.mp hc with hc | ⟨d, hd, rfl⟩ | ⟨i, hi, rfl⟩
  · have hlt := (lt_of_mem_cellList hb.pValid hc).1
    obtain ⟨j, i, x⟩ := c
    by_cases hij : i = j
    · subst hij
      rw [if_pos ⟨rfl, hlt⟩]
      exact .stored hc
    · rw [if_neg fun h => hij h.1]
      exact .quadratic hij hc
  · rw [if_neg (by simp only [shift]; omega)]
    exact .constraint hd
  · rw [if_neg (by simp only; omega)]
    exact .lower hi (hb.lower.get?_eq hi)

/-- What a block has at a place, the sum there is made of. -/
theorem chain?_of_block (hb : Blocks p a lower) {c : Cell α} (hc : c ∈ blockList p a lower)
    {i j : Nat} (hi : c.row = i) (hj : c.column = j) :
    chain? (valuesAt (j, i) (entryList p a sigma lower)) = some (slotValue p.ncols sigma c) := by
  subst hi hj
  exact valuesAt_entryList hb hc

theorem SaddleCell.chain?_eq (hb : Blocks p a lower) {c : Cell α}
    (h : SaddleCell p a sigma lower c) :
    chain? (valuesAt c.place (entryList p a sigma lower)) = some c.value := by
  cases h with
  | @stored j x h =>
      have hj : j < p.ncols := (lt_of_mem_cellList hb.pValid h).1
      refine (chain?_of_block hb (mem_blockList.mpr (Or.inl h)) rfl rfl).trans ?_
      rw [slotValue, if_pos ⟨rfl, hj⟩]
  | @unstored j hj h =>
      rw [place, valuesAt_entryList_of_notMem (diagonal_notMem_blockList hj h), if_pos ⟨rfl, hj⟩]
      rfl
  | @quadratic i j x hij h =>
      refine (chain?_of_block hb (mem_blockList.mpr (Or.inl h)) rfl rfl).trans ?_
      rw [slotValue, if_neg fun h => hij h.1]
  | @constraint i j x h =>
      have hmem : shift p.ncols ⟨j, i, x⟩ ∈ blockList p a lower :=
        mem_blockList.mpr (Or.inr (Or.inl ⟨_, h, rfl⟩))
      refine (chain?_of_block hb hmem rfl rfl).trans ?_
      rw [slotValue, if_neg (by simp only [shift]; omega)]
      rfl
  | @lower i x hi h =>
      have hmem : (⟨p.ncols + i, p.ncols + i, -lower.value i⟩ : Cell α) ∈ blockList p a lower :=
        mem_blockList.mpr (Or.inr (Or.inr ⟨i, hi, rfl⟩))
      refine (chain?_of_block hb hmem rfl rfl).trans ?_
      rw [hb.lower.get?_eq hi, Option.some.injEq] at h
      rw [slotValue, if_neg (by simp only; omega), h]

theorem saddleCell_of_chain?_eq (hb : Blocks p a lower) {i j : Nat} {x : α}
    (h : chain? (valuesAt (j, i) (entryList p a sigma lower)) = some x) :
    SaddleCell p a sigma lower ⟨j, i, x⟩ := by
  by_cases hmem : (j, i) ∈ (blockList p a lower).map place
  · obtain ⟨c, hc, hplace⟩ := List.mem_map.mp hmem
    obtain ⟨rfl, rfl⟩ := Prod.mk.inj hplace
    rw [chain?_of_block hb hc rfl rfl, Option.some.injEq] at h
    exact h ▸ saddleCell_of_block hb hc
  · rw [valuesAt_entryList_of_notMem hmem] at h
    by_cases hon : i = j ∧ j < p.ncols
    · rw [if_pos hon] at h
      obtain ⟨rfl, hj⟩ := hon
      obtain rfl : sigma = x := Option.some.inj h
      refine .unstored hj fun y hy => hmem ?_
      exact List.mem_map.mpr ⟨_, mem_blockList.mpr (Or.inl hy), rfl⟩
    · rw [if_neg hon] at h
      cases h

theorem mem_cells_iff_saddleCell (hb : Blocks p a lower) {cells : List (Cell α)}
    {slots : Array Nat} (h : Built id (entryList p a sigma lower) cells slots) {c : Cell α} :
    c ∈ cells ↔ SaddleCell p a sigma lower c := by
  rw [mem_cells_iff h]
  exact ⟨saddleCell_of_chain?_eq hb, SaddleCell.chain?_eq hb⟩

end Cells

/-! ## The matrix -/

/-- The matrix stores the cells of the blocks, each once, in a form that passes the checks. -/
structure Layout (p a : Csc α) (sigma : α) (lower : PerConstraint α) (matrix : Csc α) :
    Prop where
  nrows_eq : matrix.nrows = p.ncols + a.nrows
  ncols_eq : matrix.ncols = p.ncols + a.nrows
  check : matrix.check.run = some (.ok ())
  checkUpper : matrix.checkUpper.run = some (.ok ())
  nodup : (matrix.cellList.map place).Nodup
  mem_iff : ∀ c, c ∈ matrix.cellList ↔ SaddleCell p a sigma lower c
  place_mem_iff : ∀ q, q ∈ matrix.cellList.map place ↔
    (∃ j < p.ncols + a.nrows, q = (j, j)) ∨
      (∃ c ∈ p.cellList, c.row ≠ c.column ∧ q = c.place) ∨
        ∃ c ∈ a.cellList, q = (p.ncols + c.row, c.column)

section Layout

variable {p a : Csc α} {sigma : α} {lower : PerConstraint α}

/-- Where the cells are: on the whole diagonal, off it where `P` has an entry, and at the
transposed places of `A`. -/
theorem exists_saddleCell_iff (hb : Blocks p a lower) {q : Nat × Nat} :
    (∃ c, SaddleCell p a sigma lower c ∧ c.place = q) ↔
      (∃ j < p.ncols + a.nrows, q = (j, j)) ∨
        (∃ c ∈ p.cellList, c.row ≠ c.column ∧ q = c.place) ∨
          ∃ c ∈ a.cellList, q = (p.ncols + c.row, c.column) := by
  constructor
  · rintro ⟨c, hc, rfl⟩
    cases hc with
    | @stored j x h =>
        have hj : j < p.ncols := (lt_of_mem_cellList hb.pValid h).1
        exact Or.inl ⟨j, by omega, rfl⟩
    | @unstored j hj h => exact Or.inl ⟨j, by omega, rfl⟩
    | @quadratic i j x hij h => exact Or.inr (Or.inl ⟨_, h, hij, rfl⟩)
    | @constraint i j x h => exact Or.inr (Or.inr ⟨_, h, rfl⟩)
    | @lower i x hi h => exact Or.inl ⟨p.ncols + i, by omega, rfl⟩
  · rintro (⟨j, hj, rfl⟩ | ⟨⟨j, i, x⟩, hc, hij, rfl⟩ | ⟨⟨j, i, x⟩, hc, rfl⟩)
    · rcases Nat.lt_or_ge j p.ncols with hjn | hjn
      · by_cases hstored : ∃ x, ⟨j, j, x⟩ ∈ p.cellList
        · obtain ⟨x, hx⟩ := hstored
          exact ⟨_, .stored hx, rfl⟩
        · exact ⟨_, .unstored hjn (not_exists.mp hstored), rfl⟩
      · obtain ⟨i, rfl⟩ := Nat.exists_eq_add_of_le hjn
        exact ⟨_, .lower (by omega) (hb.lower.get?_eq (by omega)), rfl⟩
    · exact ⟨_, .quadratic hij hc, rfl⟩
    · exact ⟨_, .constraint hc, rfl⟩

theorem layout_of_built (hb : Blocks p a lower) {cells : List (Cell α)} {slots : Array Nat}
    (h : Built id (entryList p a sigma lower) cells slots) :
    Layout p a sigma lower (ofCells (p.ncols + a.nrows) (p.ncols + a.nrows) cells) := by
  have htri := inTriangle_of_built h (inTriangle_entryList hb sigma)
  have hvalid := valid_ofTriangle htri h.increasing
  have hcells := cellList_ofTriangle htri h.increasing
  have hmem : ∀ c, c ∈ (ofCells (p.ncols + a.nrows) (p.ncols + a.nrows) cells).cellList ↔
      SaddleCell p a sigma lower c := by
    intro c
    rw [hcells]
    exact mem_cells_iff_saddleCell hb h
  refine ⟨rfl, rfl, check_eq_ok.mpr hvalid,
    (checkUpper_eq_ok hvalid).mpr (upper_ofCells htri h.increasing), ?_, hmem, fun q => ?_⟩
  · rw [hcells]
    exact h.nodup
  · rw [← exists_saddleCell_iff hb, List.mem_map]
    exact exists_congr fun c => and_congr_left' (hmem c)

/-- Assembly looks at patterns only before it stores anything. -/
theorem samePattern_of_built {p' a' : Csc α} {sigma' : α} {lower' : PerConstraint α}
    (hp : SamePattern p' p) (ha : SamePattern a' a) {cells cells' : List (Cell α)}
    {slots slots' : Array Nat}
    (h : Built id (entryList p a sigma lower) cells slots)
    (h' : Built id (entryList p' a' sigma' lower') cells' slots') :
    SamePattern (ofCells (p'.ncols + a'.nrows) (p'.ncols + a'.nrows) cells')
      (ofCells (p.ncols + a.nrows) (p.ncols + a.nrows) cells) := by
  have hplaces : (entryList p' a' sigma' lower').map place =
      (entryList p a sigma lower).map place :=
    places_entryList hp ha
  rw [hp.ncols_eq, ha.nrows_eq]
  exact samePattern_ofCells _ _ (h'.congr h hplaces).1

end Layout

/-! ## What an assembly answers -/

section Assemble

variable {p a : Csc α} {sigma : α} {lower : PerConstraint α} {track : Bool} {system : System α}

omit [Scalar α] in
theorem blocks_iff :
    Blocks p a lower ↔ p.check.run = some (.ok ()) ∧ a.check.run = some (.ok ()) ∧
      (p.nrows = p.ncols ∧ ∀ c ∈ p.cellList, c.row ≤ c.column) ∧ a.ncols = p.ncols ∧
        lower.Fits a.nrows := by
  rw [check_eq_ok, check_eq_ok, ← upper_iff_cellList]
  constructor
  · intro h
    exact ⟨h.pValid, h.aValid, h.pUpper, h.columns, h.lower⟩
  · rintro ⟨hp, ha, hu, hcolumns, hlower⟩
    exact ⟨hp, hu, ha, hcolumns, hlower⟩

theorem exists_assemble_iff :
    (∃ system, (assemble p a sigma lower track).run = some (.ok system)) ↔ Blocks p a lower := by
  constructor
  · rintro ⟨system, h⟩
    exact blocks_of_assemble h
  · intro hb
    obtain ⟨cells, slots, hrun, -⟩ := assemble_spec hb sigma track
    exact ⟨_, hrun⟩

theorem Refusal.run_assemble {e : Error} (h : Refusal p a lower e) :
    (assemble p a sigma lower track).run = some (.error e) := by
  rw [assemble]
  exact run_bind_error h.run_checkBlocks

theorem assemble_eq_error_iff {e : Error} :
    (assemble p a sigma lower track).run = some (.error e) ↔ Refusal p a lower e := by
  refine ⟨fun h => ?_, Refusal.run_assemble⟩
  rcases blocks_or_refusal p a lower with hb | ⟨e', he'⟩
  · obtain ⟨cells, slots, hrun, -⟩ := assemble_spec hb sigma track
    rw [h] at hrun
    cases hrun
  · rw [he'.run_assemble, Option.some.injEq, Except.error.injEq] at h
    exact h ▸ he'

theorem inBounds_assemble (p a : Csc α) (sigma : α) (lower : PerConstraint α) (track : Bool) :
    (assemble p a sigma lower track).InBounds fun _ => Blocks p a lower := by
  rcases blocks_or_refusal p a lower with hb | ⟨e, he⟩
  · obtain ⟨cells, slots, hrun, -⟩ := assemble_spec hb sigma track
    exact inBounds_of_ok hrun hb
  · exact inBounds_of_error he.run_assemble

theorem layout_of_assemble (h : (assemble p a sigma lower track).run = some (.ok system)) :
    Layout p a sigma lower system.matrix := by
  have hb := blocks_of_assemble h
  obtain ⟨cells, slots, hrun, hbuilt⟩ := assemble_spec hb sigma track
  rw [h, Option.some.injEq, Except.ok.injEq] at hrun
  rw [hrun]
  exact layout_of_built hb hbuilt

theorem samePattern_of_assemble {p' a' : Csc α} {sigma' : α} {lower' : PerConstraint α}
    {track' : Bool} {system' : System α} (hp : SamePattern p' p) (ha : SamePattern a' a)
    (h : (assemble p a sigma lower track).run = some (.ok system))
    (h' : (assemble p' a' sigma' lower' track').run = some (.ok system')) :
    SamePattern system'.matrix system.matrix := by
  have hb := blocks_of_assemble h
  obtain ⟨cells, slots, hrun, hbuilt⟩ := assemble_spec hb sigma track
  obtain ⟨cells', slots', hrun', hbuilt'⟩ := assemble_spec (blocks_of_assemble h') sigma' track'
  rw [h, Option.some.injEq, Except.ok.injEq] at hrun
  rw [h', Option.some.injEq, Except.ok.injEq] at hrun'
  rw [hrun, hrun']
  exact samePattern_of_built hp ha hbuilt hbuilt'

/-- Blocks are assembled exactly if each is in order and they fit together, and what refuses
them is the first check that fails. The matrix then stores the blocks, each cell once, and which
cells it stores follows from the patterns of `P` and `A`. -/
theorem assemble_layout (p a : Csc α) (sigma : α) (lower : PerConstraint α) (track : Bool) :
    (∃ r, (assemble p a sigma lower track).run = some r) ∧
    ((∃ system, (assemble p a sigma lower track).run = some (.ok system)) ↔
      p.check.run = some (.ok ()) ∧ a.check.run = some (.ok ()) ∧
        (p.nrows = p.ncols ∧ ∀ c ∈ p.cellList, c.row ≤ c.column) ∧ a.ncols = p.ncols ∧
        lower.Fits a.nrows) ∧
    (∀ e, (assemble p a sigma lower track).run = some (.error e) ↔ Refusal p a lower e) ∧
    ∀ system, (assemble p a sigma lower track).run = some (.ok system) →
      Layout p a sigma lower system.matrix ∧
        ∀ (p' a' : Csc α) (sigma' : α) (lower' : PerConstraint α) (track' : Bool)
          (system' : System α), SamePattern p' p → SamePattern a' a →
            (assemble p' a' sigma' lower' track').run = some (.ok system') →
              SamePattern system'.matrix system.matrix := by
  obtain ⟨r, hr, -⟩ := inBounds_assemble p a sigma lower track
  refine ⟨⟨r, hr⟩, exists_assemble_iff.trans blocks_iff, fun e => assemble_eq_error_iff,
    fun system h => ⟨layout_of_assemble h, ?_⟩⟩
  intro p' a' sigma' lower' track' system' hp ha h'
  exact samePattern_of_assemble hp ha h h'

/-- A form that stores a zero on its diagonal, and nothing at the other place of it. -/
def hollow : Csc ℚ := ⟨2, 2, #[0, 0, 2], #[0, 1], #[5, 0]⟩

/-- A constraint on one of the variables. -/
def ray : Csc ℚ := ⟨1, 2, #[0, 1, 1], #[0], #[7]⟩

theorem assemble_layout_hollow :
    (∃ system, (assemble hollow ray 1 (.each #[2]) true).run = some (.ok system) ∧
      [⟨0, 0, 1⟩, ⟨1, 0, 5⟩, ⟨1, 1, 1 + 0⟩, ⟨2, 0, 7⟩, ⟨2, 2, -2⟩] ⊆ system.matrix.cellList ∧
      (2, 1) ∉ system.matrix.cellList.map place) ∧
    (assemble hollow ray 1 (.each #[2, 3]) true).run =
      some (.error (.regularizationLength 1 2)) := by
  have hp : hollow.check.run = some (.ok ()) := by decide
  have ha : ray.check.run = some (.ok ()) := by decide
  have hu : hollow.checkUpper.run = some (.ok ()) := by decide
  obtain ⟨-, hok, -, hlayout⟩ := assemble_layout hollow ray 1 (.each #[2]) true
  obtain ⟨-, -, herror, -⟩ := assemble_layout hollow ray 1 (.each #[2, 3]) true
  refine ⟨?_, (herror _).mpr (.regularization hp ha hu rfl rfl (by decide))⟩
  obtain ⟨system, hrun⟩ := hok.mpr ⟨hp, ha, ⟨rfl, by decide⟩, rfl, rfl⟩
  obtain ⟨hmatrix, -⟩ := hlayout system hrun
  refine ⟨system, hrun, ?_, ?_⟩
  · have hp : hollow.cellList = [⟨1, 0, 5⟩, ⟨1, 1, 0⟩] := rfl
    have ha : ray.cellList = [⟨0, 0, 7⟩] := rfl
    have h00 : SaddleCell hollow ray 1 (.each #[2]) ⟨0, 0, 1⟩ :=
      .unstored (by decide) (by simp [hp])
    have h10 : SaddleCell hollow ray 1 (.each #[2]) ⟨1, 0, 5⟩ :=
      .quadratic (by decide) (by simp [hp])
    have h11 : SaddleCell hollow ray 1 (.each #[2]) ⟨1, 1, 1 + 0⟩ := .stored (by simp [hp])
    have h20 : SaddleCell hollow ray 1 (.each #[2]) ⟨2, 0, 7⟩ :=
      .constraint (p := hollow) (a := ray) (i := 0) (by simp [ha])
    have h22 : SaddleCell hollow ray 1 (.each #[2]) ⟨2, 2, -2⟩ :=
      .lower (p := hollow) (a := ray) (i := 0) (by decide) rfl
    simp only [List.cons_subset, List.nil_subset, and_true, hmatrix.mem_iff]
    exact ⟨h00, h10, h11, h20, h22⟩
  · rw [hmatrix.place_mem_iff]
    decide

end Assemble

end Saddle.Kkt
