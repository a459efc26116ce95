import Saddle.Sparse.Triplets
import Saddle.Sparse.Permute
import Saddle.Elimination.Order
import Saddle.Kkt.PerConstraint

/-!
# The saddle point matrix

For a quadratic form `P` in `n` variables and `m` constraints `A` the matrix is

```text
[ P + σI      Aᵗ    ]
[ A       -diag(ρ⁻¹) ]
```

and only its upper triangle is stored. Every diagonal place has a slot, also where
`P` stores nothing, and every stored entry of `P` and `A` has one, also if it is
zero, so that the pattern depends on theirs alone. Beside the matrix, maps record
in which slot each value of `P`, of `A` and of the lower diagonal is. A reordering
moves the matrix and the maps together.
-/

namespace Saddle.Kkt

/-- The blocks whose values can be replaced. -/
inductive Block where
  | p
  | a
deriving Repr, BEq, DecidableEq

/-- What a block is called. -/
def Block.name : Block → String
  | .p => "P"
  | .a => "A"

/-- Why a matrix is not assembled, reordered or given new values. -/
inductive Error where
  /-- One of the blocks, or the matrix, is not what it has to be. -/
  | matrix (cause : Csc.Error)
  /-- No order was obtained. -/
  | ordering (cause : Elimination.Error)
  /-- The constraints are not in as many variables as the quadratic form. -/
  | columnMismatch (expected actual : Nat)
  /-- There is not one regularization for each constraint. -/
  | regularizationLength (expected actual : Nat)
  /-- A block does not store as many values as its map has slots. -/
  | mapLength (block : Block) (expected actual : Nat)
  /-- A value to be replaced is not there. -/
  | changedIndex (block : Block) (index nnz : Nat)
deriving Repr, BEq, DecidableEq

/-- What is reported of a failure. -/
def Error.message : Error → String
  | .matrix cause => cause.message
  | .ordering cause => cause.message
  | .columnMismatch expected actual =>
      s!"A has {actual} columns but P is {expected} x {expected}"
  | .regularizationLength expected actual =>
      s!"regularization has {actual} entries for {expected} constraints"
  | .mapLength block expected actual =>
      s!"{block.name} has {actual} nonzeros but its KKT map has {expected}"
  | .changedIndex block index nnz =>
      s!"{block.name} nonzero index {index} out of range ({nnz} nonzeros)"

/-- The slots of the values that can be replaced. -/
structure SlotMaps where
  /-- The slot of each stored entry of `P`. -/
  p : Array Nat
  /-- The slot of each stored entry of `A`. -/
  a : Array Nat
  /-- The slot of each entry of the lower diagonal. -/
  rho : Array Nat
deriving Repr, BEq, DecidableEq

/-- A saddle point matrix in some order, with its maps if they are kept. -/
structure System (α : Type) where
  /-- The upper triangle of the matrix. -/
  matrix : Csc α
  /-- The slots of the values of its blocks. -/
  maps : Option SlotMaps
deriving Repr, BEq, DecidableEq

variable {α : Type}

/-- Whether there is one regularization for each of `m` constraints. -/
def checkLength (lower : PerConstraint α) (m : Nat) : Except Error Unit :=
  match lower with
  | .uniform _ => .ok ()
  | .each values =>
      if values.size ≠ m then .error (.regularizationLength m values.size) else .ok ()

/-- Whether the blocks are matrices that fit together. -/
def checkBlocks (p a : Csc α) (lower : PerConstraint α) : Checked Error Unit := do
  ExceptT.adapt Error.matrix p.check
  ExceptT.adapt Error.matrix a.check
  ExceptT.adapt Error.matrix p.checkUpper
  if a.ncols ≠ p.ncols then
    throw (.columnMismatch p.ncols a.ncols)
  checkLength lower a.nrows

/-- A cell of `A`, transposed and moved to the right of the cells of `P`. -/
def shift (n : Nat) (c : Cell α) : Cell α := ⟨n + c.row, c.column, c.value⟩

/-- The entries of the lower diagonal, behind `n` variables, for `m` constraints. -/
def lowerDiagonal? [Neg α] (n m : Nat) (lower : PerConstraint α) : Option (List (Cell α)) :=
  (List.range m).mapM fun i => do
    return ⟨n + i, n + i, -(← lower.get? i)⟩

/-- The entries of the upper triangle, and the number of the first one of each block. -/
structure Collection (α : Type) where
  /-- The entries. -/
  entries : Triplets α
  /-- The number of the first entry of `P`. -/
  pStart : Nat
  /-- The number of the first entry of `A`. -/
  aStart : Nat
  /-- The number of the first entry of the lower diagonal. -/
  rhoStart : Nat

/-- Pushes the entries of the upper triangle: first a diagonal of `sigma`, which makes sure that it
is stored, then those of `P`, the transpose of `A` to the right of it, and the lower diagonal. -/
def collect [Neg α] (p a : Csc α) (sigma : α) (lower : PerConstraint α) :
    Checked Csc.Error (Collection α) := do
  let n := p.ncols
  let blank := Triplets.empty (n + a.nrows) (n + a.nrows)
  let diagonal ← blank.pushAll ((List.range n).map fun j => ⟨j, j, sigma⟩)
  let quadratic ← diagonal.pushAll (← p.cells?)
  let constraints ← quadratic.pushAll ((← a.cells?).map (shift n))
  return {
    entries := ← constraints.pushAll (← lowerDiagonal? n a.nrows lower)
    pStart := diagonal.size
    aStart := quadratic.size
    rhoStart := constraints.size }

/-- The maps of a matrix with the given slots of its entries. -/
def Collection.maps? (c : Collection α) (p a : Csc α) (slots : Array Nat) : Option SlotMaps := do
  return {
    p := (← Access.slice slots c.pStart (c.pStart + p.nnz)).toArray
    a := (← Access.slice slots c.aStart (c.aStart + a.nnz)).toArray
    rho := (← Access.slice slots c.rhoStart (c.rhoStart + a.nrows)).toArray }

/-- The maps, if they are to be kept. -/
def Collection.keptMaps? (c : Collection α) (track : Bool) (p a : Csc α) (slots : Array Nat) :
    Option (Option SlotMaps) :=
  if track then (c.maps? p a slots).map some else some none

/-- The saddle point matrix of `P`, given as its upper triangle, and `A`. The maps are kept if
`track` says so. -/
def assemble [Neg α] [Add α] (p a : Csc α) (sigma : α) (lower : PerConstraint α) (track : Bool) :
    Checked Error (System α) := do
  checkBlocks p a lower
  let collection ← ExceptT.adapt Error.matrix (collect p a sigma lower)
  let (matrix, slots) ← collection.entries.build
  return { matrix, maps := ← collection.keptMaps? track p a slots }

/-- Lets every slot follow the entry in it to its new position. -/
def SlotMaps.follow (maps : SlotMaps) (moved : Array Nat) : Option SlotMaps := do
  let p ← maps.p.toList.mapM (moved[·]?)
  let a ← maps.a.toList.mapM (moved[·]?)
  let rho ← maps.rho.toList.mapM (moved[·]?)
  return ⟨p.toArray, a.toArray, rho.toArray⟩

/-- The maps, if they are kept, after the entries have moved. -/
def followAll (maps : Option SlotMaps) (moved : Array Nat) : Option (Option SlotMaps) :=
  match maps with
  | none => some none
  | some maps => (maps.follow moved).map some

/-- The system in the order that the method chooses, and the renumbering that leads there. -/
def System.reorder [Zero α] (s : System α) (method : Elimination.Method) :
    Checked Error (System α × Elimination.Renumbering) := do
  let renumbering ← ExceptT.adapt Error.ordering (Elimination.renumbering method s.matrix)
  let (matrix, moved) ←
    ExceptT.adapt Error.matrix (s.matrix.permuteSymmetric renumbering.newOf)
  let maps ← followAll s.maps moved
  return ({ matrix, maps }, renumbering)

end Saddle.Kkt
