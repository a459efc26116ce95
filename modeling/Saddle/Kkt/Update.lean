import Saddle.Kkt.Assembly

/-!
# New values on the old pattern

The values of `P`, of `A` and of the lower diagonal are replaced through the maps,
all of them or those that a list of changed entries names. Everything that can be
wrong with the call is found out first: a refused update has written nothing.
-/

namespace Saddle.Kkt

variable {α : Type}

/-- Whether the map has a slot for each of `nnz` values and the changed ones are among them. -/
def checkUpdate (block : Block) (changed : Option (List Nat)) (map : Array Nat) (nnz : Nat) :
    Except Error Unit :=
  if map.size ≠ nnz then .error (.mapLength block map.size nnz)
  else
    match (changed.getD []).find? (nnz ≤ ·) with
    | some index => .error (.changedIndex block index nnz)
    | none => .ok ()

/-- The positions whose values are replaced: those that have changed, or all. -/
def replaced (changed : Option (List Nat)) (nnz : Nat) : List Nat :=
  changed.getD (List.range nnz)

/-- Writes the value of `P` at `position` into its slot, with `sigma` added on the diagonal. -/
def writeP [Add α] (p : Csc α) (map : Array Nat) (sigma : α) (matrix : Csc α) (position : Nat) :
    Option (Csc α) := do
  let column ← p.columnOf position
  let (row, value) ← p.entry? position
  matrix.setValue (← map[position]?) (if row = column then value + sigma else value)

/-- The matrix with the values of `P` at the given positions replaced. -/
def writeAllP [Add α] (p : Csc α) (map : Array Nat) (sigma : α) (matrix : Csc α)
    (positions : List Nat) : Option (Csc α) :=
  positions.foldlM (writeP p map sigma) matrix

/-- The matrix with the values of `P` replaced, if the call fits the map. -/
def updateP [Add α] (matrix p : Csc α) (changed : Option (List Nat)) (map : Array Nat) (sigma : α) :
    Checked Error (Csc α) := do
  checkUpdate .p changed map p.nnz
  writeAllP p map sigma matrix (replaced changed p.nnz)

/-- Writes the value of `A` at `position` into its slot. -/
def writeA (a : Csc α) (map : Array Nat) (matrix : Csc α) (position : Nat) : Option (Csc α) := do
  matrix.setValue (← map[position]?) (← a.vals[position]?)

/-- The matrix with the values of `A` at the given positions replaced. -/
def writeAllA (a : Csc α) (map : Array Nat) (matrix : Csc α) (positions : List Nat) :
    Option (Csc α) :=
  positions.foldlM (writeA a map) matrix

/-- The matrix with the values of `A` replaced, if the call fits the map. -/
def updateA (matrix a : Csc α) (changed : Option (List Nat)) (map : Array Nat) :
    Checked Error (Csc α) := do
  checkUpdate .a changed map a.nnz
  writeAllA a map matrix (replaced changed a.nnz)

/-- Writes the regularization of the constraint whose number comes with the slot. -/
def writeRho [Neg α] (lower : PerConstraint α) (matrix : Csc α) (slot : Nat × Nat) :
    Option (Csc α) := do
  matrix.setValue slot.1 (-(← lower.get? slot.2))

/-- The matrix with the whole lower diagonal replaced. -/
def writeAllRho [Neg α] (lower : PerConstraint α) (map : Array Nat) (matrix : Csc α) :
    Option (Csc α) :=
  map.toList.zipIdx.foldlM (writeRho lower) matrix

/-- The matrix with the lower diagonal replaced, if there is one regularization for each slot. -/
def updateRho [Neg α] (matrix : Csc α) (lower : PerConstraint α) (map : Array Nat) :
    Checked Error (Csc α) := do
  checkLength lower map.size
  writeAllRho lower map matrix

end Saddle.Kkt
