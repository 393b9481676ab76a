import ArrayFlow.Journal
import ArrayFlow.Refusal

/-!
# Row variables

An array whose leading axis grows and shrinks by whole rows, between
`minRows` and `maxRows` of them, with elements in `[lower, upper]`, whole
ones if it is integral.
-/

namespace ArrayFlow

namespace RowVariable

/-- Whether no number lies in `[lower, upper]`, or no whole number if whole
ones are asked for. -/
def domainEmpty (lower upper : Binary64) (integral : Bool) : Bool :=
  lower.isNaN || upper.isNaN ||
    if integral then decide (upper.floor < lower.ceil) else decide (upper < lower)

end RowVariable

/-- An array of rows of numbers in `[lower, upper]`. -/
structure RowVariable where
  trailing : List Nat
  lower : Binary64
  upper : Binary64
  integral : Bool
  minRows : Nat
  /-- No limit if absent. -/
  maxRows : Option Nat
  domain_nonempty : RowVariable.domainEmpty lower upper integral = false
  minRows_le : ∀ m ∈ maxRows, minRows ≤ m

namespace RowVariable

/-- The variable with rows of the given extents and elements, and any number
of rows. -/
def ofDomain (trailing : List Nat) (lower upper : Binary64) (integral : Bool) :
    Except Refusal RowVariable :=
  if h : domainEmpty lower upper integral = false then
    .ok ⟨trailing, lower, upper, integral, 0, none, h, nofun⟩
  else .error (.emptyDomain lower upper)

/-- The same variable with limits on the number of rows. -/
def withRows (v : RowVariable) (minRows : Nat) : Option Nat → Except Refusal RowVariable
  | none => .ok { v with minRows := minRows, maxRows := none, minRows_le := nofun }
  | some m =>
    if h : minRows ≤ m then
      .ok { v with minRows := minRows, maxRows := some m, minRows_le := by simpa using h }
    else .error (.sizeOutOfBounds minRows minRows m)

/-- The shape of the rows. -/
def shape (v : RowVariable) : Shape := .dynamic v.trailing

/-- The number of elements of a row. -/
def countRow (v : RowVariable) : Except Fault Nat := v.shape.countRow

/-- The admitted value nearest to zero. -/
def nearestToZero (v : RowVariable) : Binary64 :=
  let x := Binary64.clamp .zero v.lower v.upper
  if v.integral then Binary64.min x.ceil v.upper.floor else x

/-- The rows of a variable that nobody has seeded, if there is room for
them. -/
def defaults (v : RowVariable) : Except Fault (Journal Binary64) := do
  let size ← word (v.minRows * (← v.countRow))
  checkRoom size
  return .ofArray (Array.replicate size v.nearestToZero)

/-- Whether an element may have the value `x`. -/
def admits (v : RowVariable) (x : Binary64) : Bool :=
  !x.isNaN && !decide (x < v.lower) && !decide (v.upper < x) && (!v.integral || x.isWhole)

/-- Refuses a value that no element may have. -/
def checkValue (v : RowVariable) (x : Binary64) : Except Refusal Unit :=
  if v.admits x then .ok () else .error (.valueOutOfBounds x v.lower v.upper)

/-- Refuses a number of rows outside the limits. -/
def checkRows (v : RowVariable) (rows : Nat) : Except Refusal Unit :=
  let max := v.maxRows.getD maxSize
  if rows < v.minRows ∨ max < rows then .error (.sizeOutOfBounds rows v.minRows max) else .ok ()

/-- How many rows some number of elements fills.  Rows without elements are
never counted, and elements that fill no whole row are refused. -/
def rowsOf (v : RowVariable) (length : Nat) : Except Failure Nat := do
  let row ← v.countRow
  if row = 0 then return 0
  if length % row = 0 then return length / row
  let expected ← word ((length / row + 1) * row)
  throw (.refused (.shapeMismatch expected length))

/-- Inserts explicit elements. -/
def seed {σ : Type} (v : RowVariable) (values : List Binary64)
    (insert : Journal Binary64 → EStateM Failure σ Unit) : EStateM Failure σ Unit := do
  v.checkRows (← v.rowsOf values.length)
  (values.forM v.checkValue : Except Refusal Unit)
  insert (.ofArray values.toArray)

/-- An edit of the rows. -/
inductive Edit where
  | set (i : Nat) (x : Binary64)
  | grow (values : List Binary64)
  | shrink
  deriving DecidableEq

/-- Edits the rows.  Refused if a position does not exist, a value is not
admitted, or the rows would leave their limits.  Elements are put at the end,
or taken from there, one by one. -/
def edit (v : RowVariable) : Edit → EStateM Failure (Journal Binary64) Unit
  | .set i x => do
    v.checkValue x
    let size := (← get).size
    if size ≤ i then throw (.refused (.indexOutOfBounds (signedWord i) size))
    modify (·.set i x)
  | .grow values => do
    let added ← v.rowsOf values.length
    (values.forM v.checkValue : Except Refusal Unit)
    let rows ← v.rowsOf (← get).size
    v.checkRows (← word (rows + added))
    values.forM fun x => modify (·.push x)
  | .shrink => do
    let row ← v.countRow
    let rows ← v.rowsOf (← get).size
    if rows = 0 then throw (.refused (.sizeOutOfBounds 0 v.minRows (v.maxRows.getD maxSize)))
    v.checkRows (rows - 1)
    (List.range row).forM fun _ => modify (·.pop)

end RowVariable
end ArrayFlow
