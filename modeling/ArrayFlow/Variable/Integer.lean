import ArrayFlow.Journal
import ArrayFlow.Refusal

/-!
# Integer variables

An array of fixed shape whose elements are whole numbers between two 64-bit
bounds.  The bounds are compared after rounding to binary64.
-/

namespace ArrayFlow

/-- An array of whole numbers in `[lower, upper]`. -/
structure IntegerVariable where
  extents : List Nat
  lower : Int
  upper : Int
  lower_le_upper : lower ≤ upper

namespace IntegerVariable

/-- The lower bound where none is given. -/
def defaultLower : Int := 0

/-- The upper bound where none is given. -/
def defaultUpper : Int := 2000000000

/-- The variable with the given extents and bounds. -/
def ofBounds (extents : List Nat) (lower upper : Int) : Except Refusal IntegerVariable :=
  if h : lower ≤ upper then .ok ⟨extents, lower, upper, h⟩
  else .error (.boundsCrossed lower upper)

/-- The number of elements. -/
def count (v : IntegerVariable) : Except Fault Nat := RowMajor.count v.extents

/-- The lower bound of every element. -/
def min (v : IntegerVariable) : Binary64 := .ofInt v.lower

/-- The upper bound of every element. -/
def max (v : IntegerVariable) : Binary64 := .ofInt v.upper

/-- The integer within the bounds that is nearest to zero. -/
def nearestToZero (v : IntegerVariable) : Int :=
  if 0 < v.lower then v.lower else if v.upper < 0 then v.upper else 0

/-- The values of a variable that nobody has seeded, if there is room for
them. -/
def defaults (v : IntegerVariable) : Except Fault (Journal Binary64) := do
  let size ← v.count
  checkRoom size
  return .ofArray (Array.replicate size (.ofInt v.nearestToZero))

/-- Whether an element may have the value `x`. -/
def admits (v : IntegerVariable) (x : Binary64) : Bool :=
  x.isWhole && !decide (x < v.min) && !decide (v.max < x)

/-- Refuses a value that no element may have. -/
def checkValue (v : IntegerVariable) (x : Binary64) : Except Refusal Unit :=
  if v.admits x then .ok () else .error (.valueOutOfBounds x v.min v.max)

/-- Refuses a position that does not exist. -/
def checkIndex (v : IntegerVariable) (i : Nat) : Except Failure Unit := do
  let size ← v.count
  if i < size then return () else throw (.refused (.indexOutOfBounds (signedWord i) size))

/-- Inserts explicit values. -/
def seed {σ : Type} (v : IntegerVariable) (values : List Binary64)
    (insert : Journal Binary64 → EStateM Failure σ Unit) : EStateM Failure σ Unit := do
  let size ← v.count
  if values.length ≠ size then throw (.refused (.shapeMismatch size values.length))
  (values.forM v.checkValue : Except Refusal Unit)
  insert (.ofArray values.toArray)

/-- An edit of the values. -/
inductive Edit where
  | set (i : Nat) (x : Binary64)
  | exchange (i k : Nat)
  deriving DecidableEq

/-- Edits the values.  Refused if a position does not exist or the value is
not admitted. -/
def edit (v : IntegerVariable) : Edit → EStateM Failure (Journal Binary64) Unit
  | .set i x => do
    v.checkIndex i
    v.checkValue x
    modify (·.set i x)
  | .exchange i k => do
    v.checkIndex i
    v.checkIndex k
    modify (·.exchange i k)

end IntegerVariable
end ArrayFlow
