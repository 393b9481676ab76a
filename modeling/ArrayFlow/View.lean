import ArrayFlow.Fault
import ArrayFlow.RowMajor

/-!
# Views

A view reads the elements of an array out of a buffer, with an offset and a
stride per axis, and copies nothing.  The element at coordinates `c` lies at
`offset + Σ c * stride`.  A view whose strides are the row-major ones of its
extents is **contiguous**: its elements follow one another from the offset
on, and it is read without taking positions apart.  An axis with at most one
position does not count for that, and a view without elements is contiguous.
A stride can be negative, so it is read as a signed word.

Making a view of a view, counting its elements and finding their places is
arithmetic on words, and any of it can overflow.
-/

namespace ArrayFlow

/-- A strided view of a buffer. -/
structure View where
  data : Array Binary64
  offset : Nat
  extents : List Nat
  strides : List Int
  contiguous : Bool

namespace View

/-- The whole of a buffer in row-major order. -/
def layOut (data : Array Binary64) (extents : List Nat) : Except Fault View := do
  let strides ← RowMajor.strides extents
  return ⟨data, 0, extents, strides.map signedWord, true⟩

/-- Whether strides put the elements of an array one after the other.  Without
elements they do, and their row-major strides are not asked for. -/
def runsOn (extents : List Nat) (strides : List Int) : Except Fault Bool :=
  if extents.contains 0 then .ok true
  else do
    let forward ← RowMajor.strides extents
    return (extents.zip (forward.zip strides)).all fun (n, c, s) => n ≤ 1 || signedWord c == s

/-- Another view of the same buffer that starts `offset` further on.  It may
start before the buffer only if it has no elements. -/
def restride (v : View) (offset : Int) (extents : List Nat) (strides : List Int) :
    Except Fault View := do
  let start ← signed (signedWord v.offset + offset)
  if start < 0 ∧ !extents.contains 0 then throw .negativeStart
  return ⟨v.data, start.toNat, extents, strides, ← runsOn extents strides⟩

/-- The number of elements. -/
def count (v : View) : Except Fault Nat := RowMajor.count v.extents

/-- Where in the buffer the element at a flat position lies.  A place with a
negative number is no place of any buffer. -/
def place (v : View) (flat : Nat) : Except Fault Int :=
  if v.contiguous then do
    let place ← word (v.offset + flat)
    return place
  else do
    let distance ← RowMajor.advance 0 (RowMajor.coordinates v.extents flat) v.strides
    signed (signedWord v.offset + distance)

/-- The element at a place of the buffer. -/
def fetch (v : View) (place : Int) : Except Fault Binary64 :=
  if 0 ≤ place then
    match v.data[place.toNat]? with
    | some x => .ok x
    | none => .error .noPosition
  else .error .noPosition

/-- The element at a flat position. -/
def get (v : View) (flat : Nat) : Except Fault Binary64 := do
  let size ← v.count
  if flat < size then v.fetch (← v.place flat) else throw (.flatIndex flat size)

/-- The `count` elements from `flat` on, read one by one; the first that is
missing ends the walk. -/
def elementsFrom (v : View) (flat : Nat) : Nat → Except Fault (List Binary64)
  | 0 => .ok []
  | count + 1 => do
    let x ← v.get flat
    let xs ← v.elementsFrom (flat + 1) count
    return x :: xs

/-- The elements in row-major order, read one by one. -/
def elements (v : View) : Except Fault (List Binary64) := do
  v.elementsFrom 0 (← v.count)

/-- The elements in row-major order; those of a contiguous view are taken
out of the buffer in one piece. -/
def toList (v : View) : Except Fault (List Binary64) := do
  let size ← v.count
  if size = 0 then return []
  else if v.contiguous then
    let stop ← word (v.offset + size)
    if stop ≤ v.data.size then return (v.data.extract v.offset stop).toList
    else throw .noPosition
  else v.elements

/-- Whether the elements from `flat` on are equal, one by one, to the given
numbers; the first difference decides, and nothing after it is read. -/
def agreesFrom (v : View) (flat : Nat) : List Binary64 → Except Fault Bool
  | [] => .ok true
  | x :: xs => do
    if (← v.get flat) == x then v.agreesFrom (flat + 1) xs else return false

/-- Whether a view shows as many elements as there are numbers, and equal
ones. -/
def equals (v : View) (xs : List Binary64) : Except Fault Bool := do
  if (← v.count) = xs.length then v.agreesFrom 0 xs else return false

/-- Reading one by one is reading at each flat position in turn. -/
theorem elementsFrom_eq_mapM (v : View) (flat count : Nat) :
    v.elementsFrom flat count = (List.range' flat count).mapM v.get := by
  induction count generalizing flat with
  | zero => rfl
  | succ n ih => simp [elementsFrom, List.range'_succ, ih]

end View
end ArrayFlow
