import ArrayFlow.Refusal

/-!
# Constants

A constant is an array of fixed values.  Its declared bounds are its least
and its greatest value, NaN left out; an array without values is bounded by
zero.
-/

namespace ArrayFlow

/-- An array of fixed values in row-major order. -/
structure Constant where
  extents : List Nat
  values : Array Binary64
  size_values : values.size = RowMajor.size extents

namespace Constant

/-- The values along a single axis. -/
def ofArray (values : Array Binary64) : Constant := ⟨[values.size], values, by simp [RowMajor.size]⟩

/-- The numbers `0, 1, …, n - 1`, if there is room for them. -/
def range (n : Nat) : Except Fault Constant := do
  checkRoom n
  return ofArray ((Array.range n).map .ofNat)

/-- A single number. -/
def scalar (value : Binary64) : Constant := ⟨[], #[value], rfl⟩

/-- The values under a shape.  A constant cannot be dynamic, and it has
exactly as many values as its shape has elements. -/
def ofShape (values : Array Binary64) (shape : Shape) : Except Failure Constant := do
  match shape with
  | .dynamic trailing => throw (.refused (.dynamicConstant (.dynamic trailing)))
  | .static extents =>
    match counted : RowMajor.count extents with
    | .error f => throw (.fault f)
    | .ok size =>
      if h : values.size = size then
        return ⟨extents, values, h.trans (RowMajor.size_eq_of_count counted).symm⟩
      else throw (.refused (.shapeMismatch size values.size))

/-- The least value. -/
def min (c : Constant) : Binary64 :=
  if c.values.isEmpty then .zero else c.values.foldl Binary64.min (.infinity false)

/-- The greatest value. -/
def max (c : Constant) : Binary64 :=
  if c.values.isEmpty then .zero else c.values.foldl Binary64.max (.infinity true)

/-- Whether all values are whole. -/
def integral (c : Constant) : Bool := c.values.all Binary64.isWhole

end Constant
end ArrayFlow
