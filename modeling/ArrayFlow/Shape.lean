import ArrayFlow.RowMajor

/-!
# Shapes

The shape of an array is either **static**, a list of extents, or
**dynamic**: its leading axis grows and shrinks over fixed trailing extents,
so its elements come in rows.  A dynamic axis anywhere else has no shape
(`ofDims?`).

Index arrays are combined by the rule of `broadcast`: they have one shape in
common, and arrays without axes fit any shape.
-/

namespace ArrayFlow

/-- One axis of a shape as it is written down. -/
inductive Dim where
  | fixed (extent : Nat)
  | dynamic
  deriving DecidableEq

namespace Dim

/-- The extent of a fixed axis, and `n` in place of a dynamic one. -/
def extentOr (n : Nat) : Dim → Nat
  | fixed m => m
  | dynamic => n

/-- The extents of some axes if all of them are fixed. -/
def extents? : List Dim → Option (List Nat)
  | [] => some []
  | fixed n :: ds => (extents? ds).map (n :: ·)
  | dynamic :: _ => none

@[simp] theorem extents?_map_fixed (ns : List Nat) : extents? (ns.map fixed) = some ns := by
  induction ns with
  | nil => rfl
  | cons n ns ih => simp [extents?, ih]

/-- A fixed axis shows its extent and a dynamic one `-1`. -/
def text : Dim → String
  | fixed n => toString n
  | dynamic => "-1"

end Dim

/-- The shape of an array. -/
inductive Shape where
  | static (extents : List Nat)
  | dynamic (trailing : List Nat)
  deriving DecidableEq

namespace Shape

/-- The shape of a single number. -/
def scalar : Shape := static []

/-- The axes of a shape. -/
def dims : Shape → List Dim
  | static extents => extents.map .fixed
  | dynamic trailing => .dynamic :: trailing.map .fixed

/-- The shape with the given axes.  Only the leading one may be dynamic. -/
def ofDims? : List Dim → Option Shape
  | .dynamic :: rest => (Dim.extents? rest).map dynamic
  | axes => (Dim.extents? axes).map static

/-- The number of axes. -/
def rank : Shape → Nat
  | static extents => extents.length
  | dynamic trailing => trailing.length + 1

/-- Whether the leading axis grows. -/
def isDynamic : Shape → Bool
  | static _ => false
  | dynamic _ => true

/-- The number of elements, where the shape fixes it. -/
def count : Shape → Except Fault (Option Nat)
  | static extents => some <$> RowMajor.count extents
  | dynamic _ => .ok none

/-- The extents behind the leading axis. -/
def trailing : Shape → List Nat
  | static extents => extents.tail
  | dynamic trailing => trailing

/-- The number of elements per position of the leading axis; 1 if there is
no other axis. -/
def countRow (shape : Shape) : Except Fault Nat := RowMajor.count shape.trailing

/-- The extent of the leading axis where it is fixed, 1 for a single number. -/
def leadingExtent? : Shape → Option Nat
  | static [] => some 1
  | static (n :: _) => some n
  | dynamic _ => none

/-- The extents of an array of this shape that holds `size` elements.  Rows
without elements cannot be counted, and there are none.  The elements of a
row are counted whether there are rows to be counted or not. -/
def resolve (shape : Shape) (size : Nat) : Except Fault (List Nat) := do
  let row ← shape.countRow
  match shape with
  | static extents => return extents
  | dynamic trailing => return size / row :: trailing

/-- The stride of each axis; the number of rows has no part in them. -/
def strides (shape : Shape) : Except Fault (List Nat) := do
  RowMajor.strides (← shape.resolve 0)

/-- The text of a shape: its axes in parentheses, a single one with a comma
after it. -/
def text (shape : Shape) : String :=
  match shape.dims with
  | [d] => "(" ++ d.text ++ ",)"
  | ds => "(" ++ ", ".intercalate (ds.map Dim.text) ++ ")"

/-- The common shape of two index arrays: either is without axes, or they
are equal. -/
def meet (common shape : Shape) : Except (Shape × Shape) Shape :=
  if common.rank = 0 then .ok shape
  else if shape.rank = 0 ∨ common = shape then .ok common
  else .error (common, shape)

/-- The common shape of some index arrays, none if there are no arrays; or
the first pair that does not fit. -/
def broadcast : List Shape → Except (Shape × Shape) (Option Shape)
  | [] => .ok none
  | s :: rest => (rest.foldlM meet s).map some

/-- A shape is the only one with its axes. -/
@[simp] theorem ofDims?_dims (s : Shape) : ofDims? s.dims = some s := by
  cases s with
  | static ns => cases ns <;> simp [dims, ofDims?, Dim.extents?]
  | dynamic ns => simp [dims, ofDims?]

@[simp] theorem length_dims (s : Shape) : s.dims.length = s.rank := by
  cases s <;> simp [dims, rank]

end Shape
end ArrayFlow
