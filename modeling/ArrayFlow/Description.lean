import ArrayFlow.Binary64.Basic
import ArrayFlow.Fault
import ArrayFlow.Shape

/-!
# What is known of an array in every state

A description holds what does not depend on a state: the shape, bounds that
every element keeps, whether all elements are whole, and the span of the row
count.  The rows of a dynamic array follow those of its **origin**: two
dynamic arrays of one shape and one origin always have the same size.
-/

namespace ArrayFlow

/-- Whose rows an array has, and between which limits their number stays. -/
structure RowSpan where
  origin : NodeId
  minRows : Nat
  /-- No limit if absent. -/
  maxRows : Option Nat
  deriving DecidableEq

namespace RowSpan

/-- The span of an array of fixed shape, which is its own origin. -/
def ofShape (id : NodeId) (shape : Shape) : RowSpan :=
  let rows := shape.leadingExtent?.getD 1
  ⟨id, rows, some rows⟩

end RowSpan

/-- What is known of an array in every state. -/
structure Description where
  shape : Shape
  min : Binary64
  max : Binary64
  integral : Bool
  rows : RowSpan
  deriving DecidableEq

end ArrayFlow
