import ArrayFlow.Fault
import ArrayFlow.Shape
import ArrayFlow.Slice

/-!
# Refusals

A request that breaks a rule of the library is refused before anything is
changed.  Each rule has its own cause, and `Refusal.message` is the text that
goes with it.  A computation can fail in two ways (`Failure`): its request is
refused, or it runs into a fault.

That nothing is changed is not said by the types.  A request that changes
something is a computation on a state (`EStateM`), which a failure leaves as
it has come to be by then.
-/

namespace ArrayFlow

/-- The kinds of nodes. -/
inductive Kind where
  | constant
  | integer
  | list
  | dynamicArray
  | basicIndexing
  | advancedIndexing
  | arrayValidation
  deriving DecidableEq

/-- The name of a kind. -/
def Kind.text : Kind → String
  | constant => "Constant"
  | integer => "Integer"
  | list => "List"
  | dynamicArray => "DynamicArray"
  | basicIndexing => "BasicIndexing"
  | advancedIndexing => "AdvancedIndexing"
  | arrayValidation => "ArrayValidation"

/-- The rule that a request breaks. -/
inductive Refusal where
  /-- The number of values is not the number of elements. -/
  | shapeMismatch (expected actual : Nat)
  /-- An axis behind the leading one is dynamic. -/
  | dynamicBehindLeading
  | wrongNumberOfIndices (expected actual : Nat)
  | indexOutOfBounds (index : Int) (extent : Nat)
  | zeroStep (axis : Nat)
  | nonIntegralIndexer (node : NodeId) (axis : Nat)
  | indexerOutOfRange (node : NodeId) (axis : Nat) (min max : Binary64) (extent : Nat)
  /-- Two index arrays have different shapes. -/
  | shapesDiffer (left right : Shape)
  /-- Two index arrays of one dynamic shape take their rows from different nodes. -/
  | originsDiffer (left : Shape) (leftOrigin : NodeId) (right : Shape) (rightOrigin : NodeId)
  | multipleMultiDimIndexers (count : Nat)
  | noIndexers
  | separatedIndexers
  | multiDimIndexerAfterSlice
  | dynamicIndexerAfterSlice
  | dynamicOutputBehindLeading
  | dynamicConstant (shape : Shape)
  | dynamicAxisSelected (selector : Selector)
  | unknownNode (node : NodeId)
  /-- The node was made from the nodes of another graph. -/
  | foreignNode (kind : Kind)
  | graphFrozen
  | stateMismatch
  | notInitialized (node : NodeId)
  | alreadyInitialized (node : NodeId)
  | valueOutOfBounds (value min max : Binary64)
  | sizeOutOfBounds (size min max : Nat)
  | boundsCrossed (lower upper : Int)
  | notAnArray (node : NodeId) (kind : Kind)
  | fixedSize (node : NodeId)
  | emptyDomain (lower upper : Binary64)
  deriving DecidableEq

namespace Refusal

/-- The text of a refusal. -/
def message : Refusal → String
  | shapeMismatch expected actual =>
    s!"shape mismatch: expected {expected} elements, got {actual}"
  | dynamicBehindLeading => "invalid shape: only the leading dimension may be dynamic"
  | wrongNumberOfIndices expected actual =>
    s!"wrong number of indices: expected {expected}, got {actual}"
  | indexOutOfBounds index extent =>
    s!"index out of bounds: index {index} is out of range for dimension {extent}"
  | zeroStep axis => s!"invalid slice on axis {axis}: slice step cannot be zero"
  | nonIntegralIndexer node axis =>
    "indexer " ++ nodeText node ++ s!" for axis {axis} is not integral"
  | indexerOutOfRange node axis min max extent =>
    "indexer " ++ nodeText node ++ s!" for axis {axis} has range [" ++ min.text ++ ", " ++
      max.text ++ s!"], axis admits [0, {extent})"
  | shapesDiffer left right =>
    "index arrays cannot be broadcast together: " ++ left.text ++ " vs " ++ right.text
  | originsDiffer left leftOrigin right rightOrigin =>
    "index arrays cannot be broadcast together: " ++ left.text ++ " sized by " ++
      nodeText leftOrigin ++ " vs " ++ right.text ++ " sized by " ++ nodeText rightOrigin
  | multipleMultiDimIndexers count =>
    s!"at most one multi-dimensional index array is supported, got {count}"
  | noIndexers => "unsupported indexing: no index arrays given, use basic indexing"
  | separatedIndexers =>
    "unsupported indexing: index arrays separated by a slice must start at the first axis"
  | multiDimIndexerAfterSlice =>
    "unsupported indexing: a multi-dimensional index array cannot follow a slice"
  | dynamicIndexerAfterSlice =>
    "unsupported indexing: dynamic index arrays must not follow a slice"
  | dynamicOutputBehindLeading =>
    "unsupported indexing: the output would have a non-leading dynamic dimension"
  | dynamicConstant shape => "dynamic array not allowed: constant with shape " ++ shape.text
  | dynamicAxisSelected selector =>
    "dynamic array not allowed: only a full slice can index a dynamic axis, got " ++ selector.text
  | unknownNode node => "unknown node " ++ nodeText node
  | foreignNode kind => kind.text ++ " node was validated against another graph"
  | graphFrozen => "graph is frozen: nodes cannot be added once a state exists"
  | stateMismatch => "state does not belong to this graph"
  | notInitialized node => "node " ++ nodeText node ++ " is not initialized in this state"
  | alreadyInitialized node => "node " ++ nodeText node ++ " is already initialized in this state"
  | valueOutOfBounds value min max =>
    "value " ++ value.text ++ " out of bounds [" ++ min.text ++ ", " ++ max.text ++ "]"
  | sizeOutOfBounds size min max => s!"size {size} out of bounds [{min}, {max}]"
  | boundsCrossed lower upper =>
    s!"invalid operation: lower bound {lower} exceeds upper bound {upper}"
  | notAnArray node kind =>
    "invalid operation: node " ++ nodeText node ++ " (" ++ kind.text ++ ") is not an array"
  | fixedSize node => "invalid operation: list " ++ nodeText node ++ " has a fixed size"
  | emptyDomain lower upper =>
    "invalid operation: empty value domain [" ++ lower.text ++ ", " ++ upper.text ++ "]"

end Refusal

/-- How a computation fails. -/
inductive Failure where
  | refused (cause : Refusal)
  | fault (cause : Fault)
  deriving DecidableEq

instance : MonadLift (Except Refusal) (Except Failure) := ⟨Except.mapError .refused⟩

instance : MonadLift (Except Fault) (Except Failure) := ⟨Except.mapError .fault⟩

instance {σ : Type} : MonadLift (Except Failure) (EStateM Failure σ) where
  monadLift
    | .ok a => pure a
    | .error e => throw e

instance {σ : Type} : MonadLift (Except Refusal) (EStateM Failure σ) where
  monadLift
    | .ok a => pure a
    | .error e => throw (.refused e)

instance {σ : Type} : MonadLift (Except Fault) (EStateM Failure σ) where
  monadLift
    | .ok a => pure a
    | .error e => throw (.fault e)

/-- What a computation on a part leaves of the whole, into which `put` puts the
part: as much of the part as was written, however the computation ends. -/
def putBack {ε σ τ α : Type} (put : σ → τ) : EStateM.Result ε σ α → EStateM.Result ε τ α
  | .ok a part => .ok a (put part)
  | .error e part => .error e (put part)

end ArrayFlow
