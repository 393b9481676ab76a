import ArrayFlow.Constant
import ArrayFlow.Indexing.Advanced
import ArrayFlow.Indexing.Basic
import ArrayFlow.Variable

/-!
# Nodes

A node of a graph is a constant, a variable, a selection from other nodes,
or a check that watches another node.  All but the check are arrays and have
a description.
-/

namespace ArrayFlow

/-- A node of a graph. -/
inductive Node where
  | constant (c : Constant)
  | leaf (v : Variable)
  | basic (b : BasicIndexing)
  | advanced (a : AdvancedIndexing)
  | validation (watched : NodeId)

namespace Node

/-- The kind of a node. -/
def kind : Node → Kind
  | constant _ => .constant
  | leaf v => v.kind
  | basic _ => .basicIndexing
  | advanced _ => .advancedIndexing
  | validation _ => .arrayValidation

/-- The nodes that a node reads. -/
def predecessors : Node → List NodeId
  | basic b => [b.source]
  | advanced a => a.predecessors
  | validation watched => [watched]
  | _ => []

/-- The graph from whose arrays a node was made, if it was made from any. -/
def madeFor? : Node → Option Nat
  | basic b => some b.graph
  | advanced a => some a.graph
  | _ => none

/-- What is known of a node `id` that is an array. -/
def description? (id : NodeId) : Node → Option Description
  | constant c =>
    some ⟨.static c.extents, c.min, c.max, c.integral, .ofShape id (.static c.extents)⟩
  | leaf v => some (v.description id)
  | basic b => some (b.description id)
  | advanced a => some (a.description id)
  | validation _ => none

end Node
end ArrayFlow
