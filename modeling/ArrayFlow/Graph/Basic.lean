import ArrayFlow.Graph.Dependencies
import ArrayFlow.Node
import ArrayFlow.State

/-!
# Graphs

A graph is a list of nodes, each reading only nodes before it (`ordered`),
so the order of the ids is one in which everything can be computed.  Next to
the nodes it stores the edges between them (`wired`).  Nodes can be added
until the first state is made; then the graph is frozen.

* `add` — a new node, refused if the graph is frozen, if the node was made
  from the arrays of another graph, or if it reads a node that is not there;
* `successors` — the nodes that read a node, from the edges.
-/

namespace ArrayFlow

/-- Nodes in an order of computation, and the edges between them. -/
structure Graph where
  /-- Tells a graph from all others. -/
  identity : Nat
  nodes : Array Node
  dependencies : Dependencies
  /-- Whether a state has been made. -/
  frozen : Bool
  /-- A node reads only nodes before it. -/
  ordered : ∀ (id : NodeId) (node : Node), nodes[id]? = some node → ∀ p ∈ node.predecessors, p < id
  size_dependencies : dependencies.size = nodes.size
  /-- There is an edge where a node reads another one. -/
  wired : ∀ (i j : NodeId),
    j ∈ dependencies.readers i ↔ ∃ node, nodes[j]? = some node ∧ i ∈ node.predecessors
  /-- There is no more than one edge between two nodes. -/
  simple : ∀ (i : NodeId), (dependencies.readers i).Nodup

namespace Graph

/-- The graph without nodes. -/
def empty (identity : Nat) : Graph where
  identity := identity
  nodes := #[]
  dependencies := #[]
  frozen := false
  ordered := by simp
  size_dependencies := rfl
  wired := by simp [Dependencies.readers]
  simple := by simp [Dependencies.readers]

/-- The number of nodes. -/
def size (g : Graph) : Nat := g.nodes.size

/-- The graph with one more node, which reads only nodes that are there. -/
def push (g : Graph) (node : Node) (h : ∀ p ∈ node.predecessors, p < g.nodes.size) : Graph where
  identity := g.identity
  nodes := g.nodes.push node
  dependencies := g.dependencies.add node.predecessors
  frozen := g.frozen
  ordered := by
    intro id other hid p hp
    rw [Array.getElem?_push] at hid
    split at hid
    · next heq => cases hid; rw [heq]; exact h p hp
    · exact g.ordered id other hid p hp
  size_dependencies := by
    rw [Dependencies.size_add, Array.size_push, g.size_dependencies]
  wired := by
    intro i j
    rw [Dependencies.mem_readers_add (g.size_dependencies ▸ h), g.wired, g.size_dependencies,
      Array.getElem?_push]
    by_cases hj : j = g.nodes.size
    · simp [hj]
    · simp [hj]
  simple := fun i => Dependencies.nodup_readers_add (g.size_dependencies ▸ h) (g.simple i)

/-- Adds a node and gives its id. -/
def add (node : Node) : EStateM Refusal Graph NodeId := do
  let g ← get
  if g.frozen then throw .graphFrozen
  if node.madeFor?.any (· ≠ g.identity) then throw (.foreignNode node.kind)
  match h : node.predecessors.find? (g.size ≤ ·) with
  | some missing => throw (.unknownNode missing)
  | none =>
    set (g.push node fun p hp =>
      Nat.lt_of_not_le fun hle => List.find?_eq_none.1 h p hp (decide_eq_true hle))
    return g.size

/-- The node with an id. -/
def node (g : Graph) (id : NodeId) : Except Refusal Node :=
  match g.nodes[id]? with
  | some node => .ok node
  | none => .error (.unknownNode id)

/-- What is known of the array with an id. -/
def describe (g : Graph) (id : NodeId) : Except Refusal Description := do
  let node ← g.node id
  match node.description? id with
  | some d => return d
  | none => throw (.notAnArray id node.kind)

/-- The nodes that a node reads, in the order of its terms. -/
def predecessors (g : Graph) (id : NodeId) : Except Refusal (List NodeId) :=
  Node.predecessors <$> g.node id

/-- The nodes that read a node, in the order of their ids. -/
def successors (g : Graph) (id : NodeId) : Except Refusal (List NodeId) :=
  if id < g.size then .ok (Ascending.sorted (g.dependencies.readers id))
  else .error (.unknownNode id)

/-- The selection of an array of the graph by slices and positions. -/
def basicIndexing (g : Graph) (source : NodeId) (selectors : List Selector) :
    Except Failure Node := do
  let d ← liftM (g.describe source)
  return .basic (← BasicIndexing.ofSelectors g.identity source d selectors)

/-- The selection of an array of the graph by index arrays. -/
def advancedIndexing (g : Graph) (source : NodeId) (terms : List IndexTerm) :
    Except Failure Node :=
  .advanced <$> AdvancedIndexing.ofTerms g.identity g.describe source terms

/-- The graph once a state has been made. -/
def freeze (g : Graph) : Graph := { g with frozen := true }

/-- A state without slots, and the graph frozen by it. -/
def emptyState (g : Graph) : State × Graph := (.empty g.identity g.size, g.freeze)

end Graph
end ArrayFlow
