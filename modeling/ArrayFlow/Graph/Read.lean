import ArrayFlow.Graph.Basic

/-!
# Reading the arrays of a state

The array of a node is read through a view.  A basic selection looks through
its source, so a view is found by walking down a chain of selections; each
link leads to a smaller id, and a walk from `id` ends within `id + 1` links.

The functions on a node of a state (`viewAt`, `diffAt`, `sizeAt`, …) take for
granted that the node is an array with a slot.  The queries (`view`, `diff`,
`sizeIn`, …) ask first and refuse what cannot be answered.
-/

namespace ArrayFlow
namespace Graph

/-- A node, where the caller knows that there is one. -/
def nodeAt (g : Graph) (id : NodeId) : Except Fault Node :=
  match g.nodes[id]? with
  | some node => .ok node
  | none => .error .noPosition

/-- What is known of an array, where the caller relies on there being one. -/
def descriptionAt (g : Graph) (id : NodeId) : Except Fault Description := do
  let node ← g.nodeAt id
  match node.description? id with
  | some d => return d
  | none => throw (.notAnArray id)

/-- All elements of a buffer under a shape. -/
def bufferView (shape : Shape) (values : Array Binary64) : Except Fault View := do
  View.layOut values (← shape.resolve values.size)

/-- The view of an array, along at most `links` links of a chain of basic
selections. -/
def viewWithin (g : Graph) (s : State) : Nat → NodeId → Except Fault View
  | 0, _ => .error .noPosition
  | links + 1, id => do
    match ← g.nodeAt id with
    | .constant c => View.layOut c.values c.extents
    | .leaf v => bufferView (v.description id).shape (← s.contents id).elements.values
    | .basic b => b.view (← g.viewWithin s links b.source)
    | .advanced a => bufferView a.shape (← s.gathered id).values.values
    | .validation _ => throw (.notAnArray id)

/-- The view of an array in a state. -/
def viewAt (g : Graph) (s : State) (id : NodeId) : Except Fault View :=
  g.viewWithin s (id + 1) id

/-- The change in size of an array since the last commit, along at most
`links` links of a chain of basic selections. -/
def sizeDiffWithin (g : Graph) (s : State) : Nat → NodeId → Except Fault Int
  | 0, _ => .error .noPosition
  | links + 1, id => do
    match ← g.nodeAt id with
    | .constant _ => return 0
    | .leaf v => return v.sizeDiff (← s.contents id)
    | .basic b =>
      if b.resizes then b.sizeDiff (← g.sizeDiffWithin s links b.source) else return 0
    | .advanced _ => return (← s.gathered id).values.sizeDiff
    | .validation _ => throw (.notAnArray id)

/-- The change in size of an array since the last commit. -/
def sizeDiffAt (g : Graph) (s : State) (id : NodeId) : Except Fault Int :=
  g.sizeDiffWithin s (id + 1) id

/-- The pending changes of an array, oldest first. -/
def diffAt (g : Graph) (s : State) (id : NodeId) : Except Fault (List (Update Binary64)) := do
  match ← g.nodeAt id with
  | .constant _ => return []
  | .leaf _ => return (← s.contents id).elements.diff
  | .basic _ => s.translated id
  | .advanced _ => return (← s.gathered id).values.diff
  | .validation _ => throw (.notAnArray id)

/-- The number of elements of an array: what its shape says, or what there
is to see if it is dynamic. -/
def sizeAt (g : Graph) (s : State) (id : NodeId) : Except Fault Nat := do
  match ← (← g.descriptionAt id).shape.count with
  | some n => return n
  | none => (← g.viewAt s id).count

/-- The extents of an array, from its shape and its number of elements. -/
def extentsAt (g : Graph) (s : State) (id : NodeId) : Except Fault (List Nat) := do
  (← g.descriptionAt id).shape.resolve (← g.sizeAt s id)

/-- Refuses a state that was not made for this graph. -/
def checkState (g : Graph) (s : State) : Except Refusal Unit :=
  if s.graph = g.identity ∧ s.size = g.size then .ok () else .error .stateMismatch

/-- Refuses a node that is not there or has no slot. -/
def checkReady (g : Graph) (s : State) (id : NodeId) : Except Refusal Unit := do
  g.checkState s
  if g.size ≤ id then throw (.unknownNode id)
  if !s.isInitialized id then throw (.notInitialized id)

/-- Refuses a node that is no array or cannot be read in the state. -/
def checkReadable (g : Graph) (s : State) (id : NodeId) : Except Refusal Unit := do
  let _ ← g.describe id
  g.checkReady s id

/-- The view of an array in a state. -/
def view (g : Graph) (s : State) (id : NodeId) : Except Failure View := do
  g.checkReadable s id
  g.viewAt s id

/-- The pending changes of an array, oldest first. -/
def diff (g : Graph) (s : State) (id : NodeId) : Except Failure (List (Update Binary64)) := do
  g.checkReadable s id
  g.diffAt s id

/-- The number of elements of an array in a state. -/
def sizeIn (g : Graph) (s : State) (id : NodeId) : Except Failure Nat := do
  g.checkReadable s id
  g.sizeAt s id

/-- The extents of an array in a state. -/
def extentsIn (g : Graph) (s : State) (id : NodeId) : Except Failure (List Nat) := do
  g.checkReadable s id
  g.extentsAt s id

/-- The change in size of an array since the last commit. -/
def sizeDiff (g : Graph) (s : State) (id : NodeId) : Except Failure Int := do
  g.checkReadable s id
  g.sizeDiffAt s id

/-- The nodes that have to be computed anew when some nodes of a state have
changed: those nodes and all that depend on them, in the order of their ids.
They are searched for from one source after the other. -/
def descendants (g : Graph) (s : State) (sources : List NodeId) : Except Refusal (List NodeId) := do
  g.checkState s
  let reached ← sources.foldlM (fun reached i =>
    if i < g.size then .ok (g.dependencies.explore g.size [i] reached)
    else .error (.unknownNode i)) []
  return Ascending.sorted reached

end Graph
end ArrayFlow
