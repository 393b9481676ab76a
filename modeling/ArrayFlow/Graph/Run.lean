import ArrayFlow.Graph.Validation

/-!
# Running a state

Every slot is made by `defaultSlot` and then kept up by three steps:

* `propagateSlot` brings it up to date with the pending changes of the nodes
  it reads;
* `commitSlot` makes the pending changes the committed ones;
* `revertSlot` takes them back.

A step that finds the slot of another kind of node fails.

A bulk call takes the step for a set of nodes in the order of their ids.  It
first asks whether all of them are ready and then changes one slot after the
other, so a refused call leaves the state as it was.
-/

namespace ArrayFlow

/-- A computation that changes a state, or fails. -/
abbrev Change := EStateM Failure State

namespace Graph

/-- The number of rows of the source of an advanced selection that keeps its
dynamic axis whole. -/
def sourceRows (g : Graph) (s : State) (a : AdvancedIndexing) : Except Fault Nat :=
  if a.pre.any (·.dim == .dynamic) then do
    let size ← g.sizeAt s a.source
    let row ← a.sourceDescription.shape.countRow
    return size / row
  else .ok 0

/-- The number of values of the index arrays of an advanced selection; arrays
without axes count for one. -/
def indexValues (g : Graph) (s : State) (a : AdvancedIndexing) : Except Fault Nat := do
  match ← a.broadcast.count, a.indexers.find? (!·.scalar) with
  | some n, _ => return n
  | none, some ix => g.sizeAt s ix.node
  | none, none => return 1

/-- The blocks of an advanced selection in a state. -/
def blocksOf (g : Graph) (s : State) (a : AdvancedIndexing) : Except Fault Blocks := do
  let rows ← g.sourceRows s a
  let values ← g.indexValues s a
  a.blocks rows values

/-- The views of the index arrays of an advanced selection. -/
def indexerViews (g : Graph) (s : State) (a : AdvancedIndexing) : Except Fault (List View) :=
  a.indexers.mapM (g.viewAt s ·.node)

/-- The slot of a node that nobody has seeded, once the nodes it reads have
slots. -/
def defaultSlot (g : Graph) (s : State) : Node → Except Fault Slot
  | .constant _ => return .constant
  | .leaf v => .contents <$> v.defaults
  | .basic _ => return .translated []
  | .advanced a => do
    let blocks ← g.blocksOf s a
    let source ← g.viewAt s a.source
    return .gathered (← a.gather blocks (← g.indexerViews s a) source)
  | .validation watched => return .watched (← g.watchFrom s watched)

/-- A slot brought up to date with the pending changes of the nodes that its
node reads.  A constant and a variable read none, and their slots are not
looked into. -/
def propagateSlot (g : Graph) (s : State) : Node → Slot → Except Fault Slot
  | .basic b, .translated _ => .translated <$> (b.translateDiff =<< g.diffAt s b.source)
  | .advanced a, .gathered c => do
    let blocks ← g.blocksOf s a
    let indexerDiffs ← a.indexers.mapM (g.diffAt s ·.node)
    let sourceDiff ← g.diffAt s a.source
    let source ← g.viewAt s a.source
    let indexers ← g.indexerViews s a
    return .gathered (← a.refresh blocks indexers source indexerDiffs sourceDiff c)
  | .validation watched, .watched committed => do
    g.checkPropagated s watched committed
    return .watched committed
  | .constant _, slot | .leaf _, slot => return slot
  | _, _ => throw .wrongSlot

/-- A slot whose pending changes have become the committed ones. -/
def commitSlot (g : Graph) (s : State) : Node → Slot → Except Fault Slot
  | .leaf _, .contents c => return .contents c.commit
  | .basic _, .translated _ => return .translated []
  | .advanced _, .gathered c => return .gathered c.commit
  | .validation watched, .watched _ => do
    let _ ← g.descriptionAt watched
    return .watched (← (← g.viewAt s watched).toList)
  | .constant _, slot => return slot
  | _, _ => throw .wrongSlot

/-- A slot whose pending changes have been taken back. -/
def revertSlot (g : Graph) (s : State) : Node → Slot → Except Fault Slot
  | .leaf _, .contents c => return .contents c.revert
  | .basic _, .translated _ => return .translated []
  | .advanced _, .gathered c => return .gathered c.revert
  | .validation watched, .watched committed => do
    g.checkReverted s watched committed
    return .watched committed
  | .constant _, slot => return slot
  | _, _ => throw .wrongSlot

/-- Gives a node its default slot, unless it has a slot. -/
def initializeNode (g : Graph) (id : NodeId) : Change Unit := do
  let s ← get
  if !s.isInitialized id then
    let slot ← g.defaultSlot s (← g.nodeAt id)
    set (s.put id slot)

/-- Gives every node without a slot its default slot, in the order of the
ids. -/
def initializeRemaining (g : Graph) : Change Unit := do
  g.checkState (← get)
  (List.range g.size).forM g.initializeNode

/-- A state in which every node has its default slot, and the graph frozen
by it. -/
def initialState (g : Graph) : Except Failure (State × Graph) :=
  match (List.range g.size).forM g.initializeNode g.emptyState.1 with
  | .ok () s => .ok (s, g.emptyState.2)
  | .error e _ => .error e

/-- Takes a step with the slot of a node. -/
def stepNode (g : Graph) (step : State → Node → Slot → Except Fault Slot) (id : NodeId) :
    Change Unit := do
  let s ← get
  let slot ← step s (← g.nodeAt id) (← s.slot id)
  set (s.put id slot)

/-- The ids of a bulk call in their order, each once.  Refused unless all
are ready. -/
def prepare (g : Graph) (s : State) (ids : List NodeId) : Except Refusal (List NodeId) := do
  let ids := Ascending.sorted ids
  ids.forM (g.checkReady s)
  return ids

/-- Takes a step with the slots of some nodes, in the order of their ids. -/
def stepAll (g : Graph) (step : State → Node → Slot → Except Fault Slot) (ids : List NodeId) :
    Change Unit := do
  let ids ← g.prepare (← get) ids
  ids.forM (g.stepNode step)

/-- Brings some nodes up to date.  For the whole state to be up to date
afterwards, the nodes have to include all that depend on what was edited. -/
def propagate (g : Graph) (ids : List NodeId) : Change Unit := g.stepAll g.propagateSlot ids

/-- Makes the pending changes of some nodes the committed ones. -/
def commit (g : Graph) (ids : List NodeId) : Change Unit := g.stepAll g.commitSlot ids

/-- Takes the pending changes of some nodes back. -/
def revert (g : Graph) (ids : List NodeId) : Change Unit := g.stepAll g.revertSlot ids

/-- Brings everything that depends on some nodes up to date and commits
it. -/
def propagateAndCommit (g : Graph) (sources : List NodeId) : Change Unit := do
  let ids ← g.descendants (← get) sources
  g.propagate ids
  g.commit ids

/-- Brings everything that depends on some nodes up to date and takes it
back. -/
def propagateAndRevert (g : Graph) (sources : List NodeId) : Change Unit := do
  let ids ← g.descendants (← get) sources
  g.propagate ids
  g.revert ids

end Graph
end ArrayFlow
