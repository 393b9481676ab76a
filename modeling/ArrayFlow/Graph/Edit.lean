import ArrayFlow.Graph.Run

/-!
# Editing variables

A variable is reached through a **handle**: the id of a node and the kind it
has.  A handle fits any graph that has a node of that kind at that id; for
any other graph it is a fault.  A variable can be seeded once per state, and
edited once it has contents.
-/

namespace ArrayFlow

/-- A node of a known kind. -/
structure Handle where
  id : NodeId
  kind : Kind
  deriving DecidableEq

/-- The text of a handle. -/
def Handle.text (h : Handle) : String := "NodeRef(" ++ nodeText h.id ++ ")"

namespace Graph

/-- The handle of a node. -/
def handle? (g : Graph) (id : NodeId) : Option Handle :=
  (g.nodes[id]?).map fun node => ⟨id, node.kind⟩

/-- The node of a handle, if the graph has it. -/
def resolve? (g : Graph) (h : Handle) : Option Node :=
  match g.nodes[h.id]? with
  | some node => if node.kind = h.kind then some node else none
  | none => none

/-- The variable of a handle. -/
def variableOf (g : Graph) (h : Handle) : Except Fault Variable :=
  match g.resolve? h with
  | some (.leaf v) => .ok v
  | _ => .error (.foreignHandle h.id)

/-- Refuses a state of another graph. -/
def checkOwn (g : Graph) (s : State) : Except Refusal Unit :=
  if s.graph = g.identity then .ok () else .error .stateMismatch

/-- Gives a variable explicit elements.  Refused if it has contents. -/
def seed (g : Graph) (h : Handle) (values : List Binary64) : Change Unit := do
  let v ← g.variableOf h
  let s ← get
  g.checkOwn s
  if s.isInitialized h.id then throw (.refused (.alreadyInitialized h.id))
  v.seed values fun c => modify (·.put h.id (.contents c))

/-- A change of the contents of the variable `id`, made in its slot. -/
def onContents (id : NodeId) (change : EStateM Failure Variable.Contents Unit) : Change Unit :=
  fun s => match s.contents id with
    | .ok c => putBack (s.put id <| .contents ·) (change c)
    | .error f => .error (.fault f) s

/-- Edits the contents of the variable `id`.  The edit says what kind the
variable has to be of. -/
def edit (g : Graph) (id : NodeId) (e : Variable.Edit) : Change Unit := do
  let v ← g.variableOf ⟨id, e.kind⟩
  let s ← get
  g.checkOwn s
  if !s.isInitialized id then throw (.refused (.notInitialized id))
  onContents id (v.edit id e)

end Graph
end ArrayFlow
