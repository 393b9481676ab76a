import ArrayFlow.Indexing.Gathered
import ArrayFlow.Variable

/-!
# States

A state holds one slot per node of the graph it was made for.  Everything
that changes while a graph is evaluated lies in the slots, so one graph can
have any number of states.
-/

namespace ArrayFlow

/-- What a state holds for one node: nothing of its own for a constant, the
contents of a variable, the translated diff of a basic selection, the
gathered elements of an advanced one, and the committed values of the array
that a check watches. -/
inductive Slot where
  | constant
  | contents (c : Variable.Contents)
  | translated (diff : List (Update Binary64))
  | gathered (g : Gathered)
  | watched (committed : List Binary64)
  deriving DecidableEq

/-- The slots of the nodes of one graph.  A node without a slot is not
initialized. -/
structure State where
  /-- The graph the state was made for. -/
  graph : Nat
  slots : Array (Option Slot)
  deriving DecidableEq

namespace State

/-- The state of a graph with `size` nodes in which no node has a slot. -/
def empty (graph size : Nat) : State := ⟨graph, Array.replicate size none⟩

/-- The number of slots. -/
def size (s : State) : Nat := s.slots.size

/-- The slot of a node. -/
def slot? (s : State) (id : NodeId) : Option Slot := s.slots[id]?.join

/-- Whether a node has a slot. -/
def isInitialized (s : State) (id : NodeId) : Bool := (s.slot? id).isSome

/-- How many nodes have a slot. -/
def initializedCount (s : State) : Nat := s.slots.countP Option.isSome

/-- The state with another slot for a node. -/
def put (s : State) (id : NodeId) (slot : Slot) : State :=
  { s with slots := s.slots.setIfInBounds id (some slot) }

/-- The slot of a node that has one. -/
def slot (s : State) (id : NodeId) : Except Fault Slot :=
  match s.slot? id with
  | some slot => .ok slot
  | none => .error (.noSlot id)

/-- The contents of a variable. -/
def contents (s : State) (id : NodeId) : Except Fault Variable.Contents := do
  match ← s.slot id with
  | .contents c => return c
  | _ => throw (.noSlot id)

/-- The gathered elements of an advanced selection. -/
def gathered (s : State) (id : NodeId) : Except Fault Gathered := do
  match ← s.slot id with
  | .gathered c => return c
  | _ => throw (.noSlot id)

/-- The translated diff of a basic selection. -/
def translated (s : State) (id : NodeId) : Except Fault (List (Update Binary64)) := do
  match ← s.slot id with
  | .translated diff => return diff
  | _ => throw (.noSlot id)

@[simp] theorem size_put (s : State) (id : NodeId) (slot : Slot) : (s.put id slot).size = s.size := by
  simp [put, size]

/-- A slot that is put is there afterwards, and the others stay. -/
theorem slot?_put (s : State) (id other : NodeId) (slot : Slot) (h : id < s.size) :
    (s.put id slot).slot? other = if other = id then some slot else s.slot? other := by
  simp only [slot?, put, size] at *
  by_cases heq : other = id
  · subst heq; simp [h]
  · simp [heq, Array.getElem?_setIfInBounds_ne (Ne.symm heq)]

end State
end ArrayFlow
