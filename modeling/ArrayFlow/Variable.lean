import ArrayFlow.Description
import ArrayFlow.Variable.Integer
import ArrayFlow.Variable.List
import ArrayFlow.Variable.Rows

/-!
# Variables

The arrays whose values are set from outside: integer arrays, lists and row
arrays.  Each has contents of its own form, which can be seeded and edited;
a seed or an edit that breaks a rule of the variable is refused.
-/

namespace ArrayFlow

/-- An array whose values are set from outside. -/
inductive Variable where
  | integer (v : IntegerVariable)
  | list (v : ListVariable)
  | rows (v : RowVariable)

namespace Variable

/-- The kind of a variable. -/
def kind : Variable → Kind
  | integer _ => .integer
  | list _ => .list
  | rows _ => .dynamicArray

/-- What is known of a variable, the node `id`. -/
def description (id : NodeId) : Variable → Description
  | integer v =>
    ⟨.static v.extents, v.min, v.max, true, .ofShape id (.static v.extents)⟩
  | list v => ⟨v.shape, .zero, v.max, true, ⟨id, v.minSize, some v.maxSize⟩⟩
  | rows v => ⟨v.shape, v.lower, v.upper, v.integral, ⟨id, v.minRows, v.maxRows⟩⟩

/-- The contents of a variable. -/
inductive Contents where
  | values (j : Journal Binary64)
  | list (c : ListVariable.Contents)
  deriving DecidableEq

namespace Contents

/-- The journal of the elements. -/
def elements : Contents → Journal Binary64
  | values j => j
  | list c => c.items

/-- The current contents as the committed ones. -/
def commit : Contents → Contents
  | values j => values j.commit
  | list c => list c.commit

/-- The committed contents as the current ones. -/
def revert : Contents → Contents
  | values j => values j.revert
  | list c => list c.revert

end Contents

/-- The contents of a variable that nobody has seeded, if there is room for
them. -/
def defaults : Variable → Except Fault Contents
  | integer v => .values <$> v.defaults
  | list v => .list <$> v.defaults
  | rows v => .values <$> v.defaults

/-- Inserts contents with explicit elements. -/
def seed {σ : Type} (values : List Binary64) (insert : Contents → EStateM Failure σ Unit) :
    Variable → EStateM Failure σ Unit
  | integer v => v.seed values fun j => insert (.values j)
  | list v => v.seed values fun c => insert (.list c)
  | rows v => v.seed values fun j => insert (.values j)

/-- How the size of the elements changed since the last commit.  An integer
array has one size. -/
def sizeDiff (c : Contents) : Variable → Int
  | integer _ => 0
  | _ => c.elements.sizeDiff

/-- An edit of a variable of one kind. -/
inductive Edit where
  | integer (e : IntegerVariable.Edit)
  | list (e : ListVariable.Edit)
  | rows (e : RowVariable.Edit)
  deriving DecidableEq

/-- The kind of variable that an edit is for. -/
def Edit.kind : Edit → Kind
  | integer _ => .integer
  | list _ => .list
  | rows _ => .dynamicArray

/-- Edits the contents of the node `id`.  The edit has to be for its kind. -/
def edit (id : NodeId) (v : Variable) (e : Edit) : EStateM Failure Contents Unit := fun c =>
  match v, c, e with
  | integer v, .values j, .integer e => putBack .values (v.edit e j)
  | list v, .list c, .list e => putBack .list (v.edit id e c)
  | rows v, .values j, .rows e => putBack .values (v.edit e j)
  | _, _, _ => .error (.fault (.noSlot id)) c

end Variable
end ArrayFlow
