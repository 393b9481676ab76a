import ArrayFlow.Update

/-!
# Journals

A **journal** is an array together with the record of its edits since the
last commit.  The log is kept newest first, so undoing is a walk down the
list; read from the other end it is the diff.

* `set`, `push`, `pop` and `exchange` edit the values and log what they did;
  a write of an equal value does nothing and logs nothing;
* `commit` forgets the log;
* `revert` undoes the log.  A placement is not undone on the way: the array
  is cut to its committed size at the end.
-/

namespace ArrayFlow

/-- An array with the record of its edits since the last commit. -/
structure Journal (α : Type) where
  values : Array α
  /-- The edits since the last commit, newest first. -/
  log : List (Update α)
  committedSize : Nat
  deriving DecidableEq

namespace Journal

variable {α : Type}

/-- A journal of committed values. -/
def ofArray (xs : Array α) : Journal α := ⟨xs, [], xs.size⟩

instance : Inhabited (Journal α) := ⟨ofArray #[]⟩

/-- The number of elements. -/
def size (j : Journal α) : Nat := j.values.size

/-- The edits since the last commit, oldest first. -/
def diff (j : Journal α) : List (Update α) := j.log.reverse

/-- How many elements the array gained since the last commit. -/
def sizeDiff (j : Journal α) : Int := j.size - j.committedSize

/-- Writes `v` at `i` unless an equal value stands there. -/
def set [BEq α] (j : Journal α) (i : Nat) (v : α) : Journal α :=
  match j.values[i]? with
  | none => j
  | some old =>
    if old == v then j
    else { j with values := j.values.setIfInBounds i v, log := .change i old v :: j.log }

/-- Puts `v` at the end. -/
def push (j : Journal α) (v : α) : Journal α :=
  { j with values := j.values.push v, log := .placement j.size v :: j.log }

/-- Takes the last element away, if there is one. -/
def pop (j : Journal α) : Journal α :=
  match j.values.back? with
  | none => j
  | some v => { j with values := j.values.pop, log := .removal (j.size - 1) v :: j.log }

/-- Swaps two elements. -/
def exchange [BEq α] (j : Journal α) (i k : Nat) : Journal α :=
  if i = k then j
  else match j.values[i]?, j.values[k]? with
    | some a, some b => (j.set i b).set k a
    | _, _ => j

/-- Makes the current values the committed ones. -/
def commit (j : Journal α) : Journal α := { j with log := [], committedSize := j.size }

/-- Undoes one record.  The array may have to grow to take a removed element
back. -/
def undo (xs : Array α) (u : Update α) : Array α :=
  match u.old with
  | none => xs
  | some old => write xs u.index old old

/-- Brings the committed values back. -/
def revert (j : Journal α) : Journal α :=
  { j with values := (j.log.foldl undo j.values).extract 0 j.committedSize, log := [] }

/-- An edit of a journal. -/
inductive Edit (α : Type) where
  | set (i : Nat) (v : α)
  | push (v : α)
  | pop
  | exchange (i k : Nat)
  | commit
  | revert

/-- Whether the positions an edit names exist.  An exchange of a position
with itself reads none. -/
def Edit.Fits (j : Journal α) : Edit α → Prop
  | set i _ => i < j.size
  | exchange i k => i = k ∨ (i < j.size ∧ k < j.size)
  | _ => True

instance (j : Journal α) (e : Edit α) : Decidable (e.Fits j) := by
  cases e <;> unfold Edit.Fits <;> infer_instance

/-- What an edit does. -/
def apply [BEq α] (j : Journal α) : Edit α → Journal α
  | .set i v => j.set i v
  | .push v => j.push v
  | .pop => j.pop
  | .exchange i k => j.exchange i k
  | .commit => j.commit
  | .revert => j.revert

/-- Whether an edit writes a value that is not equal to the one before it. -/
def changes [BEq α] (j : Journal α) : Edit α → Bool
  | .set i v => j.values[i]?.any (fun old => !(old == v))
  | .exchange i k =>
    i ≠ k && match j.values[i]?, j.values[k]? with
      | some a, some b => !(a == b) || !(b == a)
      | _, _ => false
  | _ => false

@[simp] theorem size_ofArray (xs : Array α) : (ofArray xs).size = xs.size := rfl

@[simp] theorem size_set [BEq α] (j : Journal α) (i : Nat) (v : α) : (j.set i v).size = j.size := by
  simp only [set]
  split
  · rfl
  · split <;> simp [size]

@[simp] theorem size_push (j : Journal α) (v : α) : (j.push v).size = j.size + 1 := by
  simp [push, size]

@[simp] theorem size_pop (j : Journal α) : j.pop.size = j.size - 1 := by
  simp only [pop]
  split
  · next h =>
    have : j.values.size = 0 := by simpa using h
    simp [size, this]
  · simp [size]

@[simp] theorem size_exchange [BEq α] (j : Journal α) (i k : Nat) :
    (j.exchange i k).size = j.size := by
  simp only [exchange]
  split
  · rfl
  · split <;> simp

@[simp] theorem size_commit (j : Journal α) : j.commit.size = j.size := rfl

/-- An edit adds its record at the end of the diff. -/
@[simp] theorem diff_push (j : Journal α) (v : α) :
    (j.push v).diff = j.diff ++ [.placement j.size v] := by
  simp [push, diff]

end Journal
end ArrayFlow
