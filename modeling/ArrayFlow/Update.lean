import ArrayFlow.Fault

/-!
# Change records

A diff is a list of records, each about one position of an array: a
**placement** has only a new value, a **removal** only an old one, and a
**change** has both.  `replay` carries out a diff on the values from before
it; positions that are written past the end grow the array, and what nobody
has written is NaN.
-/

namespace ArrayFlow

/-- A record of what happened at one position of an array. -/
structure Update (α : Type) where
  index : Nat
  old : Option α
  new : Option α
  deriving DecidableEq

namespace Update

variable {α : Type}

/-- The value at `i` went from `old` to `new`. -/
def change (i : Nat) (old new : α) : Update α := ⟨i, some old, some new⟩

/-- The value `v` was put at the end, at `i`. -/
def placement (i : Nat) (v : α) : Update α := ⟨i, none, some v⟩

/-- The value `v` was taken from the end, at `i`. -/
def removal (i : Nat) (v : α) : Update α := ⟨i, some v, none⟩

/-- The same event at another position. -/
def moveTo (u : Update α) (i : Nat) : Update α := { u with index := i }

end Update

/-- The array cut or filled up to `n` elements. -/
def resize {α : Type} (xs : Array α) (n : Nat) (fill : α) : Array α :=
  if n ≤ xs.size then xs.extract 0 n else xs ++ Array.replicate (n - xs.size) fill

/-- The array with `v` at `i`, filled up as far as `i` where it is shorter. -/
def write {α : Type} (xs : Array α) (i : Nat) (v fill : α) : Array α :=
  (if xs.size ≤ i then resize xs (i + 1) fill else xs).setIfInBounds i v

/-- The values after a diff, cut or filled to `finalSize`.  A position that
is removed holds NaN until it is written again. -/
def replay (updates : List (Update Binary64)) (xs : Array Binary64) (finalSize : Nat) :
    Array Binary64 :=
  resize (updates.foldl (fun ys u => write ys u.index (u.new.getD .nan) .nan) xs) finalSize .nan

/-- The values after a diff, if there is room for them on the way and at the
end. -/
def replayInRoom (updates : List (Update Binary64)) (xs : Array Binary64) (finalSize : Nat) :
    Except Fault (Array Binary64) := do
  updates.forM fun u => checkRoom (u.index + 1)
  checkRoom finalSize
  return replay updates xs finalSize

@[simp] theorem size_resize {α : Type} (xs : Array α) (n : Nat) (fill : α) :
    (resize xs n fill).size = n := by
  unfold resize; split <;> simp <;> omega

@[simp] theorem size_write {α : Type} (xs : Array α) (i : Nat) (v fill : α) :
    (write xs i v fill).size = max xs.size (i + 1) := by
  unfold write
  split <;> simp <;> omega

end ArrayFlow
