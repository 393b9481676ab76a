import ArrayFlow.Journal
import ArrayFlow.Refusal

/-!
# List variables

An ordered choice of distinct items of `0, 1, …, count - 1`.  The items not
chosen wait in a stack, so that items and stack together hold every number
once.  A fixed list chooses all of them, a growing one keeps between
`minSize` and `maxSize`: growing takes the top of the stack, shrinking puts
the last item there.
-/

namespace ArrayFlow

/-- An ordered choice of distinct items of `0, …, count - 1`. -/
structure ListVariable where
  count : Nat
  minSize : Nat
  maxSize : Nat
  growing : Bool
  minSize_le_maxSize : minSize ≤ maxSize
  maxSize_le_count : maxSize ≤ count
  fixed_minSize : growing = false → minSize = count

namespace ListVariable

/-- The fixed list of all items. -/
def ofCount (count : Nat) : ListVariable :=
  ⟨count, count, count, false, Nat.le_refl _, Nat.le_refl _, fun _ => rfl⟩

/-- The growing list of `minSize` to `maxSize` items. -/
def ofSizes (count minSize maxSize : Nat) : Except Refusal ListVariable :=
  if h : minSize ≤ maxSize ∧ maxSize ≤ count then
    .ok ⟨count, minSize, maxSize, true, h.1, h.2, nofun⟩
  else .error (.sizeOutOfBounds maxSize minSize count)

/-- The shape of the chosen items. -/
def shape (v : ListVariable) : Shape := if v.growing then .dynamic [] else .static [v.count]

/-- The greatest item, 0 if there is none. -/
def max (v : ListVariable) : Binary64 := .ofNat (v.count - 1)

/-- The chosen items in their order, and the others as a stack whose top is
at the end. -/
structure Contents where
  items : Journal Binary64
  unused : Journal Binary64
  deriving DecidableEq

namespace Contents

/-- Both parts committed. -/
def commit (c : Contents) : Contents := ⟨c.items.commit, c.unused.commit⟩

/-- Both parts as they were committed last. -/
def revert (c : Contents) : Contents := ⟨c.items.revert, c.unused.revert⟩

end Contents

/-- The list that nobody has seeded, if there is room for it: the first
`minSize` items, and the rest in a stack with the least on top. -/
def defaults (v : ListVariable) : Except Fault Contents := do
  checkRoom v.count
  return {
    items := .ofArray ((Array.range v.minSize).map .ofNat)
    unused := .ofArray
      (((List.range v.count).drop v.minSize).reverse.map Binary64.ofNat).toArray }

/-- Whether `x` is one of the numbers to choose from and not among the items
`seen`. -/
def admits (v : ListVariable) (seen : List Nat) (x : Binary64) : Bool :=
  x.isWhole && !decide (x < .zero) && !decide (.ofNat v.count ≤ x) && !seen.contains x.toNat

/-- The items that some values stand for, if they are distinct items; the
first value that is not ends the walk. -/
def itemsOf (v : ListVariable) (seen : List Nat) : List Binary64 → Except Refusal (List Nat)
  | [] => .ok seen
  | x :: xs =>
    if v.admits seen x then itemsOf v (x.toNat :: seen) xs
    else .error (.valueOutOfBounds x .zero (.ofInt ((v.count : Int) - 1)))

/-- Inserts explicit items; those not listed wait in increasing order, for
which there has to be room. -/
def seed {σ : Type} (v : ListVariable) (values : List Binary64)
    (insert : Contents → EStateM Failure σ Unit) : EStateM Failure σ Unit := do
  if values.length < v.minSize ∨ v.maxSize < values.length then
    throw (.refused (.sizeOutOfBounds values.length v.minSize v.maxSize))
  checkRoom v.count
  let used ← v.itemsOf [] values
  let unused := (List.range v.count).reverse.filter (fun item => !used.contains item)
  insert ⟨.ofArray values.toArray, .ofArray (unused.map Binary64.ofNat).toArray⟩

/-- An edit of the choice. -/
inductive Edit where
  | exchange (i k : Nat)
  | grow
  | shrink
  deriving DecidableEq

/-- Refuses to grow or shrink a fixed list, here the node `id`. -/
def checkGrowing (v : ListVariable) (id : NodeId) : Except Refusal Unit :=
  if v.growing then .ok () else .error (.fixedSize id)

/-- Edits the choice of the node `id`.  Refused if a position does not exist
or the list would leave its size limits.  What grows is taken from the stack
before it is put at the end of the items, and the other way round. -/
def edit (v : ListVariable) (id : NodeId) : Edit → EStateM Failure Contents Unit
  | .exchange i k => do
    let size := (← get).items.size
    if let some bad := [i, k].find? (size ≤ ·) then
      throw (.refused (.indexOutOfBounds (signedWord bad) size))
    modify fun c => { c with items := c.items.exchange i k }
  | .grow => do
    v.checkGrowing id
    let size := (← get).items.size
    if v.maxSize ≤ size then
      throw (.refused (.sizeOutOfBounds (size + 1) v.minSize v.maxSize))
    if let some x := (← get).unused.values.back? then
      modify fun c => { c with unused := c.unused.pop }
      modify fun c => { c with items := c.items.push x }
  | .shrink => do
    v.checkGrowing id
    let size := (← get).items.size
    if size ≤ v.minSize then
      throw (.refused (.sizeOutOfBounds (size - 1) v.minSize v.maxSize))
    if let some x := (← get).items.values.back? then
      modify fun c => { c with items := c.items.pop }
      modify fun c => { c with unused := c.unused.push x }

end ListVariable
end ArrayFlow
