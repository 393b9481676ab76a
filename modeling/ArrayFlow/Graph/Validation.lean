import ArrayFlow.Graph.Read

/-!
# Consistency checks

A validation node keeps the committed values of the array it watches.  When
changes are propagated it replays the pending diff on them and compares the
result with the view, and it compares all that is known of the array with
what is seen; on a revert it asks for the committed values back.  What it
finds wrong is a fault.
-/

namespace ArrayFlow
namespace Graph

/-- A fault of the array `id` unless `holds`. -/
def expect (id : NodeId) (found : Inconsistency) (holds : Bool) : Except Fault Unit :=
  if holds then .ok () else .error (.inconsistent id found)

/-- The values of an array that a check begins with. -/
def watchFrom (g : Graph) (s : State) (id : NodeId) : Except Fault (List Binary64) := do
  let _ ← g.descriptionAt id
  let values ← (← g.viewAt s id).toList
  expect id .startsWithSizeChange ((← g.sizeDiffAt s id) == 0)
  return values

/-- Compares the array `id` with its committed values: sizes, extents and
diff fit the view, and every element keeps the declared bounds. -/
def checkPropagated (g : Graph) (s : State) (id : NodeId) (committed : List Binary64) :
    Except Fault Unit := do
  let d ← g.descriptionAt id
  let view ← g.viewAt s id
  let size ← g.sizeAt s id
  expect id .lengthDiffers ((← view.count) == size)
  let extents ← g.extentsAt s id
  expect id (.extentsDiffer extents size) ((← RowMajor.count extents) == size)
  let change ← signed (signedWord size - committed.length)
  expect id .sizeDiffDisagrees (change == (← g.sizeDiffAt s id))
  let replayed := replay (← g.diffAt s id) committed.toArray size
  expect id .diffDoesNotReproduce (replayed.toList == (← view.toList))
  (← view.elements).forM fun x =>
    expect id (.outsideBounds x d.min d.max) (decide (d.min ≤ x) && decide (x ≤ d.max))

/-- Compares the array `id` with its committed values after a revert. -/
def checkReverted (g : Graph) (s : State) (id : NodeId) (committed : List Binary64) :
    Except Fault Unit := do
  let _ ← g.descriptionAt id
  expect id .notRestored ((← (← g.viewAt s id).toList) == committed)
  expect id .diffRemains (← g.diffAt s id).isEmpty

end Graph
end ArrayFlow
