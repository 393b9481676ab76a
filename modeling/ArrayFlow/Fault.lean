import ArrayFlow.Binary64.Decimal
import ArrayFlow.Word

/-!
# Faults

A fault ends a computation that was asked for something it can only give to
a caller who keeps the rules: an element past the end of a view, a position
in blocks without extent, a handle that the graph has no node for, a slot
that belongs to a node of another kind, a diff that does not lead to the view
it belongs to, an array for which there is no room.  `Fault.text?` is the
text of a fault, where the fault is reported with one.

Arithmetic is checked.  A result that does not fit into a word is a fault as
well: `word` and `signed` stand around each sum, difference, product and
quotient that can leave the range of its type.  A computation that comes to
an end has therefore computed the numbers that its formulas name (`eq_of_word`).
-/

namespace ArrayFlow

/-- A node is known by its position in its graph. -/
abbrev NodeId := Nat

/-- The text of a node id. -/
def nodeText (id : NodeId) : String := "#" ++ toString id

/-- What a consistency check of an array found wrong. -/
inductive Inconsistency where
  | startsWithSizeChange
  | lengthDiffers
  | extentsDiffer (extents : List Nat) (size : Nat)
  | sizeDiffDisagrees
  | diffDoesNotReproduce
  | outsideBounds (value min max : Binary64)
  | notRestored
  | diffRemains
  deriving DecidableEq

/-- Why a computation cannot go on. -/
inductive Fault where
  | noPosition
  | noRoom
  | zeroExtent
  /-- A number does not fit into its word. -/
  | overflow
  /-- A view with elements starts before its buffer. -/
  | negativeStart
  | flatIndex (index size : Nat)
  | notAnArray (node : NodeId)
  | foreignHandle (node : NodeId)
  | noSlot (node : NodeId)
  | wrongSlot
  | inconsistent (node : NodeId) (found : Inconsistency)
  deriving DecidableEq

namespace Inconsistency

/-- The text of what was found wrong with the array of a node. -/
def text? (node : NodeId) : Inconsistency → Option String
  | startsWithSizeChange => some (nodeText node ++ " starts with a size change")
  | lengthDiffers => some (nodeText node ++ ": view length differs from state size")
  | extentsDiffer extents size =>
    some (nodeText node ++ ": shape [" ++ ", ".intercalate (extents.map toString) ++
      "] does not match size " ++ toString size)
  | sizeDiffDisagrees => some (nodeText node ++ ": size_diff disagrees with the committed size")
  | diffDoesNotReproduce => some (nodeText node ++ ": diff does not reproduce the view")
  | outsideBounds v lo hi =>
    some (nodeText node ++ ": value " ++ v.text ++ " outside [" ++ lo.text ++ ", " ++ hi.text ++ "]")
  | notRestored => some (nodeText node ++ ": revert did not restore the committed values")
  | diffRemains => none

end Inconsistency

namespace Fault

/-- The text of a fault, if it has one. -/
def text? : Fault → Option String
  | noPosition => none
  | noRoom => none
  | zeroExtent => none
  | overflow => none
  | negativeStart => none
  | flatIndex i n => some ("flat index " ++ toString i ++ " out of range " ++ toString n)
  | notAnArray node => some ("node " ++ nodeText node ++ " is not an array")
  | foreignHandle node =>
    some ("handle NodeRef(" ++ nodeText node ++ ") does not belong to this graph")
  | noSlot _ => none
  | wrongSlot => none
  | inconsistent node found => found.text? node

end Fault

/-- A fault unless there is room for an array of `n` elements. -/
def checkRoom (n : Nat) : Except Fault Unit :=
  if n ≤ maxElements then .ok () else .error .noRoom

/-- The result of an unsigned operation, if it is a word. -/
def word (n : Nat) : Except Fault Nat :=
  if n ≤ maxSize then .ok n else .error .overflow

/-- The result of a signed operation, if it is a signed word. -/
def signed (i : Int) : Except Fault Int :=
  if minSigned ≤ i ∧ i ≤ maxSigned then .ok i else .error .overflow

/-- What fits into a word is left as it is. -/
theorem eq_of_word {n m : Nat} (h : word n = .ok m) : n = m := by
  unfold word at h
  split at h
  · exact Except.ok.inj h
  · cases h

end ArrayFlow
