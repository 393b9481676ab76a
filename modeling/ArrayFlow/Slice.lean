import ArrayFlow.Fault

/-!
# Slices

A slice `start:stop:step` selects positions of one axis.  A negative bound
counts from the end, a bound outside the axis is moved to its edge, and an
absent bound is the edge in the direction of the step.  Resolved against an
extent, a slice is a **range**: the positions `start + k * step` for
`k < length`.  Bounds have a sign, so the extent is read as a signed word, and
the arithmetic is that of signed words.
-/

namespace ArrayFlow

/-- A `start:stop:step` slice. -/
structure Slice where
  start : Option Int
  stop : Option Int
  step : Int
  deriving DecidableEq

/-- The positions `start + k * step` for `k < length`. -/
structure SliceRange where
  start : Int
  step : Int
  length : Nat
  deriving DecidableEq

namespace SliceRange

/-- The positions of a range in their order. -/
def positions (r : SliceRange) : List Int :=
  (List.range r.length).map (fun (k : Nat) => r.start + k * r.step)

/-- Which of the positions of a range `c` is, if it is one.  The remainder is
taken before the quotient is used, and overflows where the quotient does. -/
def find? (r : SliceRange) (c : Nat) : Except Fault (Option Nat) := do
  let distance ← signed (signedWord c - r.start)
  let k ← signed (distance.tdiv r.step)
  return if distance % r.step = 0 ∧ 0 ≤ k ∧ k.toNat < r.length then some k.toNat else none

end SliceRange

namespace Slice

/-- The slice `:`. -/
def full : Slice := ⟨none, none, 1⟩

/-- Whether a slice selects every axis whole and in order. -/
def isFull (s : Slice) : Bool :=
  (s.start == none || s.start == some 0) && s.stop == none && s.step == 1

/-- A bound on an axis of extent `n`: `default` where it is absent, counted
from the end and kept from falling below `low` where it is negative, and else
kept from rising above `high`. -/
def clip (n : Int) (bound : Option Int) (default low high : Int) : Except Fault Int :=
  match bound with
  | none => .ok default
  | some b => if b < 0 then (max · low) <$> signed (b + n) else .ok (min b high)

/-- How many steps of size `step` from one position lead to positions that are
less than `distance` away. -/
def stepsWithin (distance step : Int) : Except Fault Int := do
  let last ← signed (distance - 1)
  signed (last / step + 1)

/-- The positions a slice selects on an axis; `none` if the step is zero. -/
def resolve? (s : Slice) (extent : Nat) : Except Fault (Option SliceRange) :=
  let n := signedWord extent
  if 0 < s.step then do
    let start ← clip n s.start 0 0 n
    let stop ← clip n s.stop n 0 n
    let length ← if start < stop then do stepsWithin (← signed (stop - start)) s.step else pure 0
    return some ⟨start, s.step, length.toNat⟩
  else if s.step < 0 then do
    let last ← signed (n - 1)
    let start ← clip n s.start last (-1) last
    let stop ← clip n s.stop (-1) (-1) last
    let length ← if stop < start then do
        stepsWithin (← signed (start - stop)) (← signed (-s.step))
      else pure 0
    return some ⟨start, s.step, length.toNat⟩
  else return none

end Slice

/-- What basic indexing asks of one axis: a slice of it, or one position,
which removes the axis.  A negative position counts from the end. -/
inductive Selector where
  | slice (s : Slice)
  | position (i : Int)
  deriving DecidableEq

namespace Selector

/-- A bound as it is shown in an error text. -/
def boundText : Option Int → String
  | none => "None"
  | some b => "Some(" ++ toString b ++ ")"

/-- A selector as it is shown in an error text. -/
def text : Selector → String
  | position i => "Index(" ++ toString i ++ ")"
  | slice s =>
    "Slice(Slice \x7b start: " ++ boundText s.start ++ ", stop: " ++ boundText s.stop ++
      ", step: " ++ toString s.step ++ " \x7d)"

end Selector
end ArrayFlow
