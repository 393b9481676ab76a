import ArrayFlow.Description
import ArrayFlow.Refusal
import ArrayFlow.Update
import ArrayFlow.View

/-!
# Basic indexing

Basic indexing selects along each axis of a source array with a slice or a
position.  The result is a view of the source with other strides; nothing is
copied.  Changes of the source are taken over by translating positions: a
source position is either seen at one position of the result, or not at all
(`translate?`).
-/

namespace ArrayFlow

/-- What becomes of an axis of the source: the dynamic axis stays as it is,
a range of positions makes an axis of the result, and a single position
makes none. -/
inductive AxisMap where
  | whole
  | range (r : SliceRange)
  | position (i : Nat)
  deriving DecidableEq

namespace AxisMap

/-- The position `i` of an axis, from the end if negative.  Positions have a
sign here, so the extent is read as a signed word. -/
def ofPosition (extent : Nat) (i : Int) : Except Failure AxisMap := do
  let n := signedWord extent
  let index ← if i < 0 then liftM (signed (i + n)) else pure i
  if 0 ≤ index ∧ index < n then return .position index.toNat
  else throw (.refused (.indexOutOfBounds i extent))

/-- What a selector makes of an axis.  The dynamic axis admits only a full
slice, because no other selection has a meaning for every number of rows. -/
def ofSelector (axis : Nat) : Dim → Selector → Except Failure AxisMap
  | .dynamic, .slice s =>
    if s.isFull then .ok .whole else .error (.refused (.dynamicAxisSelected (.slice s)))
  | .dynamic, .position i => .error (.refused (.dynamicAxisSelected (.position i)))
  | .fixed n, .slice s => do
    match ← s.resolve? n with
    | some r => return .range r
    | none => throw (.refused (.zeroStep axis))
  | .fixed n, .position i => ofPosition n i

/-- What some selectors make of the axes from number `axis` on.  An axis
without a selector is kept whole. -/
def ofSelectors (axis : Nat) : List Dim → List Selector → Except Failure (List AxisMap)
  | [], _ => .ok []
  | d :: ds, selectors => do
    let map ← ofSelector axis d (selectors.headD (.slice .full))
    let maps ← ofSelectors (axis + 1) ds selectors.tail
    return map :: maps

/-- The extents that the axes leave, the dynamic one apart. -/
def extents : List AxisMap → List Nat
  | [] => []
  | range r :: maps => r.length :: extents maps
  | _ :: maps => extents maps

/-- The shape that the axes leave. -/
def shape : List AxisMap → Shape
  | whole :: maps => .dynamic (extents maps)
  | maps => .static (extents maps)

/-- The position of the result at which the source element with the given
coordinates is seen, with what the axes before have added up to; `strides`
are those of the result.  The dynamic axis has no end, but a coordinate that
is negative as a signed word is not on it. -/
def translate? (sum : Nat) : List AxisMap → List Nat → List Nat → Except Fault (Option Nat)
  | whole :: maps, c :: cs, s :: strides => do
    if signedWord c < 0 then return none
    let term ← word (c * s)
    let next ← word (sum + term)
    translate? next maps cs strides
  | range r :: maps, c :: cs, s :: strides => do
    match ← r.find? c with
    | none => return none
    | some k =>
      let term ← word (k * s)
      let next ← word (sum + term)
      translate? next maps cs strides
  | position i :: maps, c :: cs, strides =>
    if c = i then translate? sum maps cs strides else .ok none
  | _, _, _ => .ok (some sum)

/-- How to see the result in the source: how far it starts from the start of
the source, and its extents and strides.  `offset` is how far the axes before
have led.  An empty axis does not move the start. -/
def restride (offset : Int) : List AxisMap → List Nat → List Int →
    Except Fault (Int × List Nat × List Int)
  | whole :: maps, n :: ns, s :: ss => do
    let (offset, extents, strides) ← restride offset maps ns ss
    return (offset, n :: extents, s :: strides)
  | range r :: maps, _ :: ns, s :: ss => do
    let next ← if 0 < r.length then do signed (offset + (← signed (r.start * s))) else pure offset
    let stride ← signed (r.step * s)
    let (offset, extents, strides) ← restride next maps ns ss
    return (offset, r.length :: extents, stride :: strides)
  | position i :: maps, _ :: ns, s :: ss => do
    let term ← signed (i * s)
    let next ← signed (offset + term)
    restride next maps ns ss
  | _, _, _ => .ok (offset, [], [])

end AxisMap

/-- The selection of a source array by slices and positions. -/
structure BasicIndexing where
  /-- The graph whose array is selected from. -/
  graph : Nat
  source : NodeId
  sourceDescription : Description
  axes : List AxisMap
  /-- The number of elements in a row of the source. -/
  sourceRow : Nat
  /-- The strides of the result, if it were laid out by itself. -/
  strides : List Nat
  deriving DecidableEq

namespace BasicIndexing

/-- The selection of the array `source` of a graph.  Selectors for more axes
than the source has are refused. -/
def ofSelectors (graph : Nat) (source : NodeId) (d : Description) (selectors : List Selector) :
    Except Failure BasicIndexing := do
  if d.shape.rank < selectors.length then
    throw (.refused (.wrongNumberOfIndices d.shape.rank selectors.length))
  let axes ← AxisMap.ofSelectors 0 d.shape.dims selectors
  let strides ← (AxisMap.shape axes).strides
  let sourceRow ← d.shape.countRow
  return ⟨graph, source, d, axes, sourceRow, strides⟩

/-- The shape of the result. -/
def shape (b : BasicIndexing) : Shape := AxisMap.shape b.axes

/-- What is known of the result, the node `id`: its elements are elements of
the source, and its rows, if it is dynamic, are those of the source. -/
def description (b : BasicIndexing) (id : NodeId) : Description :=
  { b.sourceDescription with
    shape := b.shape
    rows := if b.shape.isDynamic then b.sourceDescription.rows else .ofShape id b.shape }

/-- The coordinates of a source position.  The dynamic axis is as long as a
word allows. -/
def sourceCoordinates (b : BasicIndexing) (flat : Nat) : List Nat :=
  RowMajor.coordinates (b.sourceDescription.shape.dims.map (·.extentOr maxSize)) flat

/-- The position at which a source position is seen, if it is seen. -/
def translate? (b : BasicIndexing) (flat : Nat) : Except Fault (Option Nat) :=
  AxisMap.translate? 0 b.axes (b.sourceCoordinates flat) b.strides

/-- A diff of the source as a diff of the result. -/
def translateDiff (b : BasicIndexing) :
    List (Update Binary64) → Except Fault (List (Update Binary64))
  | [] => .ok []
  | u :: diff => do
    match ← b.translate? u.index with
    | some i => (u.moveTo i :: ·) <$> b.translateDiff diff
    | none => b.translateDiff diff

/-- The view of the result, from a view of the source. -/
def view (b : BasicIndexing) (source : View) : Except Fault View := do
  let (offset, extents, strides) ← AxisMap.restride 0 b.axes source.extents source.strides
  source.restride offset extents strides

/-- Whether the result gains and loses rows that can be counted with its
source. -/
def resizes (b : BasicIndexing) : Bool := b.shape.isDynamic && b.sourceRow != 0

/-- The change in size of the result, from that of the source: as many rows
of its own as the source gained. -/
def sizeDiff (b : BasicIndexing) (source : Int) : Except Fault Int := do
  let rows ← signed (source.tdiv (signedWord b.sourceRow))
  let row ← b.shape.countRow
  signed (rows * signedWord row)

end BasicIndexing
end ArrayFlow
