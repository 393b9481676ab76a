import ArrayFlow.Ascending
import ArrayFlow.Description
import ArrayFlow.Indexing.Gathered
import ArrayFlow.Refusal
import ArrayFlow.View

/-!
# Advanced indexing

Advanced indexing selects along some axes of a source with **index arrays**,
whose common shape takes the place of those axes, and keeps the other axes
whole.  The whole axes before the first indexer come first in the result
(`pre`), then the common shape, then the other whole axes (`post`), so a
position of the result is a triple of positions in three blocks.

A selection is accepted only if no index array can ever leave its axis, and
if the result has no dynamic axis behind its leading one (`layoutOf`).

* `sourceIndex` — the source position that a position of the result reads;
* `dirtyPositions` — the positions that the pending diffs of source and
  indexers can have touched;
* `refresh` — brings a gathered array up to date by reading just those again,
  and appending or removing at the end.
-/

namespace ArrayFlow

/-- What advanced indexing asks of one axis: to keep it whole, or to select
along it with the values of an array. -/
inductive IndexTerm where
  | whole
  | indexer (node : NodeId)
  deriving DecidableEq

/-- An axis of the source. -/
structure SourceAxis where
  number : Nat
  dim : Dim
  deriving DecidableEq

/-- An index array and the number of the axis it selects along.  An array
without axes gives its only value to every position. -/
structure Indexer where
  node : NodeId
  axis : Nat
  scalar : Bool
  deriving DecidableEq

/-- The extents of the three blocks of a result in one state: the whole axes
in front, the number of values of the index arrays, and the whole axes
behind. -/
structure Blocks where
  pre : List Nat
  broadcast : Nat
  post : List Nat
  deriving DecidableEq

namespace Blocks

/-- The blocks with these extents, if the positions of each can be counted. -/
def ofExtents (pre : List Nat) (broadcast : Nat) (post : List Nat) : Except Fault Blocks := do
  let _ ← RowMajor.count post
  let _ ← RowMajor.count pre
  return ⟨pre, broadcast, post⟩

/-- The number of positions. -/
def size (b : Blocks) : Nat := RowMajor.size b.pre * b.broadcast * RowMajor.size b.post

/-- The number of positions, multiplied up from the front. -/
def count (b : Blocks) : Except Fault Nat := do
  let front ← word (RowMajor.size b.pre * b.broadcast)
  word (front * RowMajor.size b.post)

/-- The position in the front block. -/
def preIndex (b : Blocks) (p : Nat) : Nat := p / RowMajor.size b.post / b.broadcast

/-- The position in the index arrays. -/
def broadcastIndex (b : Blocks) (p : Nat) : Nat := p / RowMajor.size b.post % b.broadcast

/-- The position in the back block. -/
def postIndex (b : Blocks) (p : Nat) : Nat := p % RowMajor.size b.post

/-- The positions that read value `i` of the index arrays. -/
def positionsOf (b : Blocks) (i : Nat) : List Nat :=
  (List.range (RowMajor.size b.pre)).flatMap fun a =>
    (List.range (RowMajor.size b.post)).map fun c =>
      (a * b.broadcast + i) * RowMajor.size b.post + c

end Blocks

/-- The selection of a source array by index arrays. -/
structure AdvancedIndexing where
  /-- The graph whose arrays are selected from and with. -/
  graph : Nat
  source : NodeId
  sourceDescription : Description
  /-- The strides of the source, if it were laid out by itself. -/
  strides : List Nat
  pre : List SourceAxis
  post : List SourceAxis
  indexers : List Indexer
  /-- The common shape of the index arrays. -/
  broadcast : Shape
  shape : Shape
  /-- Whose rows the result has, if it is dynamic. -/
  rows : Option RowSpan

namespace AdvancedIndexing

/-- The axes of a source. -/
def axesOf (d : Description) : List SourceAxis := d.shape.dims.zipIdx.map fun (dim, k) => ⟨k, dim⟩

/-- Refuses an index array whose values need not be positions of the axis in
every state.  A dynamic axis is only sure to have its least number of rows. -/
def checkIndexer (source : Description) (axis : SourceAxis) (node : NodeId) (d : Description) :
    Except Refusal Unit := do
  if !d.integral then throw (.nonIntegralIndexer node axis.number)
  let extent := axis.dim.extentOr source.rows.minRows
  if d.min < .zero ∨ .ofNat extent ≤ d.max then
    throw (.indexerOutOfRange node axis.number d.min d.max extent)

/-- The index arrays among the terms with their axes, each checked. -/
def indexersOf (describe : NodeId → Except Refusal Description) (source : Description) :
    List (SourceAxis × IndexTerm) → Except Refusal (List (SourceAxis × NodeId × Description))
  | [] => .ok []
  | (_, .whole) :: rest => indexersOf describe source rest
  | (axis, .indexer node) :: rest => do
    let d ← describe node
    checkIndexer source axis node d
    let others ← indexersOf describe source rest
    return (axis, node, d) :: others

/-- The span of rows that all dynamic index arrays share, none if there are
no dynamic ones.  Equal shapes are not enough: they have to take their rows
from one origin. -/
def commonRows (indexers : List Description) : Except Refusal (Option RowSpan) :=
  match indexers.filter (·.shape.isDynamic) with
  | [] => .ok none
  | first :: others =>
    match others.find? (fun d => first.rows.origin ≠ d.rows.origin) with
    | some d => .error (.originsDiffer first.shape first.rows.origin d.shape d.rows.origin)
    | none => .ok (some first.rows)

/-- What a selection is made of: the whole axes in front and behind, the index
arrays with their axes, their common shape and rows, and the shape of the
result. -/
structure Layout where
  pre : List SourceAxis
  post : List SourceAxis
  indexers : List (SourceAxis × NodeId × Description)
  broadcast : Shape
  indexerRows : Option RowSpan
  shape : Shape
  deriving DecidableEq

/-- The layout of a selection from a source with one term per axis, refused if
the terms break a rule. -/
def layoutOf (describe : NodeId → Except Refusal Description) (d : Description)
    (terms : List IndexTerm) : Except Refusal Layout := do
  if terms.length ≠ d.shape.rank then
    throw (.wrongNumberOfIndices d.shape.rank terms.length)
  let axes := (axesOf d).zip terms
  let indexers ← indexersOf describe d axes
  if indexers.isEmpty then throw .noIndexers
  let shapes := indexers.map (·.2.2.shape)
  let broadcast ← match Shape.broadcast shapes with
    | .ok common => pure (common.getD .scalar)
    | .error (left, right) => throw (.shapesDiffer left right)
  let indexerRows ← commonRows (indexers.map (·.2.2))
  let multiDim := shapes.countP (2 ≤ ·.rank)
  if 1 < multiDim then throw (.multipleMultiDimIndexers multiDim)
  let pre := (axes.takeWhile (·.2 == .whole)).map (·.1)
  let rest := axes.dropWhile (·.2 == .whole)
  let behind := rest.dropWhile (·.2 != .whole)
  if !pre.isEmpty && !behind.all (·.2 == .whole) then throw .separatedIndexers
  if !pre.isEmpty && 0 < multiDim then throw .multiDimIndexerAfterSlice
  if !pre.isEmpty && broadcast.isDynamic then throw .dynamicIndexerAfterSlice
  let post := (rest.filter (·.2 == .whole)).map (·.1)
  let dims := pre.map (·.dim) ++ broadcast.dims ++ post.map (·.dim)
  let some shape := Shape.ofDims? dims | throw .dynamicOutputBehindLeading
  return { pre, post, indexers, broadcast, indexerRows, shape }

/-- The selection of the array `source` of a graph with one term per axis;
`describe` gives what is known of the nodes of that graph. -/
def ofTerms (graph : Nat) (describe : NodeId → Except Refusal Description) (source : NodeId)
    (terms : List IndexTerm) : Except Failure AdvancedIndexing := do
  let d ← liftM (describe source)
  let l ← liftM (layoutOf describe d terms)
  let strides ← d.shape.strides
  return {
    graph, source, strides
    sourceDescription := d
    pre := l.pre
    post := l.post
    indexers := l.indexers.map fun (axis, node, i) => ⟨node, axis.number, i.shape.rank == 0⟩
    broadcast := l.broadcast
    shape := l.shape
    rows := l.indexerRows <|> if l.shape.isDynamic then some d.rows else none }

/-- The nodes a selection reads: the source, then the index arrays in the
order of their axes. -/
def predecessors (a : AdvancedIndexing) : List NodeId := a.source :: a.indexers.map (·.node)

/-- What is known of the result, the node `id`: its elements are elements of
the source. -/
def description (a : AdvancedIndexing) (id : NodeId) : Description :=
  { a.sourceDescription with shape := a.shape, rows := a.rows.getD (.ofShape id a.shape) }

/-- The stride of an axis of the source. -/
def stride (a : AdvancedIndexing) (axis : Nat) : Nat := a.strides.getD axis 0

/-- The blocks of the result in a state in which the dynamic axis of the
source has `sourceRows` positions and the index arrays have `broadcast`
values. -/
def blocks (a : AdvancedIndexing) (sourceRows broadcast : Nat) : Except Fault Blocks :=
  Blocks.ofExtents (a.pre.map (·.dim.extentOr sourceRows)) broadcast (a.post.map (·.dim.extentOr 0))

/-- A part of a source position, and what the index arrays, here their views,
add to it at position `q` of their common shape. -/
def addIndexed (a : AdvancedIndexing) (q sum : Nat) : List (Indexer × View) → Except Fault Nat
  | [] => .ok sum
  | (ix, view) :: rest => do
    let x ← view.get (if ix.scalar then 0 else q)
    let term ← word (x.toNat * a.stride ix.axis)
    let next ← word (sum + term)
    a.addIndexed q next rest

/-- The source position that position `p` of the result reads.  Each extent of
the blocks is divided by on the way, so none may be zero.  The whole axes only
add, so their sum overflows on the way where it does in the end. -/
def sourceIndex (a : AdvancedIndexing) (b : Blocks) (indexers : List View) (p : Nat) :
    Except Fault Nat :=
  if b.size = 0 then .error .zeroExtent
  else do
    let whole ← word (
      RowMajor.flatten (RowMajor.coordinates b.pre (b.preIndex p)) (a.pre.map (a.stride ·.number)) +
      RowMajor.flatten (RowMajor.coordinates b.post (b.postIndex p)) (a.post.map (a.stride ·.number)))
    a.addIndexed (b.broadcastIndex p) whole (a.indexers.zip indexers)

/-- The source position that position `p` reads, and the value there. -/
def entry (a : AdvancedIndexing) (b : Blocks) (indexers : List View) (source : View) (p : Nat) :
    Except Fault (Nat × Binary64) := do
  let f ← a.sourceIndex b indexers p
  return (f, ← source.get f)

/-- The result, read anew from views of the source and the index arrays, if
there is room for it. -/
def gather (a : AdvancedIndexing) (b : Blocks) (indexers : List View) (source : View) :
    Except Fault Gathered := do
  let size ← b.count
  checkRoom size
  .ofEntries <$> (List.range size).mapM (a.entry b indexers source)

/-- The positions below `limit` that pending changes of the indexers or the
source can have touched.  A change of an index array without axes touches
all of them. -/
def dirtyPositions (a : AdvancedIndexing) (b : Blocks)
    (indexerDiffs : List (List (Update Binary64))) (sourceDiff : List (Update Binary64))
    (readers : Readers) (limit : Nat) : List Nat :=
  let indexed := a.indexers.zip indexerDiffs
  if indexed.any (fun (ix, diff) => ix.scalar && !diff.isEmpty) then List.range limit
  else
    let moved := indexed.flatMap fun (_, diff) =>
      (diff.filter (·.index < b.broadcast)).flatMap fun u => b.positionsOf u.index
    let changed := sourceDiff.flatMap fun u => readers.of u.index
    Ascending.sorted ((moved ++ changed).filter (· < limit))

/-- A gathered array brought up to date: elements beyond the new size are
taken away, the dirty ones are read again, and the missing ones are
appended. -/
def refresh (a : AdvancedIndexing) (b : Blocks) (indexers : List View) (source : View)
    (indexerDiffs : List (List (Update Binary64))) (sourceDiff : List (Update Binary64))
    (g : Gathered) : Except Fault Gathered := do
  let size ← b.count
  let keep := min g.size size
  let dirty := a.dirtyPositions b indexerDiffs sourceDiff g.readers keep
  let shrunk := Nat.repeat Gathered.pop (g.size - size) g
  let updated ← dirty.foldlM (fun g p => do
    let (f, x) ← a.entry b indexers source p
    g.store p f x) shrunk
  (List.range' keep (size - keep)).foldlM (fun g p => do
    let (f, x) ← a.entry b indexers source p
    return g.place f x) updated

end AdvancedIndexing
end ArrayFlow
