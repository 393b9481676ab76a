import ArrayFlow.Proofs.Calls
import ArrayFlow.Proofs.Frames

/-!
# States that are up to date

A derived array is **current** if its slot holds what it would hold if it were
made anew from the nodes that it reads (`Current`).  A state with current
slots, in which all arrays have room, shows every array that has a frame as its
description says (`seen_of_current`): with extents of its shape, as many rows
as its origin has, and elements within its bounds.  So no index array ever
points outside of its axis, and no read fails (`canRead`, `offset_lt_source`,
`exists_finds`).  An array without a frame overflows when it is looked at
(`view_error_of_current`).

Everything is said of one node and those before it, because that is what is
known while a bulk call is on its way.
-/

namespace ArrayFlow
namespace Graph

variable {g : Graph} {s t : State} {id : NodeId} {node : Node} {d : Description}

/-! ### What a state shows -/

/-- The number of rows of a variable in a state.  Without a slot it will have
its default rows. -/
def rowsIn (g : Graph) (s : State) (origin : NodeId) : Nat :=
  match g.nodes[origin]? with
  | some (.leaf v) =>
    match s.slot? origin with
    | some (.contents c) => v.rowsIn c
    | _ => v.rowsIn v.initial
  | _ => 0

/-- The number of elements that an array has with the rows of its origin. -/
def sizeBy (g : Graph) (s : State) (d : Description) : Nat :=
  d.shape.sizeWith (g.rowsIn s d.rows.origin)

/-- There is room for every array. -/
def InRoom (g : Graph) (s : State) : Prop :=
  ∀ (id : NodeId) (d : Description), g.describe id = .ok d → g.sizeBy s d ≤ maxElements

instance (g : Graph) (s : State) : Decidable (g.InRoom s) :=
  decidable_of_iff (∀ i < g.size, ∀ d ∈ (g.describe i).toOption, g.sizeBy s d ≤ maxElements) (by
    constructor
    · intro h id d hd
      obtain ⟨node, hn, -⟩ := describe_eq_ok.mp hd
      exact h id (lt_size hn) d (by rw [hd]; rfl)
    · intro h i _ d hd
      refine h i d ?_
      cases hdescribe : g.describe i with
      | ok d' =>
        rw [hdescribe] at hd
        rw [Option.some.inj hd]
      | error r =>
        rw [hdescribe] at hd
        cases hd)

/-- The variables keep their rules. -/
def Ruled (g : Graph) (s : State) : Prop :=
  ∀ (id : NodeId) (v : Variable) (c : Variable.Contents), g.nodes[id]? = some (.leaf v) →
    s.slot? id = some (.contents c) → v.Holds c

/-- The view of an array; no elements if there is none. -/
def shown (g : Graph) (s : State) (id : NodeId) : View :=
  (g.viewAt s id).toOption.getD (.ofArray #[] [0])

/-- The pending changes of an array; none if there is none. -/
def pending (g : Graph) (s : State) (id : NodeId) : List (Update Binary64) :=
  (g.diffAt s id).toOption.getD []

/-- The elements of an array, if they can be read. -/
def elementsOf (g : Graph) (s : State) (id : NodeId) : Option (List Binary64) :=
  (g.view s id).toOption.bind fun v => v.toList.toOption

/-- An array is seen as its description says.  Its elements can be counted if
those of its shape can. -/
structure Seen (g : Graph) (s : State) (id : NodeId) (d : Description) : Prop where
  view : g.viewAt s id = .ok (g.shown s id)
  regular : (g.shown s id).Regular
  extents : d.shape.Shows (g.rowsIn s d.rows.origin) (g.shown s id).extents
  counted : d.shape.Counts → RowMajor.CountsFrom 1 (g.shown s id).extents
  cells : ∀ k < (g.shown s id).size, d.Keeps g.HoldsNaN ((g.shown s id).cell k)

/-- Every array before the node `id` that has a frame is seen. -/
def SeenBelow (g : Graph) (s : State) (id : NodeId) : Prop :=
  ∀ (p : Nat) (d : Description), p < id → g.describe p = .ok d → g.Framed p → g.Seen s p d

theorem shown_eq {v : View} (h : g.viewAt s id = .ok v) : g.shown s id = v := by
  rw [shown, h]
  rfl

theorem Framed.viewAt_constant {c : Constant} (h : g.Framed id)
    (hn : g.nodes[id]? = some (.constant c)) : g.viewAt s id = .ok (.ofArray c.values c.extents) :=
  (Graph.viewAt_constant hn).trans (View.layOut_eq_ok.mpr ⟨h.laysOut_constant hn, rfl⟩)

theorem viewAt_contents {v : Variable} {c : Variable.Contents} (hn : g.nodes[id]? = some (.leaf v))
    (hs : s.slot? id = some (.contents c)) :
    g.viewAt s id = bufferView v.shape c.elements.values := by
  rw [viewAt_leaf hn, State.contents_eq hs]
  rfl

theorem viewAt_gathered {a : AdvancedIndexing} {x : Gathered}
    (hn : g.nodes[id]? = some (.advanced a)) (hs : s.slot? id = some (.gathered x)) :
    g.viewAt s id = bufferView a.shape x.values.values := by
  rw [viewAt_advanced hn, State.gathered_eq hs]
  rfl

theorem Seen.shown_leaf {v : Variable} {c : Variable.Contents} (h : g.Seen s id d)
    (hn : g.nodes[id]? = some (.leaf v)) (hs : s.slot? id = some (.contents c)) :
    g.shown s id = .ofArray c.elements.values (v.shape.extentsOf c.elements.values.size) :=
  (frame_of_bufferView ((viewAt_contents hn hs).symm.trans h.view)).2

theorem Seen.shown_advanced {a : AdvancedIndexing} {x : Gathered} (h : g.Seen s id d)
    (hn : g.nodes[id]? = some (.advanced a)) (hs : s.slot? id = some (.gathered x)) :
    g.shown s id = .ofArray x.values.values (a.shape.extentsOf x.values.values.size) :=
  (frame_of_bufferView ((viewAt_gathered hn hs).symm.trans h.view)).2

theorem pending_eq {diff : List (Update Binary64)} (h : g.diffAt s id = .ok diff) :
    g.pending s id = diff := by
  rw [pending, h]
  rfl

theorem pending_of_owns {slot : Slot} (hd : g.describe id = .ok d) (hn : g.nodes[id]? = some node)
    (ho : node.Owns slot) (hs : s.slot? id = some slot) : g.pending s id = slot.diff :=
  pending_eq (diffAt_of_owns hd hn ho hs)

theorem Seen.of_view {v : View} (h : g.viewAt s id = .ok v) (hregular : v.Regular)
    (hextents : d.shape.Shows (g.rowsIn s d.rows.origin) v.extents)
    (hcounted : d.shape.Counts → RowMajor.CountsFrom 1 v.extents)
    (hcells : ∀ k < v.size, d.Keeps g.HoldsNaN (v.cell k)) : g.Seen s id d := by
  have heq := shown_eq h
  exact ⟨by rw [heq, h], by rw [heq]; exact hregular, by rw [heq]; exact hextents,
    by rw [heq]; exact hcounted, by rw [heq]; exact hcells⟩

theorem Seen.size_eq (h : g.Seen s id d) : (g.shown s id).size = g.sizeBy s d := h.extents.size_eq

theorem Seen.framed (h : g.Seen s id d) (hb : g.Built) (hd : g.describe id = .ok d) :
    g.Framed id := .of_eq (hb.frame_of_viewAt hd h.view).1

section Counted

variable (h : g.Seen s id d) (hc : d.shape.Counts)
include h hc

theorem Seen.count_eq : (g.shown s id).count = .ok (g.shown s id).size :=
  View.count_eq_ok.mpr ⟨h.counted hc, rfl⟩

theorem Seen.sizeAt_eq (hd : g.describe id = .ok d) : g.sizeAt s id = .ok (g.sizeBy s d) := by
  rw [Graph.sizeAt_eq hd, (Shape.count_eq_ok (n := d.shape.size?)).mpr ⟨hc, rfl⟩, h.view]
  cases hdyn : d.shape.isDynamic with
  | false =>
    rw [Shape.sizeWith_of_not_isDynamic hdyn (g.rowsIn s d.rows.origin)]
    rfl
  | true =>
    have hnone : d.shape.size? = none := by
      cases hs : d.shape with
      | static ns => rw [hs] at hdyn; cases hdyn
      | dynamic ns => rfl
    rw [hnone, ← h.size_eq]
    exact h.count_eq hc

theorem Seen.extentsAt_eq (hrow : d.shape.countRow = .ok d.shape.rowSize)
    (hd : g.describe id = .ok d) :
    g.extentsAt s id = .ok (d.shape.extentsOf (g.sizeBy s d)) := by
  refine Outcome.bind_eq_ok.mpr ⟨d, descriptionAt_eq hd, ?_⟩
  refine Outcome.bind_eq_ok.mpr ⟨_, h.sizeAt_eq hc hd, ?_⟩
  exact Shape.resolve_eq_ok.mpr ⟨(Shape.countRow_eq_ok.mp hrow).1, rfl⟩

end Counted

/-- The elements of an array that can be counted can be read. -/
theorem Seen.toList_eq (h : g.Seen s id d) (hc : d.shape.Counts) :
    (g.shown s id).toList = .ok (g.shown s id).cells :=
  View.toList_eq h.regular.readable (h.count_eq hc)

namespace Seen

variable (h : g.Seen s id d) (hf : g.Full s) (hd : g.describe id = .ok d)
include h hf hd

theorem view_eq : g.view s id = .ok (g.shown s id) := by
  rw [Graph.view_eq hf hd, h.view]
  rfl

theorem elementsOf_eq (hc : d.shape.Counts) : g.elementsOf s id = some (g.shown s id).cells := by
  rw [elementsOf, h.view_eq hf hd]
  show (g.shown s id).toList.toOption = _
  rw [h.toList_eq hc]
  rfl

theorem sizeIn_eq (hc : d.shape.Counts) : g.sizeIn s id = .ok (g.sizeBy s d) := by
  rw [Graph.sizeIn_eq hf hd, h.sizeAt_eq hc hd]
  rfl

theorem extentsIn_eq (hc : d.shape.Counts) (hrow : d.shape.countRow = .ok d.shape.rowSize) :
    g.extentsIn s id = .ok (d.shape.extentsOf (g.sizeBy s d)) := by
  rw [Graph.extentsIn_eq hf hd, h.extentsAt_eq hc hrow hd]
  rfl

end Seen

/-- The rows of an array are at least as many as its description promises. -/
theorem minRows_le_rowsIn (hb : g.Built) (hr : g.Ruled s) (hd : g.describe id = .ok d)
    (hdyn : d.shape.isDynamic = true) : d.rows.minRows ≤ g.rowsIn s d.rows.origin := by
  obtain ⟨v, hn, hv, hrows⟩ := hb.origin hd hdyn
  rw [hrows]
  unfold rowsIn
  have horigin : (v.description d.rows.origin).rows.origin = d.rows.origin := by rw [← hrows]
  rw [horigin, hn]
  dsimp only
  split
  · next c hslot => exact (hr _ v c hn hslot).minRows_le _ hv
  · exact Nat.le_of_eq (v.rowsIn_initial d.rows.origin hv).symm

/-! ### Current slots -/

/-- The blocks of an advanced selection, the node `id`, with the rows of its
arrays. -/
def blocksIn (g : Graph) (s : State) (id : NodeId) (a : AdvancedIndexing) : Blocks :=
  a.blocksAt (g.rowsIn s a.sourceDescription.rows.origin)
    (a.broadcast.sizeWith (g.rowsIn s (a.description id).rows.origin))

/-- The slot of a node holds what it would hold if it were made anew. -/
inductive Current (g : Graph) (s : State) (id : NodeId) : Node → Slot → Prop
  | constant (c : Constant) : Current g s id (.constant c) .constant
  | leaf {v : Variable} {c : Variable.Contents} (h : v.Holds c) : Current g s id (.leaf v) (.contents c)
  | basic {b : BasicIndexing} {diff : List (Update Binary64)}
      (h : b.translateDiff (g.pending s b.source) = .ok diff) : Current g s id (.basic b) (.translated diff)
  | advanced {a : AdvancedIndexing} {x : Gathered}
      (h : x.Mirrors (g.sizeBy s (a.description id)) (a.offset (g.blocksIn s id a) (g.shown s))
        (g.shown s a.source).cell) : Current g s id (.advanced a) (.gathered x)
  | validation (w : NodeId) (xs : List Binary64) : Current g s id (.validation w) (.watched xs)

theorem Current.owns {slot : Slot} (h : g.Current s id node slot) : node.Owns slot := by
  cases h with
  | constant c => exact .constant c
  | leaf _ => exact .leaf _ _
  | basic _ => exact .basic _ _
  | advanced _ => exact .advanced _ _
  | validation w xs => exact .validation w xs

/-- The node has a slot, and it is current. -/
def CurrentAt (g : Graph) (s : State) (id : NodeId) : Prop :=
  ∀ node, g.nodes[id]? = some node → ∃ slot, s.slot? id = some slot ∧ g.Current s id node slot

theorem CurrentAt.diffAt_eq (h : g.CurrentAt s id) (hd : g.describe id = .ok d) :
    g.diffAt s id = .ok (g.pending s id) := by
  obtain ⟨node, hn, -⟩ := describe_eq_ok.mp hd
  obtain ⟨slot, hslot, hcur⟩ := h node hn
  have heq := diffAt_of_owns hd hn hcur.owns hslot
  rw [pending_eq heq, heq]

/-- What a step of an advanced selection finds: the blocks `b`, the views of
what it reads, and that nothing is read that is not there. -/
structure Finds (g : Graph) (s : State) (id : NodeId) (a : AdvancedIndexing) (b : Blocks) : Prop where
  blocks : g.blocksOf s a = .ok b
  count : b.count = .ok b.size
  size_eq : b.size = g.sizeBy s (a.description id)
  eq_blocksIn : b.size ≠ 0 → b = g.blocksIn s id a
  indexers : g.indexerViews s a = .ok (a.indexers.map (g.shown s ·.node))
  source : g.viewAt s a.source = .ok (g.shown s a.source)
  readable : (g.shown s a.source).Readable
  room : b.size ≤ maxElements
  canRead : a.CanRead (g.shown s) b.broadcast
  offset_lt : ∀ p < b.size, a.offset b (g.shown s) p < (g.shown s a.source).size

section Advanced

variable {a : AdvancedIndexing} {picked : List AdvancedIndexing.Picked}

/-- The rows in front of a selection are those of the result. -/
theorem rows_of_pre (hfits : a.Fits g.describe picked) (id : NodeId)
    (hpre : ∃ x ∈ a.pre, x.dim = .dynamic) :
    a.sourceDescription.shape.isDynamic = true ∧
      (a.description id).rows = a.sourceDescription.rows := by
  obtain ⟨x, hx, hdim⟩ := hpre
  have hsource : a.sourceDescription.shape.isDynamic = true :=
    Shape.isDynamic_iff.mpr (hdim ▸ hfits.pre_dims x hx)
  have hshape : a.shape.isDynamic = true := by
    rw [Shape.isDynamic_iff, hfits.dims, List.append_assoc]
    exact List.mem_append_left _ (hdim ▸ List.mem_map_of_mem hx)
  have hrows := hfits.rows_source (hfits.static (List.ne_nil_of_mem hx)) hshape
  refine ⟨hsource, ?_⟩
  simp only [AdvancedIndexing.description, hrows, Option.getD_some]

/-- A dynamic index array has the rows of the result. -/
theorem origin_picked (hfits : a.Fits g.describe picked) {e : AdvancedIndexing.Picked}
    (he : e ∈ picked) (hdyn : e.2.2.shape.isDynamic = true) (id : NodeId) :
    e.2.2.rows.origin = (a.description id).rows.origin := by
  have hshape := (hfits.shapes e he).resolve_left (Shape.rank_ne_zero_of_isDynamic hdyn)
  obtain ⟨r, hr, -, horigins⟩ := hfits.rows_broadcast (hshape ▸ hdyn)
  rw [horigins e he hdyn]
  simp only [AdvancedIndexing.description, hr, Option.getD_some]

/-- The index arrays are as long as their common shape says. -/
theorem sizeBy_picked (hfits : a.Fits g.describe picked) {e : AdvancedIndexing.Picked}
    (he : e ∈ picked) (hrank : e.2.2.shape.rank ≠ 0) (id : NodeId) :
    g.sizeBy s e.2.2 = a.broadcast.sizeWith (g.rowsIn s (a.description id).rows.origin) := by
  rw [← (hfits.shapes e he).resolve_left hrank]
  exact Shape.sizeWith_congr fun hdyn => congrArg (g.rowsIn s) (origin_picked hfits he hdyn id)

theorem size_blocksIn (hfits : a.Fits g.describe picked) (s : State) (id : NodeId) :
    (g.blocksIn s id a).size = g.sizeBy s (a.description id) := by
  refine AdvancedIndexing.size_blocks hfits fun hpre => ?_
  rw [(rows_of_pre hfits id hpre).2]

/-- How many rows stand in front of a selection, as they are counted in its
source: rows without elements are none. -/
def FrontRows (g : Graph) (s : State) (a : AdvancedIndexing) (rows : Nat) : Prop :=
  (∃ x ∈ a.pre, x.dim = .dynamic) →
    if a.sourceDescription.shape.rowSize = 0 then rows = 0
    else rows = g.rowsIn s a.sourceDescription.rows.origin

/-- Counted rows make the blocks of the result, or there are no positions. -/
theorem FrontRows.blocksAt {rows : Nat} (h : g.FrontRows s a rows) (hfits : a.Fits g.describe picked)
    (hb : g.Built) (id : NodeId) :
    (a.blocksAt rows (g.blocksIn s id a).broadcast).size = (g.blocksIn s id a).size ∧
      ((a.blocksAt rows (g.blocksIn s id a).broadcast).size ≠ 0 →
        a.blocksAt rows (g.blocksIn s id a).broadcast = g.blocksIn s id a) := by
  by_cases hpre : ∃ x ∈ a.pre, x.dim = .dynamic
  · have hrows := h hpre
    by_cases hz : a.sourceDescription.shape.rowSize = 0
    · have hempty : a.sourceDescription.shape.sizeWith 1 = 0 := by
        rw [Shape.sizeWith_of_isDynamic (rows_of_pre hfits id hpre).1, hz]
      have hzero := AdvancedIndexing.size_blocks_eq_zero hfits
        (fun e he hi => hb.min_le_max (hfits.described e he) hi) hempty
      rw [hzero, blocksIn, hzero]
      exact ⟨rfl, fun h => absurd rfl h⟩
    · rw [if_neg hz] at hrows
      rw [hrows]
      exact ⟨rfl, fun _ => rfl⟩
  · have hfixed : ∀ x ∈ a.pre, x.dim ≠ .dynamic := fun x hx hdim => hpre ⟨x, hx, hdim⟩
    have heq : a.blocksAt rows (g.blocksIn s id a).broadcast = g.blocksIn s id a :=
      congrArg (Blocks.mk · _ _) (AdvancedIndexing.extents_fixed hfixed rows
        (g.rowsIn s a.sourceDescription.rows.origin))
    rw [heq]
    exact ⟨rfl, fun _ => rfl⟩

/-- The positions of the blocks can be counted where the arrays are in room. -/
theorem FrontRows.counts {rows : Nat} (h : g.FrontRows s a rows) (hfits : a.Fits g.describe picked)
    (hwords : g.GathersAt a) (hb : g.Built) (hroom : g.InRoom s)
    (hd : g.describe id = .ok (a.description id)) :
    (a.blocksAt rows (g.blocksIn s id a).broadcast).Counts := by
  refine AdvancedIndexing.counts_with_rows hfits hwords.blocks (fun hpre => ?_) (fun hdyn => ?_) ?_
  · have hrows := h hpre
    have hsourceDyn := (rows_of_pre hfits id hpre).1
    by_cases hz : a.sourceDescription.shape.rowSize = 0
    · rw [if_pos hz] at hrows
      rw [hrows, Shape.sizeWith_of_isDynamic hsourceDyn, Nat.zero_mul]
      exact ⟨Nat.zero_le _, fun _ => rfl⟩
    · rw [if_neg hz] at hrows
      rw [hrows]
      refine ⟨hroom a.source a.sourceDescription hfits.source, fun h => ?_⟩
      rw [Shape.sizeWith_of_isDynamic hsourceDyn] at h
      exact (Nat.mul_eq_zero.mp h).resolve_right hz
  · -- a growing block of index values belongs to an index array, which is in room
    obtain ⟨e, he, hcommon⟩ := hfits.common
    have hrank : e.2.2.shape.rank ≠ 0 := by
      rw [hcommon]
      exact Shape.rank_ne_zero_of_isDynamic hdyn
    rw [← sizeBy_picked hfits he hrank id]
    exact hroom e.2.1 e.2.2 (hfits.described e he)
  · refine Nat.le_trans (Nat.le_of_eq (h.blocksAt hfits hb id).1) ?_
    rw [size_blocksIn hfits]
    exact hroom id _ hd

variable (hn : g.nodes[id]? = some (.advanced a)) (hfits : a.Fits g.describe picked)
  (hwords : g.GathersAt a) (hseen : g.SeenBelow s id)
include hn hfits hwords hseen

theorem seen_source : g.Seen s a.source a.sourceDescription :=
  hseen a.source a.sourceDescription (lt_of_advanced hn).1 hfits.source hwords.source

theorem seen_picked {e : AdvancedIndexing.Picked} (he : e ∈ picked) : g.Seen s e.2.1 e.2.2 :=
  hseen e.2.1 e.2.2 (lt_of_picked hn hfits he) (hfits.described e he)
    (hwords.indexers _ (mem_indexers hfits he))

/-- Every index array can be read at every position. -/
theorem canRead : a.CanRead (g.shown s) (g.blocksIn s id a).broadcast := by
  intro ix hix
  rw [hfits.indexers] at hix
  obtain ⟨e, he, rfl⟩ := List.mem_map.mp hix
  have hs := seen_picked hn hfits hwords hseen he
  refine ⟨hs.regular.readable, fun q hq => ?_⟩
  dsimp only
  rw [hs.size_eq]
  by_cases hrank : e.2.2.shape.rank = 0
  · rw [sizeBy, Shape.size_of_rank_zero hrank]
    simp [hrank]
  · rw [sizeBy_picked hfits he hrank id]
    simp only [beq_iff_eq, hrank, if_false]
    exact hq

/-- The number of values of the index arrays, as it is found from them. -/
theorem indexValues_eq : g.indexValues s a = .ok (g.blocksIn s id a).broadcast := by
  show _ = Except.ok (a.broadcast.sizeWith (g.rowsIn s (a.description id).rows.origin))
  unfold indexValues
  rw [(Shape.count_eq_ok (n := a.broadcast.size?)).mpr ⟨hwords.broadcast, rfl⟩, Outcome.ok_bind]
  cases hshape : a.broadcast with
  | static ns => rfl
  | dynamic ns =>
    obtain ⟨e, he, hcommon⟩ := hfits.common
    cases hfind : a.indexers.find? (!·.scalar) with
    | none =>
      have hscalar := List.find?_eq_none.mp hfind _ (mem_indexers hfits he)
      rw [hcommon, hshape] at hscalar
      exact absurd rfl hscalar
    | some ix =>
      have hmem := List.mem_of_find?_eq_some hfind
      have hscalar := List.find?_some hfind
      rw [hfits.indexers] at hmem
      obtain ⟨e', he', rfl⟩ := List.mem_map.mp hmem
      have hrank : e'.2.2.shape.rank ≠ 0 := by simpa using hscalar
      have hdyn : e'.2.2.shape = .dynamic ns :=
        ((hfits.shapes e' he').resolve_left hrank).trans hshape
      have hs := seen_picked hn hfits hwords hseen he'
      show g.sizeAt s e'.2.1 = _
      have hcounts : e'.2.2.shape.Counts := Shape.counts_of_isDynamic (by rw [hdyn]; rfl)
      rw [hs.sizeAt_eq hcounts (hfits.described e' he'), sizeBy_picked hfits he' hrank id, hshape]

/-- The number of rows in front of a selection, as it is found from the source. -/
theorem sourceRows_eq (hb : g.Built) :
    ∃ rows, g.sourceRows s a = .ok rows ∧ g.FrontRows s a rows := by
  unfold sourceRows
  by_cases hpre : ∃ x ∈ a.pre, x.dim = .dynamic
  · have hany : a.pre.any (·.dim == .dynamic) = true := by
      obtain ⟨x, hx, hdim⟩ := hpre
      exact List.any_eq_true.mpr ⟨x, hx, beq_iff_eq.mpr hdim⟩
    have hsource := seen_source hn hfits hwords hseen
    have hdyn := (rows_of_pre hfits id hpre).1
    have hsize := Shape.sizeWith_of_isDynamic hdyn (g.rowsIn s a.sourceDescription.rows.origin)
    have hcounts := Shape.counts_of_isDynamic hdyn
    have hrow := hb.countRow_of_framed hfits.source hwords.source hdyn
    rw [if_pos hany, hsource.sizeAt_eq hcounts hfits.source, hrow]
    refine ⟨_, rfl, fun _ => ?_⟩
    by_cases hz : a.sourceDescription.shape.rowSize = 0
    · rw [if_pos hz, hz, Nat.div_zero]
    · rw [if_neg hz, sizeBy, hsize, Nat.mul_div_cancel _ (Nat.pos_of_ne_zero hz)]
  · have hany : ¬ a.pre.any (·.dim == .dynamic) = true := by
      intro h
      obtain ⟨x, hx, hdim⟩ := List.any_eq_true.mp h
      exact hpre ⟨x, hx, beq_iff_eq.mp hdim⟩
    rw [if_neg hany]
    exact ⟨0, rfl, fun h => absurd h hpre⟩

/-- The blocks of a selection, as they are found from the views.  Rows
without elements are not counted, but then there are no positions either. -/
theorem blocksOf_eq (hb : g.Built) (hroom : g.InRoom s) (hd : g.describe id = .ok (a.description id)) :
    ∃ b, g.blocksOf s a = .ok b ∧ b.Counts ∧
      b.broadcast = (g.blocksIn s id a).broadcast ∧ b.size = (g.blocksIn s id a).size ∧
        (b.size ≠ 0 → b = g.blocksIn s id a) := by
  obtain ⟨rows, hrows, hfront⟩ := sourceRows_eq hn hfits hwords hseen hb
  have hvalues := indexValues_eq hn hfits hwords hseen
  have hcounts := hfront.counts hfits hwords hb hroom hd
  refine ⟨_, ?_, hcounts, rfl, hfront.blocksAt hfits hb id⟩
  refine Outcome.bind_eq_ok.mpr ⟨rows, hrows, Outcome.bind_eq_ok.mpr ⟨_, hvalues, ?_⟩⟩
  exact AdvancedIndexing.blocks_eq_ok.mpr ⟨⟨hcounts.post, hcounts.pre⟩, rfl⟩

/-- The views of the index arrays. -/
theorem indexerViews_eq : g.indexerViews s a = .ok (a.indexers.map (g.shown s ·.node)) := by
  unfold indexerViews
  rw [Outcome.mapM_eq_ok, List.map_map]
  refine List.map_congr_left fun ix hix => ?_
  rw [hfits.indexers] at hix
  obtain ⟨e, he, rfl⟩ := List.mem_map.mp hix
  exact (seen_picked hn hfits hwords hseen he).view

/-- **No position is read that is not there.** -/
theorem offset_lt_source (hb : g.Built) (hr : g.Ruled s) {p : Nat}
    (hp : p < (g.blocksIn s id a).size) :
    a.offset (g.blocksIn s id a) (g.shown s) p < (g.shown s a.source).size := by
  have hsource := seen_source hn hfits hwords hseen
  have hq := (Blocks.position_eq hp).2.1
  rw [hsource.size_eq]
  refine AdvancedIndexing.offset_lt hfits hp (AdvancedIndexing.picks_spec hfits ?_ ?_)
  · exact fun hdyn => minRows_le_rowsIn hb hr hfits.source hdyn
  · intro e he hi
    have hs := seen_picked hn hfits hwords hseen he
    have hlt := (canRead hn hfits hwords hseen _ (mem_indexers hfits he)).2 _ hq
    exact (hs.cells _ hlt).of_integral hi

/-- A step finds everything it needs. -/
theorem exists_finds (hb : g.Built) (hroom : g.InRoom s) (hr : g.Ruled s)
    (hd : g.describe id = .ok (a.description id)) : ∃ b, g.Finds s id a b := by
  obtain ⟨b, hblocks, hcounts, hbroadcast, hsize, heq⟩ :=
    blocksOf_eq hn hfits hwords hseen hb hroom hd
  have hsource := seen_source hn hfits hwords hseen
  have hsizeBy := hsize.trans (size_blocksIn hfits s id)
  exact ⟨b,
    { blocks := hblocks
      count := hcounts.count_eq
      size_eq := hsizeBy
      eq_blocksIn := heq
      indexers := indexerViews_eq hn hfits hwords hseen
      source := hsource.view
      readable := hsource.regular.readable
      room := hsizeBy ▸ hroom id _ hd
      canRead := hbroadcast ▸ canRead hn hfits hwords hseen
      offset_lt := by
        intro p hp
        have hblock := heq (Nat.ne_of_gt (Nat.zero_lt_of_lt hp))
        rw [hblock] at hp ⊢
        exact offset_lt_source hn hfits hwords hseen hb hr hp }⟩

end Advanced

namespace Finds

variable {a : AdvancedIndexing} {b : Blocks} (h : g.Finds s id a b)
include h

/-- To mirror the source in the blocks that are found is to be current. -/
theorem mirrors_iff {x : Gathered} {cell : Nat → Binary64} :
    x.Mirrors b.size (a.offset b (g.shown s)) cell ↔
      x.Mirrors (g.sizeBy s (a.description id)) (a.offset (g.blocksIn s id a) (g.shown s)) cell := by
  rw [← h.size_eq]
  by_cases hz : b.size = 0
  · rw [hz]
    -- there are no positions, whatever the offsets
    exact ⟨fun hx => ⟨hx.valid, hx.size, fun q hq => absurd hq (Nat.not_lt_zero q)⟩,
      fun hx => ⟨hx.valid, hx.size, fun q hq => absurd hq (Nat.not_lt_zero q)⟩⟩
  · rw [← h.eq_blocksIn hz]

/-- The slot that is made, if the elements can be gathered. -/
theorem defaultSlot_eq {x : Gathered}
    (hx : a.gather b (a.indexers.map (g.shown s ·.node)) (g.shown s a.source) = .ok x) :
    g.defaultSlot s (.advanced a) = .ok (.gathered x) := by
  simp only [defaultSlot, h.blocks, h.source, h.indexers]
  show (do return Slot.gathered (← a.gather b _ _)) = _
  rw [hx]
  rfl

/-- A step brings the elements up to date, from what is seen and pending. -/
theorem propagateSlot_eq_ok {picked : List AdvancedIndexing.Picked} {x : Gathered} {new : Slot}
    (hn : g.nodes[id]? = some (.advanced a)) (hfits : a.Fits g.describe picked)
    (hc : ∀ j : Nat, j < id → g.CurrentAt s j) :
    g.propagateSlot s (.advanced a) (.gathered x) = .ok new ↔
      ∃ x', a.refresh b (a.indexers.map (g.shown s ·.node)) (g.shown s a.source)
        (a.indexers.map (g.pending s ·.node)) (g.pending s a.source) x = .ok x' ∧
          .gathered x' = new := by
  have hdiffs : a.indexers.mapM (g.diffAt s ·.node) = .ok (a.indexers.map (g.pending s ·.node)) := by
    rw [Outcome.mapM_eq_ok, List.map_map]
    refine List.map_congr_left fun ix hix => ?_
    have hlt := (lt_of_advanced hn).2 ix hix
    rw [hfits.indexers] at hix
    obtain ⟨e, he, rfl⟩ := List.mem_map.mp hix
    exact (hc e.2.1 hlt).diffAt_eq (hfits.described e he)
  have hsourceDiff := (hc a.source (lt_of_advanced hn).1).diffAt_eq hfits.source
  simp only [propagateSlot, h.blocks, hdiffs, hsourceDiff, h.source, h.indexers]
  exact Outcome.map_eq_ok

end Finds

/-! ### What current slots show -/

section Buffer

variable {shape : Shape} {values : Array Binary64} (hv : g.viewAt s id = bufferView shape values)
  (hlays : shape.LaysOut) (hshape : d.shape = shape)
include hv hlays hshape

/-- A buffer with enough elements is seen under its shape. -/
theorem Seen.of_extents (hshows : d.shape.Shows (g.rowsIn s d.rows.origin) (shape.extentsOf values.size))
    (hle : RowMajor.size (shape.extentsOf values.size) ≤ values.size)
    (hroom : RowMajor.size (shape.extentsOf values.size) ≤ maxElements)
    (hcells : ∀ k < RowMajor.size (shape.extentsOf values.size),
      d.Keeps g.HoldsNaN (values[k]?.getD .nan)) : g.Seen s id d := by
  have hlt : RowMajor.size (shape.extentsOf values.size) < 2 ^ 64 :=
    Nat.lt_of_le_of_lt hroom (by decide)
  refine .of_view (hv.trans (bufferView_eq hlays hlt)) (View.ofArray_regular hle hroom) hshows
    (fun hc => Shape.counts_extentsOf (hshape ▸ hc) hlt) fun k hk => ?_
  rw [View.cell_ofArray]
  exact hcells k hk

/-- A buffer that is as long as it should be is seen under its shape. -/
theorem Seen.of_buffer (hsize : values.size = g.sizeBy s d) (hroom : g.sizeBy s d ≤ maxElements)
    (hcells : ∀ x ∈ values, d.Keeps g.HoldsNaN x) : g.Seen s id d := by
  have hshows := Shape.shows_extentsOf d.shape (g.rowsIn s d.rows.origin)
  have hextents : d.shape.extentsOf (g.sizeBy s d) = shape.extentsOf values.size := by
    rw [← hsize, hshape]
  rw [show d.shape.sizeWith (g.rowsIn s d.rows.origin) = g.sizeBy s d from rfl, hextents] at hshows
  have hsize' : RowMajor.size (shape.extentsOf values.size) = values.size :=
    hshows.size_eq.trans hsize.symm
  refine .of_extents hv hlays hshape hshows (Nat.le_of_eq hsize') ?_ fun k hk => ?_
  · rw [hsize', hsize]
    exact hroom
  · have hlt : k < values.size := hsize' ▸ hk
    rw [Array.getElem?_eq_getElem hlt]
    exact hcells _ (Array.getElem_mem hlt)

/-- Rows without elements show none, whatever is in the buffer. -/
theorem Seen.of_empty (hdyn : shape.isDynamic = true) (hz : shape.rowSize = 0) : g.Seen s id d := by
  cases shape with
  | static ns => cases hdyn
  | dynamic trailing =>
    have hsize : RowMajor.size ((Shape.dynamic trailing).extentsOf values.size) = 0 := by
      show values.size / RowMajor.size trailing * RowMajor.size trailing = 0
      rw [show RowMajor.size trailing = 0 from hz, Nat.mul_zero]
    refine .of_extents hv hlays hshape ?_ (hsize ▸ Nat.zero_le _) (hsize ▸ Nat.zero_le _) ?_
    · rw [hshape]
      exact ⟨_, rfl, fun _ h => absurd hz h⟩
    · intro k hk
      exact absurd (hsize ▸ hk : k < 0) (Nat.not_lt_zero k)

end Buffer

theorem sizeBy_leaf {v : Variable} {c : Variable.Contents} (hn : g.nodes[id]? = some (.leaf v))
    (hs : s.slot? id = some (.contents c)) :
    g.sizeBy s (v.description id) = v.shape.sizeWith (v.rowsIn c) := by
  have horigin : (v.description id).rows.origin = id := by cases v <;> rfl
  have hrows : g.rowsIn s id = v.rowsIn c := by
    unfold rowsIn
    rw [hn]
    dsimp only
    rw [hs]
  rw [sizeBy, Variable.description_shape, horigin, hrows]

theorem Seen.of_leaf {v : Variable} {c : Variable.Contents} (hn : g.nodes[id]? = some (.leaf v))
    (hf : g.Framed id) (hs : s.slot? id = some (.contents c)) (h : v.Holds c)
    (hroom : g.sizeBy s (v.description id) ≤ maxElements) : g.Seen s id (v.description id) := by
  have hv := viewAt_contents hn hs
  have hlays := hf.laysOut_leaf hn
  have hshape := Variable.description_shape id v
  by_cases hz : v.shape.isDynamic = true → v.shape.rowSize ≠ 0
  · refine .of_buffer hv hlays hshape ?_ hroom fun x hx =>
      .inr (Variable.admits_iff.mp (h.admits x hx))
    rw [sizeBy_leaf hn hs]
    exact h.size_eq hz
  · rw [Classical.not_imp, Ne, not_not] at hz
    exact .of_empty hv hlays hshape hz.1 hz.2

/-- A basic selection has the rows of its source. -/
theorem sizeBy_basic (b : BasicIndexing) (s : State) (id : NodeId) :
    g.sizeBy s (b.description id) =
      b.shape.sizeWith (g.rowsIn s b.sourceDescription.rows.origin) := by
  refine Shape.sizeWith_congr fun hdyn => ?_
  rw [show (b.description id).rows = b.sourceDescription.rows from if_pos hdyn]

/-- Every position of a basic selection has a source position. -/
theorem sourceOf_lt_source {b : BasicIndexing} (hfits : b.Fits)
    (hroom : g.sizeBy s b.sourceDescription ≤ maxElements) {k : Nat}
    (hk : k < g.sizeBy s (b.description id)) : b.sourceOf k < g.sizeBy s b.sourceDescription := by
  rw [sizeBy_basic] at hk
  exact BasicIndexing.sourceOf_lt hfits hroom hk

/-- An element of an advanced selection is the one that its offset names. -/
theorem Seen.place?_advanced {a : AdvancedIndexing} {x : Gathered} {n k : Nat} {offset : Nat → Nat}
    {cell : Nat → Binary64} (h : g.Seen s id d) (hn : g.nodes[id]? = some (.advanced a))
    (hs : s.slot? id = some (.gathered x)) (hx : x.Mirrors n offset cell) (hk : k < n) :
    ((g.shown s id).cell k).place? = (cell (offset k)).place? := by
  rw [h.shown_advanced hn hs, View.cell_ofArray]
  exact hx.place?_values hk

/-- The view of a basic selection is found from that of its source. -/
theorem viewAt_basic_eq {b : BasicIndexing} (hn : g.nodes[id]? = some (.basic b)) (hb : g.Built)
    (hsource : g.Seen s b.source b.sourceDescription)
    (hroom : g.sizeBy s b.sourceDescription ≤ maxElements) :
    ∃ m, (g.shown s b.source).extents = b.sourceDescription.shape.withRows m ∧
      b.sourceDescription.shape.sizeWith m ≤ maxElements ∧
        g.viewAt s id = (fun f => (g.shown s b.source).movedTo f.1 (b.shape.withRows m) f.2) <$>
          g.frame id := by
  obtain ⟨hd, hfits⟩ := hb.promises hn
  obtain ⟨m, hextents, -⟩ := hsource.extents
  have hsize : b.sourceDescription.shape.sizeWith m = g.sizeBy s b.sourceDescription := by
    rw [← hsource.size_eq, View.size, hextents]
    rfl
  refine ⟨m, hextents, hsize ▸ hroom, ?_⟩
  rw [viewAt_basic hn, hsource.view, frame_basic hn, (hb.frame_of_viewAt hd hsource.view).1]
  exact BasicIndexing.view_eq hfits (hsize ▸ hroom) hsource.regular hextents

theorem Seen.of_basic {b : BasicIndexing} (hn : g.nodes[id]? = some (.basic b)) (hb : g.Built)
    (hf : g.Framed id) (hsource : g.Seen s b.source b.sourceDescription)
    (hroom : g.sizeBy s b.sourceDescription ≤ maxElements) :
    g.Seen s id (b.description id) ∧
      ∀ k < g.sizeBy s (b.description id),
        (g.shown s id).cell k = (g.shown s b.source).cell (b.sourceOf k) := by
  obtain ⟨-, hfits⟩ := hb.promises hn
  obtain ⟨m, hextents, hle, hview⟩ := viewAt_basic_eq hn hb hsource hroom
  obtain ⟨f, hframe⟩ := Outcome.exists_ok hf
  rw [hframe] at hview
  obtain ⟨v, hv⟩ : ∃ v, g.viewAt s id = .ok v := ⟨_, hview⟩
  have hbv : b.view (g.shown s b.source) = .ok v := by
    rw [← hv, viewAt_basic hn, hsource.view]
    rfl
  obtain ⟨hextents', hregular, -, hcells⟩ :=
    BasicIndexing.view_spec hfits hle hsource.regular hextents hbv
  have hshows : b.shape.Shows (g.rowsIn s (b.description id).rows.origin) v.extents := by
    have hsourceShows := hsource.extents
    rw [hextents] at hsourceShows
    rw [hextents']
    refine ⟨m, rfl, fun hdyn hz => ?_⟩
    have hrows : (b.description id).rows = b.sourceDescription.rows := if_pos hdyn
    rw [hrows]
    exact (BasicIndexing.shows_withRows hfits hsourceShows).rows_eq hdyn hz
  have hcounted : b.shape.Counts → RowMajor.CountsFrom 1 v.extents := by
    intro hc
    rw [hextents']
    cases hdyn : b.shape.isDynamic with
    | false => exact Shape.counts_static hdyn hc m
    | true =>
      -- a growing selection is counted with its source, which grows as well
      refine BasicIndexing.countsFrom_withRows hfits (hextents ▸ hsource.counted ?_)
      exact Shape.counts_of_isDynamic (BasicIndexing.isDynamic_shape hfits ▸ hdyn)
  have hsize : b.sourceDescription.shape.sizeWith m = g.sizeBy s b.sourceDescription := by
    rw [← hsource.size_eq, View.size, hextents]
    rfl
  have hlt : ∀ k < v.size, k < b.shape.sizeWith m := by
    intro k hk
    rw [View.size, hextents'] at hk
    exact hk
  refine ⟨.of_view hv hregular hshows hcounted fun k hk => ?_, fun k hk => ?_⟩
  · rw [hcells k (hlt k hk)]
    refine hsource.cells _ ?_
    rw [hsource.size_eq, ← hsize]
    exact BasicIndexing.sourceOf_lt hfits hle (hlt k hk)
  · rw [shown_eq hv]
    refine hcells k (hlt k ?_)
    rw [View.size, hshows.size_eq]
    exact hk

theorem Seen.of_advanced {a : AdvancedIndexing} {picked : List AdvancedIndexing.Picked}
    {x : Gathered} (hb : g.Built) (hr : g.Ruled s) (hn : g.nodes[id]? = some (.advanced a))
    (hf : g.Framed id) (hfits : a.Fits g.describe picked) (hwords : g.GathersAt a)
    (hseen : g.SeenBelow s id) (hs : s.slot? id = some (.gathered x))
    (hx : x.Mirrors (g.sizeBy s (a.description id)) (a.offset (g.blocksIn s id a) (g.shown s))
      (g.shown s a.source).cell)
    (hroom : g.sizeBy s (a.description id) ≤ maxElements) : g.Seen s id (a.description id) := by
  have hsource := seen_source hn hfits hwords hseen
  refine .of_buffer (viewAt_gathered hn hs) (hf.laysOut_advanced hn) rfl hx.size hroom fun y hy => ?_
  obtain ⟨k, hk⟩ := Array.mem_iff_getElem?.mp hy
  have hlt : k < g.sizeBy s (a.description id) := by
    rw [← hx.size]
    exact (Array.getElem?_eq_some_iff.mp hk).1
  have hplace := hx.place?_values hlt
  rw [hk, Option.getD_some] at hplace
  have hoff := offset_lt_source hn hfits hwords hseen hb hr (size_blocksIn hfits s id ▸ hlt)
  exact (hsource.cells _ hoff).congr hplace

section Current

variable {n : Nat} (hb : g.Built) (hwords : g.GathersBelow n) (hroom : g.InRoom s)
  (hr : g.Ruled s) (hc : ∀ j : Nat, j < n → g.CurrentAt s j)
include hb hwords hroom hr hc

/-- **Current slots are seen as they should be**, where there is a frame to see
them in. -/
theorem seen_of_current (hid : id < n) (hd : g.describe id = .ok d) (hf : g.Framed id) :
    g.Seen s id d := by
  induction id using Nat.strong_induction_on generalizing d with
  | _ id ih =>
    have hseen : g.SeenBelow s id := fun p d hp hd hf => ih p hp (Nat.lt_trans hp hid) hd hf
    obtain ⟨node, hn, hnd⟩ := describe_eq_ok.mp hd
    obtain ⟨slot, hslot, hcur⟩ := hc id hid node hn
    cases hcur with
    | constant c =>
      obtain rfl := Option.some.inj hnd
      have hroom' := hroom id _ hd
      rw [sizeBy, Shape.sizeWith_static] at hroom'
      refine .of_view (hf.viewAt_constant hn) (View.ofArray_regular (Nat.le_of_eq c.size_values.symm) hroom')
        (Shape.shows_withRows (.static c.extents) _) (fun hc => hc) fun k hk => ?_
      have hlt : k < c.values.size := c.size_values ▸ hk
      rw [View.cell_ofArray, Array.getElem?_eq_getElem hlt]
      exact keeps_constant hn (Array.getElem_mem hlt)
    | leaf h =>
      obtain rfl := Option.some.inj hnd
      exact .of_leaf hn hf hslot h (hroom id _ hd)
    | @basic b diff _ =>
      obtain rfl := Option.some.inj hnd
      obtain ⟨hsource, -⟩ := hb.promises hn
      exact (Seen.of_basic hn hb hf (hseen _ _ (lt_of_basic hn) hsource (hf.source hn))
        (hroom _ _ hsource)).1
    | @advanced a x h =>
      obtain rfl := Option.some.inj hnd
      obtain ⟨picked, hfits⟩ := hb.promises hn
      exact .of_advanced hb hr hn hf hfits (hwords id a hid hn) hseen hslot h (hroom id _ hd)
    | validation w xs => cases hnd

/-- A current array that cannot be looked at overflows. -/
theorem view_error_of_current (hid : id < n) (hd : g.describe id = .ok d) {f : Fault}
    (hf : g.viewAt s id = .error f) : f = .overflow := by
  induction id using Nat.strong_induction_on generalizing d with
  | _ id ih =>
    obtain ⟨node, hn, hnd⟩ := describe_eq_ok.mp hd
    obtain ⟨slot, hslot, hcur⟩ := hc id hid node hn
    cases hcur with
    | constant c =>
      rw [viewAt_constant hn, View.layOut_eq, Outcome.if_eq_error] at hf
      exact hf.2.symm
    | leaf h => exact bufferView_eq_error ((viewAt_contents hn hslot).symm.trans hf)
    | @advanced a x h => exact bufferView_eq_error ((viewAt_gathered hn hslot).symm.trans hf)
    | @basic b diff _ =>
      obtain ⟨hsource, -⟩ := hb.promises hn
      have hlt := lt_of_basic hn
      cases hview : g.viewAt s b.source with
      | error f' =>
        rw [viewAt_basic hn, hview] at hf
        obtain rfl := Except.error.inj hf
        exact ih b.source hlt (Nat.lt_trans hlt hid) hsource hview
      | ok v =>
        have hframed : g.Framed b.source := .of_eq (hb.frame_of_viewAt hsource hview).1
        have hseen := seen_of_current hb hwords hroom hr hc (Nat.lt_trans hlt hid) hsource hframed
        obtain ⟨_, -, -, heq⟩ := viewAt_basic_eq hn hb hseen (hroom _ _ hsource)
        rw [heq, Outcome.map_eq_error] at hf
        exact hb.frame_eq_error hd hf
    | validation w xs => cases hnd

end Current

/-- Looking at the array, or asking for its extents, overflows. -/
def Overflows (g : Graph) (s : State) (id : NodeId) : Prop :=
  g.view s id = .error (.fault .overflow) ∨ g.extentsIn s id = .error (.fault .overflow)

instance (g : Graph) (s : State) (id : NodeId) : Decidable (g.Overflows s id) :=
  inferInstanceAs (Decidable (_ ∨ _))

/-- A variable is plain, or it overflows when it is looked at. -/
theorem overflows_or_plain_leaf {v : Variable} {c : Variable.Contents} (h : g.Full s)
    (hn : g.nodes[id]? = some (.leaf v)) (hs : s.slot? id = some (.contents c)) (hc : v.Holds c) :
    g.Overflows s id ∨ g.Plain id (v.description id) := by
  have hd : g.describe id = .ok (v.description id) := describe_eq_ok.mpr ⟨_, hn, rfl⟩
  cases hview : g.viewAt s id with
  | error f =>
    have hf := bufferView_eq_error ((viewAt_contents hn hs).symm.trans hview)
    refine .inl (.inl ?_)
    rw [view_eq h hd, hview, hf]
    rfl
  | ok w =>
    have hframe := (frame_of_bufferView ((viewAt_contents hn hs).symm.trans hview)).1
    exact .inr ((Framed.of_eq ((frame_leaf hn).trans hframe)).plain_leaf hn hc.counts)

/-- A state in which all slots are current and all arrays have room.  What was
gathered could be computed in words. -/
structure Settled (g : Graph) (s : State) : Prop where
  graph : s.graph = g.identity
  size : s.size = g.size
  gathers : g.Gathers
  inRoom : g.InRoom s
  ruled : g.Ruled s
  current : ∀ id : Nat, g.CurrentAt s id

namespace Settled

theorem full (h : g.Settled s) : g.Full s where
  graph := h.graph
  size := h.size
  slots i hi := by
    obtain ⟨slot, hslot, -⟩ := h.current i g.nodes[i] (Array.getElem?_eq_getElem hi)
    exact ⟨slot, hslot⟩

section Seen

variable (h : g.Settled s) (hb : g.Built) (hd : g.describe id = .ok d)
include h hb hd

theorem seen (hf : g.Framed id) : g.Seen s id d :=
  seen_of_current hb (h.gathers _) h.inRoom h.ruled (fun j _ => h.current j) (Nat.lt_succ_self id) hd hf

/-- What has been read are all the elements that are shown. -/
theorem toList_eq_cells {v : View} (hv : g.viewAt s id = .ok v) {xs : List Binary64}
    (hxs : v.toList = .ok xs) : xs = (g.shown s id).cells := by
  obtain ⟨hf, hcounts⟩ := hb.readable_of_toList hd hv hxs
  have hseen := h.seen hb hd hf
  rw [hseen.view] at hv
  obtain rfl := Except.ok.inj hv
  exact Except.ok.inj (hxs.symm.trans (hseen.toList_eq hcounts))

theorem view_of_not_framed (hf : ¬ g.Framed id) : g.view s id = .error (.fault .overflow) := by
  rw [view_eq h.full hd]
  cases hview : g.viewAt s id with
  | ok v => exact absurd (.of_eq (hb.frame_of_viewAt hd hview).1) hf
  | error f =>
    rw [view_error_of_current hb (h.gathers _) h.inRoom h.ruled (fun j _ => h.current j)
      (Nat.lt_succ_self id) hd hview]
    rfl

/-- **An array is plain, or it overflows** when it is looked at or asked for its
extents. -/
theorem overflows_or_plain : g.Overflows s id ∨ g.Plain id d := by
  by_cases hf : g.Framed id
  · have hseen := h.seen hb hd hf
    by_cases hc : d.shape.Counts
    · by_cases hrow : d.shape.countRow = .ok d.shape.rowSize
      · exact .inr ⟨hf, hc, hrow⟩
      · refine .inl (.inr ?_)
        rw [extentsIn_eq h.full hd, extentsAt, descriptionAt_eq hd]
        show liftM (g.sizeAt s id >>= d.shape.resolve) = _
        rw [hseen.sizeAt_eq hc hd]
        show liftM (d.shape.resolve _) = _
        rw [Shape.resolve_eq, if_neg fun h => hrow (Shape.countRow_eq_ok.mpr ⟨h, rfl⟩)]
        rfl
    · refine .inl (.inr ?_)
      rw [extentsIn_eq h.full hd, extentsAt, descriptionAt_eq hd]
      show liftM (g.sizeAt s id >>= d.shape.resolve) = _
      rw [sizeAt_eq hd, Shape.count_eq, if_neg hc]
      rfl
  · exact .inl (.inl (h.view_of_not_framed hb hd hf))

end Seen

end Settled

end Graph
end ArrayFlow
