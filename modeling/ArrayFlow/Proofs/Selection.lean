import ArrayFlow.Proofs.Acceptance
import ArrayFlow.Proofs.Protocol

/-!
# What a selection by index arrays shows

The program never makes coordinates for the result of advanced indexing.  It
divides a position by the sizes of the blocks, and adds up what the blocks
contribute to a position of the source.  What comes out is the rule for
selections that is stated with coordinates only (`Graph.Selects`):

* the extents are those of the whole axes in front, of the index arrays, and
  of the other whole axes, as they are in that state;
* the element at coordinates `α` in front, `β` in the index arrays and `γ`
  behind is the source element at `α` and `γ` along the whole axes and, along
  each other axis, at the value of its index array at `β`.

An array without elements can have extents that are too large to be multiplied
up: then asking for them overflows, and there is nothing to be compared with the
rule (`selects_fails`).  With elements nothing overflows (`Seen.plain`).

What is known of a selection in a state is collected once (`Selected`).  The
argument follows a position through both computations: `Blocks.index_eq` takes
it apart into the three blocks, and `Selected.offset_position` puts the source
position together (`weave_position`).
-/

namespace ArrayFlow

open AdvancedIndexing

/-- The number is `n`. -/
def Binary64.IsNat (x : Binary64) (n : Nat) : Prop :=
  x.place? = some ((n * Binary64.one : Nat) : Int)

/-- The extents of a result whose source shows `m` rows and whose index arrays
have extents `B`. -/
def AdvancedIndexing.extentsWith (a : AdvancedIndexing) (m : Nat) (B : List Nat) : List Nat :=
  a.pre.map (axisExtent m) ++ B ++ a.post.map (axisExtent m)

namespace Graph

variable {g : Graph} {committed now s : State} {edited : List NodeId} {id source : NodeId}
  {terms : List IndexTerm} {d : Description}

/-! ### The rule -/

/-- The element of an array at some coordinates. -/
def elementAt (g : Graph) (s : State) (id : NodeId) (cs : List Nat) : Option Binary64 :=
  (g.extentsIn s id).toOption.bind fun ns =>
    (g.elementsOf s id).bind fun xs => xs[RowMajor.flatten cs (RowMajor.weights ns)]?

/-- The value of an index array at coordinates of the common shape.  An array
without axes has only one. -/
def indexAt (g : Graph) (s : State) (node : NodeId) (cs : List Nat) : Option Binary64 :=
  (g.extentsIn s node).toOption.bind fun ns => g.elementAt s node (if ns = [] then [] else cs)

/-- The array `id` shows what `terms` select from the array `source`, if that
has extents `ns` and the index arrays have extents `B`. -/
structure Selects (g : Graph) (s : State) (id source : NodeId) (terms : List IndexTerm)
    (ns B : List Nat) : Prop where
  source_extents : g.extentsIn s source = .ok ns
  index_extents : ∀ node ∈ nodesAmong terms, g.extentsIn s node = .ok [] ∨ g.extentsIn s node = .ok B
  common_extents : ∃ node ∈ nodesAmong terms, g.extentsIn s node = .ok B
  size : g.sizeIn s id = .ok (RowMajor.size (front terms ns ++ B ++ behind terms ns))
  /-- Rows without elements are not counted. -/
  extents : 0 ∉ (front terms ns ++ B ++ behind terms ns).tail →
    g.extentsIn s id = .ok (front terms ns ++ B ++ behind terms ns)
  elements : ∀ α β γ, RowMajor.Within α (front terms ns) → RowMajor.Within β B →
    RowMajor.Within γ (behind terms ns) →
    ∃ ps x y, List.Forall₂ (fun node p => ∃ i, g.indexAt s node β = some i ∧ i.IsNat p)
        (nodesAmong terms) ps ∧
      g.elementAt s id (α ++ β ++ γ) = some x ∧
      g.elementAt s source (weave terms (α ++ γ) ps) = some y ∧ (x == y) = true

/-! ### Where selections come from -/

theorem advancedIndexing_mono {g' : Graph} {node : Node}
    (hd : ∀ i d, g.describe i = .ok d → g'.describe i = .ok d) (hid : g'.identity = g.identity)
    (h : g.advancedIndexing source terms = .ok node) :
    g'.advancedIndexing source terms = .ok node := by
  obtain ⟨a, ha, rfl⟩ := advancedIndexing_eq_ok.mp h
  obtain ⟨d, picked, common, rows, shape, hpasses, hlays, rfl⟩ := ofTerms_eq_ok.mp ha
  refine advancedIndexing_eq_ok.mpr ⟨_, ofTerms_eq_ok.mpr ?_, rfl⟩
  exact ⟨d, picked, common, rows, shape, hpasses.mono hd, hlays, by rw [hid]⟩

theorem basicIndexing_mono {g' : Graph} {selectors : List Selector} {node : Node}
    (hd : ∀ i d, g.describe i = .ok d → g'.describe i = .ok d) (hid : g'.identity = g.identity)
    (h : g.basicIndexing source selectors = .ok node) :
    g'.basicIndexing source selectors = .ok node := by
  obtain ⟨d, hsource, hb⟩ := Outcome.bind_eq_ok.mp h
  refine Outcome.bind_eq_ok.mpr
    ⟨d, Outcome.refusable_eq_ok.mpr (hd _ _ (Outcome.refusable_eq_ok.mp hsource)), ?_⟩
  rw [hid]
  exact hb

theorem Offers.mono {g' : Graph} {node : Node}
    (hd : ∀ i d, g.describe i = .ok d → g'.describe i = .ok d) (hid : g'.identity = g.identity)
    (h : g.Offers node) : g'.Offers node := by
  cases h with
  | constant c => exact .constant c
  | leaf v => exact .leaf v
  | basic h => exact .basic (basicIndexing_mono hd hid h)
  | advanced h => exact .advanced (advancedIndexing_mono hd hid h)
  | validation w => exact .validation w

/-- Every node of a graph is one that its constructor still gives. -/
theorem Built.offers (h : g.Built) {node : Node} (hn : g.nodes[id]? = some node) :
    g.Offers node := by
  induction h generalizing id with
  | empty identity =>
    have hnone : (Graph.empty identity).nodes[id]? = none := Array.getElem?_eq_none (Nat.zero_le _)
    rw [hnone] at hn
    cases hn
  | @add g g' new i _ offered added ih =>
    obtain ⟨-, hnodes, hid⟩ := add_eq_ok added
    rw [hnodes, Array.getElem?_push] at hn
    have hmono : ∀ i d, g.describe i = .ok d → g'.describe i = .ok d :=
      fun i d hd => describe_add added hd
    split at hn
    · obtain rfl := Option.some.inj hn
      exact offered.mono hmono hid
    · exact (ih hn).mono hmono hid
  | @freeze g _ ih => exact @Offers.mono g g.freeze _ (fun _ _ hd => hd) rfl (ih hn)

/-- Every selection of a graph is one that its arrays still give. -/
theorem Built.exists_terms (h : g.Built) {a : AdvancedIndexing}
    (hn : g.nodes[id]? = some (.advanced a)) :
    ∃ source terms, g.advancedIndexing source terms = .ok (.advanced a) := by
  cases h.offers hn with
  | basic hbasic =>
    obtain ⟨d, -, hb⟩ := Outcome.bind_eq_ok.mp hbasic
    obtain ⟨b, -, hb⟩ := Outcome.bind_eq_ok.mp hb
    cases hb
  | advanced hadvanced => exact ⟨_, _, hadvanced⟩

theorem Built.exists_selectors (h : g.Built) {b : BasicIndexing}
    (hn : g.nodes[id]? = some (.basic b)) :
    ∃ source selectors, g.basicIndexing source selectors = .ok (.basic b) := by
  cases h.offers hn with
  | basic hbasic => exact ⟨_, _, hbasic⟩
  | advanced hadvanced =>
    obtain ⟨a, -, ha⟩ := advancedIndexing_eq_ok.mp hadvanced
    cases ha

/-! ### The elements of an array -/

theorem Seen.size_extentsOf (h : g.Seen s id d) :
    RowMajor.size (d.shape.extentsOf (g.sizeBy s d)) = (g.shown s id).size := by
  rw [h.size_eq]
  exact (Shape.shows_extentsOf d.shape _).size_eq

/-- **With elements nothing overflows.** -/
theorem Seen.plain (h : g.Seen s id d) (hb : g.Built) (hd : g.describe id = .ok d)
    (hne : (g.shown s id).size ≠ 0) : g.Plain id d := by
  obtain ⟨m, hextents, -⟩ := h.extents
  have hsize : d.shape.sizeWith m = (g.shown s id).size := by
    rw [View.size, hextents]
    rfl
  have hlt : d.shape.sizeWith m < 2 ^ 64 := hsize ▸ Nat.lt_of_le_of_lt h.regular.readable.size_le (by decide)
  obtain ⟨hcounts, hrow, -⟩ := Shape.words_of_size (hsize ▸ hne) hlt
  exact ⟨h.framed hb hd, hcounts, hrow⟩

theorem elementAt_eq (hf : g.Full s) (hd : g.describe id = .ok d) (hplain : g.Plain id d)
    (hseen : g.Seen s id d) {ns cs : List Nat} (hns : g.extentsIn s id = .ok ns)
    (hk : RowMajor.flatten cs (RowMajor.weights ns) < (g.shown s id).size) :
    g.elementAt s id cs =
      some ((g.shown s id).cell (RowMajor.flatten cs (RowMajor.weights ns))) := by
  unfold elementAt
  rw [hns, hseen.elementsOf_eq hf hd hplain.counts]
  show (g.shown s id).cells[_]? = _
  rw [View.getElem?_cells, if_pos hk]

/-! ### A selection in a state -/

/-- An array `id` that was made by advanced indexing and does not overflow, in a
state that is up to date: its source shows `m` rows, and the index arrays with
axes have extents `B`. -/
structure Selected (g : Graph) (s : State) (id source : NodeId) (terms : List IndexTerm)
    (a : AdvancedIndexing) (picked : List Picked) (m : Nat) (B : List Nat) : Prop where
  built : g.Built
  settled : g.Settled s
  node : g.nodes[id]? = some (.advanced a)
  fits : a.Fits g.describe picked
  plain : g.Plain id (a.description id)
  source_eq : a.source = source
  nodes : picked.map (·.2.1) = nodesAmong terms
  front_eq : front terms (axesOf a.sourceDescription) = a.pre
  behind_eq : behind terms (axesOf a.sourceDescription) = a.post
  weave_position : ∀ ws ps, RowMajor.Within ws ((a.pre ++ a.post).map (axisExtent m)) →
    Picks picked m ps →
    RowMajor.Within (weave terms ws ps) (a.sourceDescription.shape.withRows m) ∧
      RowMajor.flatten (weave terms ws ps) a.sourceDescription.shape.weights =
        RowMajor.flatten ws ((a.pre ++ a.post).map (axisWeight a.sourceDescription.shape)) +
        RowMajor.flatten ps (picked.map (axisWeight a.sourceDescription.shape ·.1))
  source_shows : a.sourceDescription.shape.extentsOf (g.sizeBy s a.sourceDescription) =
    a.sourceDescription.shape.withRows m
  /-- Rows without elements are not counted. -/
  rows : a.sourceDescription.shape.isDynamic = true → a.sourceDescription.shape.rowSize ≠ 0 →
    m = g.rowsIn s a.sourceDescription.rows.origin
  indexers_show : a.broadcast.extentsOf
    (a.broadcast.sizeWith (g.rowsIn s (a.description id).rows.origin)) = B

theorem Settled.selected_of_passes (hs : g.Settled s) (hb : g.Built) {picked : List Picked}
    {common shape : Shape} {rows : Option RowSpan}
    (h : Passes g.describe source terms d picked common rows shape) (hlays : d.shape.LaysOut)
    (hn : g.nodes[id]? =
      some (.advanced (accepted g.identity source terms d picked common rows shape)))
    (hplain : ∀ e, g.describe id = .ok e → g.Plain id e) :
    ∃ m B, g.Selected s id source terms
      (accepted g.identity source terms d picked common rows shape) picked m B := by
  obtain ⟨m, hns, hm⟩ := Shape.shows_extentsOf d.shape (g.rowsIn s d.rows.origin)
  exact ⟨m, _,
    { built := hb
      settled := hs
      node := hn
      fits := h.fits g.identity hlays
      plain := hplain _ (describe_eq_ok.mpr ⟨_, hn, rfl⟩)
      source_eq := rfl
      nodes := h.nodes
      front_eq := rfl
      behind_eq := rfl
      weave_position := fun _ _ hws hps => h.weave_position hws hps
      source_shows := hns
      rows := hm
      indexers_show := rfl }⟩

/-- The whole axes in front have the extents of the front block. -/
theorem front_withRows (terms : List IndexTerm) (d : Description) (m : Nat) :
    front terms (d.shape.withRows m) = (front terms (axesOf d)).map (axisExtent m) := by
  rw [Shape.withRows_eq_map, ← axesOf_dims, List.map_map, map_front]
  rfl

theorem behind_withRows (terms : List IndexTerm) (d : Description) (m : Nat) :
    behind terms (d.shape.withRows m) = (behind terms (axesOf d)).map (axisExtent m) := by
  rw [Shape.withRows_eq_map, ← axesOf_dims, List.map_map, map_behind]
  rfl

namespace Selected

variable {a : AdvancedIndexing} {picked : List Picked} {m : Nat} {B : List Nat}
  (h : g.Selected s id source terms a picked m B)
include h

theorem described : g.describe id = .ok (a.description id) := describe_eq_ok.mpr ⟨_, h.node, rfl⟩

theorem described_source : g.describe source = .ok a.sourceDescription := h.source_eq ▸ h.fits.source

theorem seen : g.Seen s id (a.description id) :=
  h.settled.seen h.built h.described h.plain.framed

theorem framed_indexer {e : Picked} (he : e ∈ picked) : g.Framed e.2.1 :=
  (h.settled.gathers.at h.node).indexers _ (mem_indexers h.fits he)

theorem seen_source : g.Seen s source a.sourceDescription :=
  h.settled.seen h.built h.described_source (h.source_eq ▸ (h.settled.gathers.at h.node).source)

theorem seen_indexer {e : Picked} (he : e ∈ picked) : g.Seen s e.2.1 e.2.2 :=
  h.settled.seen h.built (h.fits.described e he) (h.framed_indexer he)

/-- The extents that the rule gives are those of the blocks. -/
theorem blocks_withRows :
    front terms (a.sourceDescription.shape.withRows m) ++ B ++
      behind terms (a.sourceDescription.shape.withRows m) = a.extentsWith m B := by
  rw [front_withRows, behind_withRows, h.front_eq, h.behind_eq]
  rfl

theorem extentsIn_source (hsource : g.Plain source a.sourceDescription) :
    g.extentsIn s source = .ok (a.sourceDescription.shape.withRows m) := by
  rw [h.seen_source.extentsIn_eq h.settled.full h.described_source hsource.counts hsource.row,
    h.source_shows]

theorem broadcast_shows : a.broadcast.Shows (g.rowsIn s (a.description id).rows.origin) B :=
  h.indexers_show ▸ Shape.shows_extentsOf a.broadcast _

/-! ### The extents of the result -/

/-- Rows without elements leave no positions. -/
theorem size_blocks_of_rowSize (hdyn : a.sourceDescription.shape.isDynamic = true)
    (hz : a.sourceDescription.shape.rowSize = 0) (i j : Nat) : (a.blocksAt i j).size = 0 := by
  refine size_blocks_eq_zero h.fits
    (fun e he hi => h.built.min_le_max (h.fits.described e he) hi) ?_ i j
  rw [Shape.sizeWith_of_isDynamic hdyn, hz]

theorem size_extentsWith : RowMajor.size (a.extentsWith m B) = (a.blocksAt m (RowMajor.size B)).size := by
  unfold extentsWith
  rw [RowMajor.size_append, RowMajor.size_append, extents_fixed h.fits.post_fixed m 0]
  rfl

/-- If there are positions at all, the blocks are found from the extents that
source and index arrays have in the state. -/
theorem blocks_eq_blocksIn :
    a.blocksAt m (RowMajor.size B) = g.blocksIn s id a ∨ ∀ i j, (a.blocksAt i j).size = 0 := by
  by_cases hz : a.sourceDescription.shape.isDynamic = true ∧ a.sourceDescription.shape.rowSize = 0
  · exact .inr (h.size_blocks_of_rowSize hz.1 hz.2)
  · refine .inl ?_
    have hpre : a.pre.map (axisExtent m) =
        a.pre.map (axisExtent (g.rowsIn s a.sourceDescription.rows.origin)) := by
      refine extents_congr fun ⟨x, hx, hdim⟩ => ?_
      have hdyn := Shape.isDynamic_iff.mpr (hdim ▸ h.fits.pre_dims x hx)
      exact h.rows hdyn fun h0 => hz ⟨hdyn, h0⟩
    rw [h.broadcast_shows.size_eq]
    exact congrArg (Blocks.mk · _ _) hpre

theorem size_eq : RowMajor.size (a.extentsWith m B) = g.sizeBy s (a.description id) := by
  rw [h.size_extentsWith, ← size_blocksIn h.fits]
  rcases h.blocks_eq_blocksIn with heq | hzero
  · rw [heq]
  · rw [hzero, blocksIn, hzero]

/-- A whole axis in front keeps an extent of zero that rows without elements
have, so rows have elements if all extents of the result but the leading one
can be counted. -/
theorem rowSize_ne_zero (hdyn : ∃ x ∈ a.pre, x.dim = .dynamic)
    (h0 : 0 ∉ (a.extentsWith m B).tail) : a.sourceDescription.shape.rowSize ≠ 0 := by
  intro hz
  obtain ⟨hsource, -⟩ := rows_of_pre h.fits 0 hdyn
  have hzero := h.size_blocks_of_rowSize hsource hz 1 1
  obtain ⟨x, hx, hdim⟩ := hdyn
  obtain ⟨head, xs, hcons⟩ := List.exists_cons_of_ne_nil (List.ne_nil_of_mem hx)
  have hxs : ∀ y ∈ xs, y.dim ≠ .dynamic := by
    have hfixed := h.fits.pre_fixed
    rwa [hcons] at hfixed
  have hhead : head.dim = .dynamic := by
    rw [hcons] at hx
    rcases List.mem_cons.mp hx with rfl | hx
    · exact hdim
    · exact absurd hdim (hxs x hx)
  rw [extentsWith, hcons] at h0
  have htail : 0 ∉ xs.map (axisExtent m) ++ B ++ a.post.map (axisExtent m) := h0
  rw [List.mem_append, List.mem_append, not_or, not_or] at htail
  have hsize : (a.blocksAt 1 1).size =
      RowMajor.size (xs.map (axisExtent m)) * RowMajor.size (a.post.map (axisExtent m)) := by
    show RowMajor.size (a.pre.map (axisExtent 1)) * 1 * RowMajor.size (a.post.map (axisExtent 0)) = _
    rw [hcons, List.map_cons, RowMajor.size, extents_fixed hxs 1 m,
      extents_fixed h.fits.post_fixed 0 m, axisExtent, hhead]
    simp only [Dim.extentOr, Nat.one_mul, Nat.mul_one]
  rw [hsize] at hzero
  rcases Nat.mul_eq_zero.mp hzero with h | h
  · exact RowMajor.size_ne_zero.mpr (fun n hn h => htail.1.1 (h ▸ hn)) h
  · exact RowMajor.size_ne_zero.mpr (fun n hn h => htail.2 (h ▸ hn)) h

/-- The extents of the index arrays, if the rows behind can be counted: then
their leading extent is the number of rows of the result. -/
theorem broadcast_withRows (h0 : 0 ∉ (a.extentsWith m B).tail) :
    a.broadcast.withRows (g.rowsIn s (a.description id).rows.origin) = B := by
  obtain ⟨k, rfl, hk⟩ := h.broadcast_shows
  unfold extentsWith at h0
  cases hshape : a.broadcast with
  | static ns => rfl
  | dynamic ns =>
    rw [hshape] at hk h0
    rw [hk rfl (RowMajor.size_ne_zero.mpr fun n hn hn0 => h0 ?_)]
    subst hn0
    cases a.pre with
    | nil => exact List.mem_append_left _ hn
    | cons x xs =>
      exact List.mem_append_left _ (List.mem_append_right _ (List.mem_cons_of_mem _ hn))

/-- **The extents of the result**, if all but the leading one can be counted. -/
theorem extentsIn_eq (h0 : 0 ∉ (a.extentsWith m B).tail) :
    g.extentsIn s id = .ok (a.extentsWith m B) := by
  have hpre : a.pre.map (axisExtent m) =
      a.pre.map (axisExtent (g.rowsIn s (a.description id).rows.origin)) := by
    refine extents_congr fun hdyn => ?_
    obtain ⟨hsource, hrows⟩ := rows_of_pre h.fits id hdyn
    rw [hrows]
    exact h.rows hsource (h.rowSize_ne_zero hdyn h0)
  have hrows : a.shape.withRows (g.rowsIn s (a.description id).rows.origin) =
      a.extentsWith m B := by
    rw [withRows_shape h.fits, h.broadcast_withRows h0, ← hpre,
      extents_fixed h.fits.post_fixed _ m]
    rfl
  rw [h.seen.extentsIn_eq h.settled.full h.described h.plain.counts h.plain.row, ← hrows]
  refine congrArg Except.ok (Shape.extentsOf_sizeWith ?_)
  rw [← hrows] at h0
  exact h0

/-! ### The index arrays -/

section Indexers

variable (hindexers : ∀ e ∈ picked, g.Plain e.2.1 e.2.2)
include hindexers

/-- The extents of an index array: none, or those of the common shape. -/
theorem extentsIn_indexer {e : Picked} (he : e ∈ picked) :
    (e.2.2.shape.rank = 0 ∧ g.extentsIn s e.2.1 = .ok []) ∨
      (e.2.2.shape.rank ≠ 0 ∧ e.2.2.shape = a.broadcast ∧ g.extentsIn s e.2.1 = .ok B) := by
  have hplain := hindexers e he
  have hextents := (h.seen_indexer he).extentsIn_eq h.settled.full (h.fits.described e he)
    hplain.counts hplain.row
  by_cases hrank : e.2.2.shape.rank = 0
  · exact .inl ⟨hrank, by rw [hextents, Shape.extentsOf_of_rank_zero hrank]⟩
  · have hshape := (h.fits.shapes e he).resolve_left hrank
    refine .inr ⟨hrank, hshape, ?_⟩
    rw [hextents, sizeBy_picked h.fits he hrank id, hshape, h.indexers_show]

theorem extentsIn_indexers : (∀ node ∈ nodesAmong terms,
      g.extentsIn s node = .ok [] ∨ g.extentsIn s node = .ok B) ∧
    ∃ node ∈ nodesAmong terms, g.extentsIn s node = .ok B := by
  rw [← h.nodes]
  constructor
  · rw [List.forall_mem_map]
    exact fun e he => (h.extentsIn_indexer hindexers he).imp And.right fun h1 => h1.2.2
  · obtain ⟨e, he, hcommon⟩ := h.fits.common
    refine ⟨e.2.1, List.mem_map_of_mem he, ?_⟩
    rcases h.extentsIn_indexer hindexers he with ⟨hrank, h0⟩ | ⟨-, -, h1⟩
    · rw [hcommon] at hrank
      rw [h0, ← h.indexers_show, Shape.extentsOf_of_rank_zero hrank]
    · exact h1

omit hindexers in
/-- The numbers in an index array are whole, and not negative. -/
theorem isNat_cell {e : Picked} (he : e ∈ picked) {k : Nat} (hk : k < (g.shown s e.2.1).size) :
    ((g.shown s e.2.1).cell k).IsNat ((g.shown s e.2.1).cell k).toNat := by
  obtain ⟨hintegral, hmin, hmax⟩ := checkIndexer_eq_ok.mp (h.fits.checked e he)
  have hkeeps := (h.seen_indexer he).cells k hk
  obtain ⟨hlo, hhi⟩ := hkeeps.of_integral hintegral
  have hzero := Binary64.le_of_not_lt Binary64.zero_ne_nan (Binary64.ne_nan_of_le hlo).1 hmin
  exact Binary64.place?_eq_toNat (hkeeps.entire hintegral) (Binary64.le_trans hzero hlo) hhi hmax

/-- The value of an index array is the number that is taken from it. -/
theorem exists_indexAt {e : Picked} (he : e ∈ picked) {β : List Nat} (hβ : RowMajor.Within β B) :
    ∃ x, g.indexAt s e.2.1 β = some x ∧ x.IsNat ((g.shown s e.2.1).cell
      (if e.2.2.shape.rank == 0 then 0 else RowMajor.flatten β (RowMajor.weights B))).toNat := by
  have hd := h.fits.described e he
  have hseen := h.seen_indexer he
  rcases h.extentsIn_indexer hindexers he with ⟨hrank, hextents⟩ | ⟨hrank, hshape, hextents⟩
  · have hpos : 0 < (g.shown s e.2.1).size := by
      rw [hseen.size_eq, sizeBy, Shape.size_of_rank_zero hrank]
      exact Nat.one_pos
    refine ⟨_, ?_, by simpa [hrank] using h.isNat_cell he hpos⟩
    unfold indexAt
    rw [hextents]
    exact elementAt_eq h.settled.full hd (hindexers e he) hseen hextents hpos
  · have hlt : RowMajor.flatten β (RowMajor.weights B) < (g.shown s e.2.1).size := by
      rw [hseen.size_eq, sizeBy_picked h.fits he hrank id, ← h.broadcast_shows.size_eq]
      exact RowMajor.flatten_lt hβ
    refine ⟨_, ?_, by simpa [hrank] using h.isNat_cell he hlt⟩
    have hne : B ≠ [] := by
      rw [hshape] at hrank
      rw [← h.indexers_show]
      exact Shape.extentsOf_ne_nil hrank _
    unfold indexAt
    rw [hextents]
    show g.elementAt s e.2.1 (if B = [] then [] else β) = _
    rw [if_neg hne]
    exact elementAt_eq h.settled.full hd (hindexers e he) hseen hextents hlt

end Indexers

/-! ### The elements of the result -/

section Element

variable {α β γ : List Nat} (hα : RowMajor.Within α (a.pre.map (axisExtent m)))
  (hβ : RowMajor.Within β B) (hγ : RowMajor.Within γ (a.post.map (axisExtent m)))
include hα hβ hγ

omit h in
theorem position_lt : RowMajor.flatten (α ++ β ++ γ) (RowMajor.weights (a.extentsWith m B)) <
    RowMajor.size (a.extentsWith m B) :=
  RowMajor.flatten_lt (List.rel_append (List.rel_append hα hβ) hγ)

/-- Where there are coordinates, there are positions. -/
theorem size_blocks_ne_zero : (a.blocksAt m (RowMajor.size B)).size ≠ 0 := by
  rw [← h.size_extentsWith]
  exact Nat.ne_of_gt (Nat.zero_lt_of_lt (position_lt hα hβ hγ))

theorem blocks_eq : a.blocksAt m (RowMajor.size B) = g.blocksIn s id a := by
  rcases h.blocks_eq_blocksIn with heq | hzero
  · exact heq
  · exact absurd (hzero _ _) (h.size_blocks_ne_zero hα hβ hγ)

/-- The index arrays name positions of the source. -/
theorem picks_within :
    Picks picked m (a.picks (g.shown s) (RowMajor.flatten β (RowMajor.weights B))) := by
  refine picks_spec h.fits (fun hdyn => ?_) fun e he hi => ?_
  · rw [h.rows hdyn fun hz => h.size_blocks_ne_zero hα hβ hγ (h.size_blocks_of_rowSize hdyn hz _ _)]
    exact minRows_le_rowsIn h.built h.settled.ruled h.fits.source hdyn
  · have hread := canRead h.node h.fits (h.settled.gathers.at h.node)
      (fun p d _ hp hf => h.settled.seen h.built hp hf) _ (mem_indexers h.fits he)
    rw [← h.blocks_eq hα hβ hγ] at hread
    exact ((h.seen_indexer he).cells _ (hread.2 _ (RowMajor.flatten_lt hβ))).of_integral hi

/-- The coordinates of the selected element exist in the source. -/
theorem weave_within : RowMajor.Within
    (weave terms (α ++ γ) (a.picks (g.shown s) (RowMajor.flatten β (RowMajor.weights B))))
    (a.sourceDescription.shape.withRows m) := by
  refine (h.weave_position _ _ ?_ (h.picks_within hα hβ hγ)).1
  rw [List.map_append]
  exact List.rel_append hα hγ

/-- **A position is followed through both computations.**  The program takes
it apart into the three blocks and puts a source position together; with
coordinates nothing needs to be taken apart. -/
theorem offset_position :
    a.offset (a.blocksAt m (RowMajor.size B)) (g.shown s)
        (RowMajor.flatten (α ++ β ++ γ) (RowMajor.weights (a.extentsWith m B))) =
      RowMajor.flatten
        (weave terms (α ++ γ) (a.picks (g.shown s) (RowMajor.flatten β (RowMajor.weights B))))
        a.sourceDescription.shape.weights := by
  have hpost : (a.blocksAt m (RowMajor.size B)).post = a.post.map (axisExtent m) :=
    extents_fixed h.fits.post_fixed 0 m
  have htriple := @Blocks.index_eq (a.blocksAt m (RowMajor.size B))
    (RowMajor.flatten α (RowMajor.weights (a.pre.map (axisExtent m)))) _
    (RowMajor.flatten γ (RowMajor.weights (a.post.map (axisExtent m)))) (RowMajor.flatten_lt hβ)
    (by rw [hpost]; exact RowMajor.flatten_lt hγ)
  have hposition : RowMajor.flatten (α ++ β ++ γ) (RowMajor.weights (a.extentsWith m B)) =
        (RowMajor.flatten α (RowMajor.weights (a.pre.map (axisExtent m))) *
            (a.blocksAt m (RowMajor.size B)).broadcast + RowMajor.flatten β (RowMajor.weights B)) *
          RowMajor.size (a.blocksAt m (RowMajor.size B)).post +
        RowMajor.flatten γ (RowMajor.weights (a.post.map (axisExtent m))) := by
    rw [hpost, extentsWith, RowMajor.flatten_append_weights (by simp [hα.length_eq, hβ.length_eq]),
      RowMajor.flatten_append_weights hα.length_eq]
    rfl
  rw [← hposition] at htriple
  obtain ⟨hpre_index, hindex, hpost_index⟩ := htriple
  have hlength : α.length = (a.pre.map (axisWeight a.sourceDescription.shape)).length := by
    rw [hα.length_eq, List.length_map, List.length_map]
  have hws : RowMajor.Within (α ++ γ) ((a.pre ++ a.post).map (axisExtent m)) := by
    rw [List.map_append]
    exact List.rel_append hα hγ
  unfold offset wholeOffset
  rw [hpre_index, hindex, hpost_index, hpost, RowMajor.coordinates_flatten hγ,
    show (a.blocksAt m (RowMajor.size B)).pre = a.pre.map (axisExtent m) from rfl,
    RowMajor.coordinates_flatten hα, strides_indexers h.fits]
  simp only [stride_eq h.fits]
  rw [← RowMajor.flatten_append hlength, ← List.map_append]
  exact (h.weave_position _ _ hws (h.picks_within hα hβ hγ)).2.symm

/-- The result holds the source element at the woven coordinates. -/
theorem place?_cell :
    ((g.shown s id).cell (RowMajor.flatten (α ++ β ++ γ)
        (RowMajor.weights (a.extentsWith m B)))).place? =
      ((g.shown s source).cell (RowMajor.flatten
        (weave terms (α ++ γ) (a.picks (g.shown s) (RowMajor.flatten β (RowMajor.weights B))))
        (RowMajor.weights (a.sourceDescription.shape.withRows m)))).place? := by
  obtain ⟨slot, hslot, hcur⟩ := h.settled.current id _ h.node
  cases hcur with
  | advanced hx =>
    rw [h.seen.place?_advanced h.node hslot hx (h.size_eq ▸ position_lt hα hβ hγ),
      ← h.blocks_eq hα hβ hγ, h.offset_position hα hβ hγ, Shape.weights_withRows, h.source_eq]

/-- The element at coordinates for the three blocks. -/
theorem exists_element (hnan : ¬ g.HoldsNaN) (hsource : g.Plain source a.sourceDescription)
    (hindexers : ∀ e ∈ picked, g.Plain e.2.1 e.2.2) :
    ∃ ps x y, List.Forall₂ (fun node p => ∃ i, g.indexAt s node β = some i ∧ i.IsNat p)
        (nodesAmong terms) ps ∧
      g.elementAt s id (α ++ β ++ γ) = some x ∧
      g.elementAt s source (weave terms (α ++ γ) ps) = some y ∧ (x == y) = true := by
  have hlt := position_lt hα hβ hγ
  have hresult : g.extentsIn s id = .ok (a.extentsWith m B) :=
    h.extentsIn_eq fun h0 => RowMajor.size_ne_zero.mp (Nat.ne_of_gt (Nat.zero_lt_of_lt hlt)) 0
      (List.mem_of_mem_tail h0) rfl
  rw [h.size_eq, ← h.seen.size_eq] at hlt
  have hltSource := RowMajor.flatten_lt (h.weave_within hα hβ hγ)
  rw [← h.source_shows, h.seen_source.size_extentsOf, h.source_shows] at hltSource
  refine ⟨_, _, _, ?_, elementAt_eq h.settled.full h.described h.plain h.seen hresult hlt,
    elementAt_eq h.settled.full h.described_source hsource h.seen_source
      (h.extentsIn_source hsource) hltSource,
    Binary64.beq_of_place?_eq (h.place?_cell hα hβ hγ) ((h.seen.cells _ hlt).ne_nan hnan)⟩
  rw [← h.nodes, picks, h.fits.indexers, List.map_map, List.forall₂_map_left_iff,
    List.forall₂_map_right_iff, List.forall₂_same]
  exact fun e he => h.exists_indexAt hindexers he hβ

end Element

/-- **What a selection shows** in a state that is up to date and in which nothing
overflows. -/
theorem selects (hnan : ¬ g.HoldsNaN) (hsource : g.Plain source a.sourceDescription)
    (hindexers : ∀ e ∈ picked, g.Plain e.2.1 e.2.2) :
    g.Selects s id source terms (a.sourceDescription.shape.withRows m) B := by
  obtain ⟨hextents, hcommon⟩ := h.extentsIn_indexers hindexers
  constructor
  case source_extents => exact h.extentsIn_source hsource
  case index_extents => exact hextents
  case common_extents => exact hcommon
  case size => rw [h.blocks_withRows, h.size_eq, h.seen.sizeIn_eq h.settled.full h.described
    h.plain.counts]
  case extents =>
    rw [h.blocks_withRows]
    exact h.extentsIn_eq
  case elements =>
    rw [front_withRows, behind_withRows, h.front_eq, h.behind_eq]
    exact fun α β γ hα hβ hγ => h.exists_element hα hβ hγ hnan hsource hindexers

end Selected

/-! ### Where nothing can be compared -/

/-- **With elements nothing overflows**: neither the selection nor what it is
made of. -/
theorem Settled.plain_of_elements (hs : g.Settled s) (hb : g.Built) {a : AdvancedIndexing}
    {picked : List Picked} (hn : g.nodes[id]? = some (.advanced a)) (hfits : a.Fits g.describe picked)
    (hne : g.sizeBy s (a.description id) ≠ 0) :
    g.Plain id (a.description id) ∧ g.Plain a.source a.sourceDescription ∧
      ∀ e ∈ picked, g.Plain e.2.1 e.2.2 := by
  have hd : g.describe id = .ok (a.description id) := describe_eq_ok.mpr ⟨_, hn, rfl⟩
  have hwords := hs.gathers.at hn
  have hbelow : g.SeenBelow s id := fun p d _ hp hf => hs.seen hb hp hf
  have hpos : 0 < (g.blocksIn s id a).size := by
    rw [size_blocksIn hfits]
    exact Nat.pos_of_ne_zero hne
  refine ⟨?_, ?_, fun e he => ?_⟩
  · have hlt : g.sizeBy s (a.description id) < 2 ^ 64 :=
      Nat.lt_of_le_of_lt (hs.inRoom id _ hd) (by decide)
    obtain ⟨hcounts, hrow, hlays⟩ := Shape.words_of_size hne hlt
    exact ⟨.of_eq ((frame_advanced hn).trans (Shape.frame_eq_ok.mpr ⟨hlays, rfl⟩)), hcounts, hrow⟩
  · have hsource := offset_lt_source hn hfits hwords hbelow hb hs.ruled hpos
    exact (seen_source hn hfits hwords hbelow).plain hb hfits.source (Nat.ne_zero_of_lt hsource)
  · have hread := (canRead hn hfits hwords hbelow _ (mem_indexers hfits he)).2 _
      (Blocks.position_eq hpos).2.1
    exact (seen_picked hn hfits hwords hbelow he).plain hb (hfits.described e he)
      (Nat.ne_zero_of_lt hread)

/-- What has been gathered is as much as the description says. -/
theorem Settled.size_gathered (hs : g.Settled s) {a : AdvancedIndexing}
    (hn : g.nodes[id]? = some (.advanced a)) :
    ∃ x, s.slot? id = some (.gathered x) ∧ x.size = g.sizeBy s (a.description id) := by
  obtain ⟨slot, hslot, hcur⟩ := hs.current id _ hn
  cases hcur with
  | advanced hx => exact ⟨_, hslot, hx.size⟩

/-- In a state that is up to date an array made by advanced indexing shows what
its terms select, or it has no elements and something overflows. -/
theorem Settled.selects_or_overflows (hs : g.Settled s) (hb : g.Built) (hnan : ¬ g.HoldsNaN)
    {a : AdvancedIndexing} (hn : g.nodes[id]? = some (.advanced a))
    (hadvanced : g.advancedIndexing source terms = .ok (.advanced a)) :
    (∃ ns B, g.Selects s id source terms ns B) ∨
      (∃ i ∈ id :: source :: nodesAmong terms, g.Overflows s i) ∧
        ∃ x, s.slot? id = some (.gathered x) ∧ x.size = 0 := by
  obtain ⟨a', hterms, heq⟩ := advancedIndexing_eq_ok.mp hadvanced
  obtain rfl := Node.advanced.inj heq
  obtain ⟨d, picked, common, rows, shape, h, hlays, rfl⟩ := ofTerms_eq_ok.mp hterms
  have hfits := h.fits g.identity hlays
  obtain ⟨e, hd⟩ : ∃ e, g.describe id = .ok e := ⟨_, describe_eq_ok.mpr ⟨_, hn, rfl⟩⟩
  by_cases hplain : g.Plain id e ∧ g.Plain source d ∧ ∀ e ∈ picked, g.Plain e.2.1 e.2.2
  · obtain ⟨hresult, hsource, hindexers⟩ := hplain
    obtain ⟨m, B, hselected⟩ := hs.selected_of_passes hb h hlays hn
      fun e' he' => by rw [hd] at he'; exact Except.ok.inj he' ▸ hresult
    exact .inl ⟨_, B, hselected.selects hnan hsource hindexers⟩
  · obtain ⟨x, hslot, hsize⟩ := hs.size_gathered hn
    refine .inr ⟨?_, x, hslot, hsize.trans ?_⟩
    · by_contra hnone
      have hall : ∀ i ∈ id :: source :: nodesAmong terms, ∀ d, g.describe i = .ok d → g.Plain i d :=
        fun i hi d hd => (hs.overflows_or_plain hb hd).resolve_left fun ho => hnone ⟨i, hi, ho⟩
      refine hplain ⟨hall id (by simp) e hd, hall source (by simp) d h.source, fun p hp => ?_⟩
      have hmem : p.2.1 ∈ nodesAmong terms := h.nodes ▸ List.mem_map_of_mem hp
      exact hall p.2.1 (by simp [hmem]) p.2.2 (h.described p hp)
    · by_contra hne
      obtain rfl := Except.ok.inj (hd.symm.trans (describe_eq_ok.mpr ⟨_, hn, rfl⟩))
      exact hplain (hs.plain_of_elements hb hn hfits hne)

/-- **Advanced indexing selects.**  Whenever no edit is waiting, each array
that was made by advanced indexing shows what its terms select from its
source, in numbers that are equal.  Only where nothing has been gathered can it,
its source or an index array have extents that overflow. -/
theorem run_selects (hb : g.Built) (hnan : ¬ g.HoldsNaN) (h : g.Run committed now edited [])
    {a : AdvancedIndexing} (hn : g.nodes[id]? = some (.advanced a)) :
    (∃ source terms, g.advancedIndexing source terms = .ok (.advanced a)) ∧
      ∀ source terms, g.advancedIndexing source terms = .ok (.advanced a) →
        (∃ ns B, g.Selects now id source terms ns B) ∨
          (∃ i ∈ id :: source :: nodesAmong terms, g.Overflows now i) ∧
            ∃ x, now.slot? id = some (.gathered x) ∧ x.size = 0 := by
  obtain ⟨base, past, hepoch⟩ := h.epoch hb
  exact ⟨hb.exists_terms hn, fun source terms hadvanced =>
    (hepoch.settled rfl).selects_or_overflows hb hnan hn hadvanced⟩

open Table in
set_option maxRecDepth 4000 in
/-- The table with its columns in the new order: the first element of its row
is the second one of the row that was added. -/
theorem table_selects :
    (table.Built ∧ ¬ table.HoldsNaN ∧ table.Run opened current [1, 0] [] ∧
      ∃ a, table.nodes[2]? = some (.advanced a)) ∧
      (∃ ns B, table.Selects current 2 0 [.whole, .indexer 1] ns B) ∧
        table.elementAt current 2 [0, 0] = some (.ofInt 4) ∧
          table.elementAt current 0 [0, 1] = some (.ofInt 4) := by
  have hnan : ¬ table.HoldsNaN := by decide +kernel
  have hsize : (current.gathered 2).map Gathered.size = .ok 2 := by decide +kernel
  obtain ⟨a, hn, hadvanced⟩ : ∃ a, table.nodes[2]? = some (.advanced a) ∧
    table.advancedIndexing 0 [.whole, .indexer 1] = .ok (.advanced a) := ⟨_, rfl, rfl⟩
  obtain ⟨-, hselects⟩ := run_selects built_table hnan run_current hn
  refine ⟨⟨built_table, hnan, run_current, a, hn⟩, (hselects 0 _ hadvanced).resolve_right ?_,
    by decide +kernel, by decide +kernel⟩
  rintro ⟨-, x, hslot, hnone⟩
  rw [State.gathered_eq hslot] at hsize
  cases hnone.symm.trans (Except.ok.inj hsize)

/-- Four numbers in a row, and an index array without elements that is longer
than a quarter of the words. -/
def folio : Graph :=
  (((Graph.empty 0).extend
    fun _ => Node.leaf <$> Variable.integer <$> IntegerVariable.ofBounds [1, 4] 0 1).extend
      fun _ => .ok (.constant ⟨[0, 4611686018427387904], #[], (Nat.zero_mul _).symm⟩)).extend
        fun g => g.advancedIndexing 0 [.indexer 1, .whole]

theorem built_folio : folio.Built := by
  refine .extend (.extend (.extend_leaf (.empty 0) _) ?_) fun _ hn => .advanced hn
  intro n hn
  obtain rfl := Except.ok.inj hn
  exact .constant _

set_option maxRecDepth 20000 in
/-- Index arrays without elements can have more positions behind the leading axis
than a word can count, and then the extents of what they select are not found. -/
theorem selects_fails : ¬ ∀ (g : Graph) (committed now : State) (edited : List NodeId)
    (id source : NodeId) (terms : List IndexTerm) (a : AdvancedIndexing),
    g.Built → ¬ g.HoldsNaN → g.Run committed now edited [] → g.nodes[id]? = some (.advanced a) →
      g.advancedIndexing source terms = .ok (.advanced a) →
        ∃ ns B, g.Selects now id source terms ns B := by
  intro h
  have hrun : folio.Run (folio.after [.initializeRemaining] folio.emptyState.1)
      (folio.after [.initializeRemaining] folio.emptyState.1) [] [] :=
    .start (.of_seeded .start (seeded_emptyState folio) (by decide +kernel)
      (call_eq_ok_after (c := .initializeRemaining) (by decide +kernel)))
  obtain ⟨node, hadvanced⟩ := Outcome.exists_ok
    (x := folio.advancedIndexing 0 [.indexer 1, .whole]) (by decide +kernel)
  obtain ⟨a, -, rfl⟩ := advancedIndexing_eq_ok.mp hadvanced
  have hn : folio.nodes[2]? = (folio.advancedIndexing 0 [.indexer 1, .whole]).toOption := by
    with_unfolding_all rfl
  rw [hadvanced] at hn
  obtain ⟨ns, B, hselects⟩ := h folio _ _ [] 2 0 _ a built_folio (by decide +kernel) hrun hn hadvanced
  have hns : folio.extentsIn (folio.after [.initializeRemaining] folio.emptyState.1) 0 = .ok [1, 4] := by
    decide +kernel
  have hB : folio.extentsIn (folio.after [.initializeRemaining] folio.emptyState.1) 1 =
      .ok [0, 4611686018427387904] := by decide +kernel
  have hfails : folio.extentsIn (folio.after [.initializeRemaining] folio.emptyState.1) 2 =
      .error (.fault .overflow) := by decide +kernel
  obtain rfl := Except.ok.inj (hns.symm.trans hselects.source_extents)
  obtain ⟨node, hnode, hcommon⟩ := hselects.common_extents
  obtain rfl := List.mem_singleton.mp hnode
  obtain rfl := Except.ok.inj (hB.symm.trans hcommon)
  have hextents := hselects.extents (by decide)
  rw [hfails] at hextents
  cases hextents

end Graph
end ArrayFlow
