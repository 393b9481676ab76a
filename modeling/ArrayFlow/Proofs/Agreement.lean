import ArrayFlow.Proofs.Pairing

/-!
# Basic and advanced indexing agree

Where two ways to ask for a selection agree, each of them is accepted unless a
word overflows (`Graph.Agrees.basicIndexing_outcome`,
`Graph.Admits.advancedIndexing_answers`), they declare one shape, and they show
the same whenever no edit is waiting (`Graph.run_pairing`).

What can overflow is the arithmetic of slices whose bounds or step are at the
edge of the words, the strides of a source without elements, and the steps that
a view takes through its source.  The two ways do not overflow at the same places.
Two kinds of extents are left out, which the two ways of indexing read
differently: an extent above `2 ^ 53` may be rounded down to an index below it,
and one from `2 ^ 63` on is a negative number to a slice.  `Graph.pairing_fails`
has a case of each.
-/

namespace ArrayFlow

open AdvancedIndexing

/-- The coordinates of a position of a result are those for its three blocks. -/
theorem AdvancedIndexing.exists_coordinates (a : AdvancedIndexing) {m p : Nat} {B : List Nat}
    (hp : p < RowMajor.size (a.extentsWith m B)) :
    ∃ α β γ, RowMajor.coordinates (a.extentsWith m B) p = α ++ β ++ γ ∧
      RowMajor.Within α (a.pre.map (axisExtent m)) ∧ RowMajor.Within β B ∧
        RowMajor.Within γ (a.post.map (axisExtent m)) := by
  have hwithin := RowMajor.within_coordinates hp
  obtain ⟨αβ, γ, hcoordinates, hαβ, hγ⟩ := RowMajor.exists_append_of_within hwithin
  obtain ⟨α, β, rfl, hα, hβ⟩ := RowMajor.exists_append_of_within hαβ
  exact ⟨α, β, γ, hcoordinates, hα, hβ, hγ⟩

/-! ### The strides of a selection -/

namespace AxisMap

variable {maps : List AxisMap} {ns : List Nat}

/-- Shorter axes have smaller strides. -/
theorem laysOut_extentsFrom (h : List.Forall₂ Shrinks ns maps) (hns : RowMajor.LaysOut ns) :
    RowMajor.LaysOut (extentsFrom maps ns) := by
  induction h with
  | nil => trivial
  | @cons n m ns maps hm hrest ih =>
    obtain ⟨hsize, hns⟩ := hns
    have hle := size_extentsFrom_le hrest
    cases m with
    | whole => exact ⟨Nat.lt_of_le_of_lt (Nat.mul_le_mul_left n hle) hsize, ih hns⟩
    | range r => exact ⟨Nat.lt_of_le_of_lt (Nat.mul_le_mul hm hle) hsize, ih hns⟩
    | position i => exact ih hns

/-- The axes behind the first one that is left can be counted, if there are
elements. -/
theorem countsFrom_tail (h : List.Forall₂ Shrinks ns maps) (hz : RowMajor.size ns ≠ 0)
    (hlt : RowMajor.size ns < 2 ^ 64) : RowMajor.CountsFrom 1 (extentsFrom maps ns).tail := by
  induction h with
  | nil => trivial
  | @cons n m ns maps _ hrest ih =>
    obtain ⟨hn, hz⟩ := Nat.mul_ne_zero_iff.mp hz
    have hle := Nat.le_mul_of_pos_left (RowMajor.size ns) (Nat.pos_of_ne_zero hn)
    have hlt := Nat.lt_of_le_of_lt hle hlt
    have hcounts := RowMajor.countsFrom_of_size (k := 1) hz (by rwa [Nat.one_mul])
    cases m with
    | whole => exact countsFrom_extentsFrom hrest hcounts (Nat.le_refl 1)
    | range r => exact countsFrom_extentsFrom hrest hcounts (Nat.le_refl 1)
    | position i => exact ih hz hlt

/-- **The strides of what is selected from elements are words.** -/
theorem laysOut_shape {shape : Shape} (h : List.Forall₂ (fun d m => Fits d m) shape.dims maps)
    (hz : shape.sizeWith 1 ≠ 0) (hlt : shape.sizeWith 1 < 2 ^ 64) :
    (AxisMap.shape maps).LaysOut := by
  have hshrinks := shrinks h 1
  have hextents := extentsFrom_withRows h 1
  have hle : (AxisMap.shape maps).sizeWith 1 ≤ shape.sizeWith 1 := by
    rw [Shape.sizeWith, ← hextents]
    exact size_extentsFrom_le hshrinks
  have hnone : (AxisMap.shape maps).sizeWith 0 ≤ (AxisMap.shape maps).sizeWith 1 := by
    cases AxisMap.shape maps with
    | static ns => exact Nat.le_refl _
    | dynamic ns => exact Nat.mul_le_mul_right _ (Nat.zero_le 1)
  refine ⟨?_, @Shape.laysOut_withRows _ 1 0 ?_
    (Nat.lt_of_le_of_lt (Nat.le_trans hnone hle) hlt)⟩
  · rw [← Shape.tail_withRows _ 1, ← hextents]
    exact countsFrom_tail hshrinks hz hlt
  · rw [← hextents]
    exact laysOut_extentsFrom hshrinks (RowMajor.laysOut_of_size hz hlt)

end AxisMap

/-- The selection from a source by what becomes of its axes. -/
def BasicIndexing.ofAxes (graph : Nat) (source : NodeId) (d : Description) (maps : List AxisMap) :
    BasicIndexing where
  graph := graph
  source := source
  sourceDescription := d
  axes := maps
  sourceRow := d.shape.rowSize
  strides := (AxisMap.shape maps).weights

theorem BasicIndexing.shape_ofAxes (graph : Nat) (source : NodeId) (d : Description)
    (maps : List AxisMap) : (ofAxes graph source d maps).shape = AxisMap.shape maps := rfl

/-- Basic indexing needs words for the strides of its result and for the length
of a row of its source. -/
theorem BasicIndexing.ofSelectors_eq {graph : Nat} {source : NodeId} {d : Description}
    {selectors : List Selector} {maps : List AxisMap} (hrank : selectors.length ≤ d.shape.rank)
    (h : AxisMap.ofSelectors 0 d.shape.dims selectors = .ok maps) :
    ofSelectors graph source d selectors =
      if (AxisMap.shape maps).LaysOut ∧ RowMajor.CountsFrom 1 d.shape.trailing
        then .ok (ofAxes graph source d maps)
        else .error (.fault .overflow) := by
  unfold ofSelectors
  rw [if_neg (Nat.not_lt.mpr hrank), h]
  show (liftM (AxisMap.shape maps).strides >>= fun strides => liftM d.shape.countRow >>= fun row =>
    pure (BasicIndexing.mk graph source d maps row strides) : Except Failure BasicIndexing) = _
  by_cases hlays : (AxisMap.shape maps).LaysOut
  · rw [Shape.strides_eq_ok.mpr ⟨hlays, rfl⟩]
    by_cases hrow : RowMajor.CountsFrom 1 d.shape.trailing
    · rw [Shape.countRow_eq_ok.mpr ⟨hrow, rfl⟩, if_pos ⟨hlays, hrow⟩]
      rfl
    · rw [Shape.countRow, RowMajor.count_eq, if_neg hrow, if_neg fun h => hrow h.2]
      rfl
  · rw [Shape.strides_eq_error.mpr ⟨hlays, rfl⟩, if_neg fun h => hlays h.1]
    rfl

namespace Graph

variable {g : Graph}

/-! ### Both are accepted -/

section Accepted

variable {source : NodeId} {d : Description} {selectors : List Selector} {terms : List IndexTerm}
  {maps : List AxisMap} {is : List Description} {B : List Nat} {picks : Nat → List Nat}
  (h : g.Agrees d.shape.dims selectors terms maps is B picks)
include h

theorem Agrees.admits (hd : g.describe source = .ok d) (hB : B.length ≤ 1)
    (indexed : nodesAmong terms ≠ []) (layout : terms.head? = some .whole → Consecutive terms) :
    g.Admits Below source terms d is := by
  have hrank : ∀ i ∈ is, i.shape.rank < 2 := by
    intro i hi
    rw [h.shapes i hi]
    exact Nat.lt_succ_of_le hB
  have hstatic : ∀ i ∈ is, i.shape.isDynamic = false := by
    intro i hi
    rw [h.shapes i hi]
    rfl
  constructor
  case source => exact hd
  case rank => rw [h.length_terms, Shape.length_dims]
  case indexers => exact h.indexers
  case indexed =>
    rintro rfl
    cases hnodes : nodesAmong terms with
    | nil => exact indexed hnodes
    | cons node nodes =>
      have := h.indexers
      rw [hnodes] at this
      cases this
  case ranged => exact h.ranged _
  case shapes => exact fun i hi j hj _ _ => (h.shapes i hi).trans (h.shapes j hj).symm
  case origins =>
    intro i hi j hj hdyn
    rw [hstatic i hi] at hdyn
    cases hdyn
  case multiDim =>
    refine Nat.le_trans (Nat.le_of_eq (List.countP_eq_zero.mpr fun i hi => ?_)) (Nat.zero_le _)
    have := hrank i hi
    simpa using this
  case consecutive => exact layout
  case flat => exact fun _ => hrank
  case static => exact fun _ => hstatic

/-- **Basic indexing accepts the selection, or a word overflows**: in a slice, or
for a source without elements. -/
theorem Agrees.basicIndexing_outcome (hd : g.describe source = .ok d) :
    g.basicIndexing source selectors = .ok (.basic (.ofAxes g.identity source d maps)) ∨
      g.basicIndexing source selectors = .error (.fault .overflow) ∧
        (d.shape.sizeWith 1 ≠ 0 → d.shape.sizeWith 1 < 2 ^ 64 →
          ∃ s, .slice s ∈ selectors ∧ ¬ s.InWords) := by
  have hrank : selectors.length ≤ d.shape.rank := by
    rw [h.length_selectors, Shape.length_dims]
  have hbasic : g.basicIndexing source selectors =
      Node.basic <$> BasicIndexing.ofSelectors g.identity source d selectors := by
    unfold basicIndexing
    rw [hd]
    rfl
  rw [hbasic]
  rcases h.resolved 0 with hmaps | ⟨hwords, hoverflow⟩
  · rw [BasicIndexing.ofSelectors_eq hrank hmaps]
    split
    · exact .inl rfl
    · next hout =>
      refine .inr ⟨rfl, fun hz hlt => absurd ⟨AxisMap.laysOut_shape h.fits hz hlt, ?_⟩ hout⟩
      obtain ⟨-, hrow, -⟩ := Shape.words_of_size hz hlt
      exact (Shape.countRow_eq_ok.mp hrow).1
  · refine .inr ⟨?_, fun _ _ => hwords⟩
    unfold BasicIndexing.ofSelectors
    rw [if_neg (Nat.not_lt.mpr hrank), hoverflow]
    rfl

omit h in
/-- **Advanced indexing accepts the selection, or the strides of the source
overflow.** -/
theorem Admits.advancedIndexing_answers (h : g.Admits Below source terms d is) :
    (d.shape.LaysOut ∧ ∃ a, g.advancedIndexing source terms = .ok (.advanced a)) ∨
      ¬ d.shape.LaysOut ∧ g.advancedIndexing source terms = .error (.fault .overflow) := by
  obtain ⟨picked, common, rows, shape, hpasses, -⟩ := h.exists_passes
  by_cases hlays : d.shape.LaysOut
  · have ha : ofTerms g.identity g.describe source terms = .ok _ :=
      ofTerms_eq_ok.mpr ⟨d, picked, common, rows, shape, hpasses, hlays, rfl⟩
    exact .inl ⟨hlays, _, advancedIndexing_eq_ok.mpr ⟨_, ha, rfl⟩⟩
  · exact .inr ⟨hlays, advancedIndexing_eq_error.mpr
      (ofTerms_eq_fault.mpr ⟨rfl, d, picked, common, rows, shape, hpasses, hlays⟩)⟩

theorem Agrees.shape_indexer {node : NodeId} {i : Description} (hnode : node ∈ nodesAmong terms)
    (hi : g.describe node = .ok i) : i.shape = .static B := by
  obtain ⟨k, hk, rfl⟩ := List.getElem_of_mem hnode
  obtain ⟨hlength, hget⟩ := List.forall₂_iff_get.mp h.indexers
  have hk' : k < is.length := hlength ▸ hk
  have heq := (hget k hk hk').symm.trans hi
  rw [← Except.ok.inj heq]
  exact h.shapes _ (List.getElem_mem hk')

section Passes

variable {picked : List Picked} {common shape : Shape} {rows : Option RowSpan}
  (hpasses : Passes g.describe source terms d picked common rows shape)
include hpasses

/-- The index arrays have the extents of the constants. -/
theorem Agrees.common_eq : common = .static B := by
  obtain ⟨-, e, he, hcommon⟩ := hpasses.shapes
  rw [← hcommon]
  exact h.shape_indexer (hpasses.nodes ▸ List.mem_map_of_mem he) (hpasses.described e he)

/-- **Both ways declare one shape.** -/
theorem Agrees.shape_eq : AxisMap.shape maps = shape := by
  refine Shape.eq_of_withRows fun m => ?_
  rw [← AxisMap.extentsFrom_withRows h.fits, Shape.withRows_eq_map, h.extents,
    Shape.withRows_eq_map shape, Shape.dims_of_ofDims? hpasses.shape, h.common_eq hpasses,
    ← Shape.withRows_eq_map, front_withRows, behind_withRows, List.map_append, List.map_append,
    List.map_map, List.map_map, ← Shape.withRows_eq_map]
  rfl

end Passes

end Accepted

/-! ### Both show the same -/

/-- Two arrays show the same in a state: extents, sizes, and elements that are
equal as numbers. -/
def ShownAlike (g : Graph) (s : State) (i j : NodeId) : Prop :=
  ∃ xs ys extents size, g.elementsOf s i = some xs ∧ g.elementsOf s j = some ys ∧
    List.Forall₂ (fun x y => (x == y) = true) xs ys ∧
      g.extentsIn s i = .ok extents ∧ g.extentsIn s j = .ok extents ∧
        g.sizeIn s i = .ok size ∧ g.sizeIn s j = .ok size

section Shown

variable {s : State} {source i j : NodeId} {d : Description} {selectors : List Selector}
  {terms : List IndexTerm} {maps : List AxisMap} {is : List Description} {B : List Nat}
  {picks : Nat → List Nat} {picked : List Picked} {common shape : Shape} {rows : Option RowSpan}
  (h : g.Agrees d.shape.dims selectors terms maps is B picks)
  (hpasses : Passes g.describe source terms d picked common rows shape)
include h hpasses

/-- Both have as many elements. -/
theorem Agrees.sizeBy_eq (hlays : d.shape.LaysOut) :
    g.sizeBy s ((BasicIndexing.ofAxes g.identity source d maps).description i) =
      g.sizeBy s ((accepted g.identity source terms d picked common rows shape).description j) := by
  rw [sizeBy_basic, BasicIndexing.shape_ofAxes, h.shape_eq hpasses]
  refine Shape.sizeWith_congr fun hdyn => ?_
  have hstatic : common.isDynamic = false := h.common_eq hpasses ▸ rfl
  have hrows := (hpasses.fits g.identity hlays).rows_source hstatic hdyn
  simp only [AdvancedIndexing.description, hrows, Option.getD_some]
  rfl

variable {m : Nat} {B' : List Nat} (hs : g.Selected s j source terms
  (accepted g.identity source terms d picked common rows shape) picked m B')
include hs

omit hpasses in
/-- The index arrays name the positions that the constants list. -/
theorem Agrees.picks_eq {q : Nat} (hq : q < RowMajor.size B) :
    (accepted g.identity source terms d picked common rows shape).picks (g.shown s) q = picks q := by
  have hshape : ∀ e ∈ picked, g.Framed e.2.1 ∧ e.2.2.shape = .static B := fun e he =>
    ⟨hs.framed_indexer he,
      h.shape_indexer (hs.nodes ▸ List.mem_map_of_mem he) (hs.fits.described e he)⟩
  have hnames := h.names q hq
  rw [← hs.nodes, List.forall₂_map_left_iff] at hnames
  have heq : List.Forall₂ Eq ((accepted g.identity source terms d picked common rows shape).picks
      (g.shown s) q) (picks q) := by
    rw [AdvancedIndexing.picks, hs.fits.indexers, List.map_map, List.forall₂_map_left_iff]
    refine ((List.forall₂_and_left _ _).mpr ⟨hshape, hnames⟩).imp ?_
    rintro e p ⟨⟨hf, he⟩, c, x, hc, hx, hp⟩
    -- an array without axes has only the first position
    have hindex : (if (e.2.2.shape.rank == 0) = true then 0 else q) = q := by
      cases B with
      | nil => simp [Nat.lt_one_iff.mp hq]
      | cons k ks => simp [he, Shape.rank]
    show ((g.shown s e.2.1).cell (if (e.2.2.shape.rank == 0) = true then 0 else q)).toNat = p
    rw [hindex, shown_eq (hf.viewAt_constant hc), View.cell_ofArray, hx, Option.getD_some, hp]
  rwa [List.forall₂_eq_eq_eq] at heq

/-- **Both read the same source positions.** -/
theorem Agrees.place?_eq (hi : g.nodes[i]? = some (.basic (.ofAxes g.identity source d maps)))
    (hf : g.Framed i) {p : Nat}
    (hp : p < g.sizeBy s
      ((BasicIndexing.ofAxes g.identity source d maps).description i)) :
    ∃ k < (g.shown s source).size, (g.shown s i).cell p = (g.shown s source).cell k ∧
      ((g.shown s j).cell p).place? = ((g.shown s source).cell k).place? := by
  obtain ⟨hd, hfits⟩ := hs.built.promises hi
  have hroom := hs.settled.inRoom _ _ hd
  obtain ⟨-, hcells⟩ := Seen.of_basic hi hs.built hf hs.seen_source hroom
  have hlt : _ < g.sizeBy s d := sourceOf_lt_source hfits hroom hp
  rw [← show _ = g.sizeBy s d from hs.seen_source.size_eq] at hlt
  refine ⟨_, hlt, hcells p hp, ?_⟩
  -- the position in the result, taken apart
  obtain rfl : B = B' := by
    have hshow := hs.indexers_show
    rwa [show (accepted g.identity source terms d picked common rows shape).broadcast = .static B
      from h.common_eq hpasses] at hshow
  have hextents : (AxisMap.shape maps).withRows m =
      (accepted g.identity source terms d picked common rows shape).extentsWith m B := by
    rw [← AxisMap.extentsFrom_withRows h.fits, Shape.withRows_eq_map, h.extents,
      ← hs.blocks_withRows, Shape.withRows_eq_map]
    rfl
  have hp' : p < RowMajor.size
      ((accepted g.identity source terms d picked common rows shape).extentsWith m B) := by
    rw [hs.size_eq, ← h.sizeBy_eq hpasses hs.fits.laysOut]
    exact hp
  obtain ⟨α, β, γ, hcoordinates, hα, hβ, hγ⟩ := exists_coordinates _ hp'
  have hposition := RowMajor.flatten_coordinates hp'
  rw [hcoordinates] at hposition
  have hcs : (AxisMap.shape maps).coordinates p = α ++ β ++ γ := by
    rw [← hcoordinates, ← hextents]
    refine (Shape.coordinates_withRows ?_).symm
    rwa [Shape.sizeWith, hextents]
  have hfront : α.length = (front terms d.shape.dims).length := by
    rw [hα.length_eq, ← axesOf_dims, map_front, List.length_map, List.length_map]
    rfl
  have hbehind : γ.length = (behind terms d.shape.dims).length := by
    rw [hγ.length_eq, ← axesOf_dims, map_behind, List.length_map, List.length_map]
    rfl
  have hplace := hs.place?_cell hα hβ hγ
  rw [hposition, h.picks_eq hs (RowMajor.flatten_lt hβ), Shape.weights_withRows] at hplace
  rw [hplace, BasicIndexing.sourceOf, BasicIndexing.shape_ofAxes, hcs,
    show (BasicIndexing.ofAxes g.identity source d maps).axes = maps from rfl,
    h.coordinates α β γ hfront hβ hbehind]
  rfl

omit hs in
/-- **Both show the same**, if nothing overflows and there is no NaN to show. -/
theorem Agrees.shownAlike (hs : g.Settled s) (hb : g.Built) (hlays : d.shape.LaysOut)
    (hi : g.nodes[i]? = some (.basic (.ofAxes g.identity source d maps)))
    (hj : g.nodes[j]? =
      some (.advanced (accepted g.identity source terms d picked common rows shape)))
    (hplain : ∀ d, g.describe i = .ok d → g.Plain i d) (hplain' : ∀ d, g.describe j = .ok d → g.Plain j d)
    (hnan : ∀ xs, g.elementsOf s source = some xs → .nan ∉ xs) : g.ShownAlike s i j := by
  have hdi : g.describe i = .ok _ := describe_eq_ok.mpr ⟨_, hi, rfl⟩
  have hdj : g.describe j = .ok _ := describe_eq_ok.mpr ⟨_, hj, rfl⟩
  have hpi := hplain _ hdi
  have hpj := hplain' _ hdj
  have hseen := hs.seen hb hdi hpi.framed
  have hseen' := hs.seen hb hdj hpj.framed
  have hsize := h.sizeBy_eq (s := s) (i := i) (j := j) hpasses hlays
  have hextents := hseen.extentsIn_eq hs.full hdi hpi.counts hpi.row
  rw [hsize] at hextents
  refine ⟨_, _, _, _, hseen.elementsOf_eq hs.full hdi hpi.counts,
    hseen'.elementsOf_eq hs.full hdj hpj.counts, ?_, hextents, ?_,
    hseen.sizeIn_eq hs.full hdi hpi.counts,
    hsize ▸ hseen'.sizeIn_eq hs.full hdj hpj.counts⟩
  · rw [View.cells, View.cells, hseen.size_eq, hseen'.size_eq, hsize, List.forall₂_map_left_iff,
      List.forall₂_map_right_iff, List.forall₂_same]
    intro p hp
    -- there are elements, so the source can be looked at as well
    obtain ⟨-, hsource, -⟩ := hs.plain_of_elements hb hj (hpasses.fits g.identity hlays)
      (Nat.ne_zero_of_lt (List.mem_range.mp hp))
    obtain ⟨m, B', hselected⟩ := hs.selected_of_passes hb hpasses hlays hj hplain'
    obtain ⟨k, hk, hcell, hplace⟩ :=
      h.place?_eq hpasses hselected hi hpi.framed (hsize ▸ List.mem_range.mp hp)
    have hnan' := hnan _
      (hselected.seen_source.elementsOf_eq hs.full hselected.described_source hsource.counts)
    have hne : (g.shown s i).cell p ≠ .nan := by
      intro heq
      rw [← heq, hcell] at hnan'
      exact hnan' (List.mem_map_of_mem (List.mem_range.mpr hk))
    exact Binary64.beq_of_place?_eq (by rw [hplace, hcell]) hne
  · rw [hseen'.extentsIn_eq hs.full hdj hpj.counts hpj.row]
    exact congrArg (Except.ok ∘ (Shape.extentsOf · _)) (h.shape_eq hpasses).symm

end Shown

/-- Rows of three numbers, and every other column from the last one on, in
both ways. -/
def shutter : Graph :=
  ((((Graph.empty 0).extend
    fun _ => Node.leaf <$> Variable.rows <$> RowVariable.ofDomain [3] (.ofInt 0) (.ofInt 9) true).extend
      fun _ => .ok (.constant (.ofArray #[.ofNat 2, .ofNat 0]))).extend
        fun g => g.basicIndexing 0 [.slice .full, .slice ⟨none, none, -2⟩]).extend
          fun g => g.advancedIndexing 0 [.whole, .indexer 1]

theorem built_shutter : shutter.Built := by
  refine .extend (.extend (.extend (.extend_leaf (.empty 0) _) ?_) ?_) ?_
  · intro n hn
    obtain rfl := Except.ok.inj hn
    exact .constant _
  · exact fun _ hn => .basic hn
  · exact fun _ hn => .advanced hn

namespace Shutter

/-- There are no rows. -/
def opened : State := shutter.after [.initializeRemaining] shutter.emptyState.1

/-- One row is added. -/
def grown : State :=
  shutter.after [.edit 0 (.rows (.grow [.ofInt 3, .ofInt 4, .ofInt 5]))] opened

/-- The row is propagated. -/
def current : State := shutter.after [.propagate [0, 2, 3]] grown

theorem run_current : shutter.Run opened current [0] [] := by
  have hopened : shutter.Run opened opened [] [] :=
    .start (.of_seeded .start (seeded_emptyState shutter) (by decide +kernel)
      (call_eq_ok_after (c := .initializeRemaining) (by decide +kernel)))
  have hgrown : shutter.Run opened grown [0] [0] :=
    hopened.edit (call_eq_ok_after (c := .edit 0 _) (by decide +kernel)) (by decide +kernel)
  exact hgrown.propagate (by decide +kernel) (by decide) (by decide +kernel)
    (call_eq_ok_after (c := .propagate [0, 2, 3]) (by decide +kernel))

theorem pairing : shutter.Pairing Below [.dynamic, .fixed 3]
    [.slice .full, .slice ⟨none, none, -2⟩] [.whole, .indexer 1] :=
  @Pairing.slice shutter Below [.dynamic] [] 3 ⟨none, none, -2⟩ 1 (by decide) (by decide)
    (by decide +kernel)

end Shutter

/-- What the two ways to ask need words for: a short axis, with its last position,
which the slice whose step is the least signed word selects; axes without elements
whose strides are no words; an axis with more positions than binary64 can tell
apart, with its last but one; and three axes without elements, of which the first
one is longer than a signed word can say. -/
def brink : Graph :=
  (((((((Graph.empty 0).extend
    fun _ => Node.leaf <$> Variable.integer <$> IntegerVariable.ofBounds [3] 0 9).extend
      fun _ => .ok (.constant (.ofArray #[.ofNat 2]))).extend
        fun _ => Node.leaf <$> Variable.integer <$>
          IntegerVariable.ofBounds [0, 1099511627776, 1099511627776, 3] 0 9).extend
            fun _ => .ok (.constant (.scalar (.ofNat 1)))).extend
              fun _ => Node.leaf <$> Variable.integer <$>
                IntegerVariable.ofBounds [9007199254740993] 0 9).extend
                  fun _ => .ok (.constant (.scalar (.ofNat 9007199254740992)))).extend
                    fun _ => Node.leaf <$> Variable.integer <$>
                      IntegerVariable.ofBounds [9223372036854775808, 0, 3] 0 9

theorem built_brink : brink.Built := by
  refine .extend_leaf (.extend (.extend_leaf (.extend (.extend_leaf (.extend
    (.extend_leaf (.empty 0) _) ?_) _) ?_) _) ?_) _
  all_goals
    intro n hn
    obtain rfl := Except.ok.inj hn
    exact .constant _

end Graph
end ArrayFlow
