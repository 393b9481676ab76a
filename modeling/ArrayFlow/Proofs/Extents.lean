import ArrayFlow.Proofs.Selection

/-!
# Extents, counted and selected

An array has extents in two ways.  A view computes them axis by axis.  The
query `extentsIn` knows the shape and the number of elements, and divides that
by the size of a row.  Both are compared here with a rule that needs neither:

* `leftBy` — a position takes its axis away, and a slice leaves as many
  positions as it selects;
* `arrange` — index arrays put the extents they have in common in the place of
  the axes that they select along, or in front if these do not stand together.

The view of a basic selection follows the rule to the letter.  Whatever is
divided follows it as long as rows have elements: of rows without elements the
number is forgotten (`Shape.counted`), by `extentsIn` always, and by the view
of a selection by index arrays, which shows a buffer of its own
(`run_extents`, `slit_forgets_rows`).
-/

namespace ArrayFlow

open AdvancedIndexing

/-! ### The rule -/

/-- The extents that some selectors leave.  An axis without a selector is
kept. -/
def leftBy : List Selector → List Nat → List Nat
  | [], ns => ns
  | _, [] => []
  | .position _ :: selectors, _ :: ns => leftBy selectors ns
  | .slice s :: selectors, n :: ns => (s.selected n).length :: leftBy selectors ns

namespace AdvancedIndexing

instance (terms : List IndexTerm) : Decidable (Consecutive terms) :=
  decidable_of_iff _ consecutive_iff.symm

/-- The extents that some terms select of the extents `ns`, with index arrays
of the extents `B`. -/
def arrange (terms : List IndexTerm) (ns B : List Nat) : List Nat :=
  if Consecutive terms then front terms ns ++ B ++ behind terms ns
  else B ++ ((ns.zip terms).filter keeps).map (·.1)

/-- Index arrays behind a whole axis stand together, so the extents in common
are always found behind those in front. -/
theorem arrange_eq {terms : List IndexTerm} {ns : List Nat} (B : List Nat)
    (h : front terms ns ≠ [] → Consecutive terms) :
    arrange terms ns B = front terms ns ++ B ++ behind terms ns := by
  unfold arrange
  split
  · rfl
  · next hapart =>
    have hfront : front terms ns = [] := by
      by_contra hne
      exact hapart (h hne)
    rw [← takeWhile_append_filter, List.map_append]
    show B ++ (front terms ns ++ behind terms ns) = _
    rw [hfront, List.nil_append, List.nil_append]

end AdvancedIndexing

/-! ### Slices -/

namespace Slice

/-- A full slice selects every position. -/
theorem selected_of_isFull {s : Slice} (h : s.isFull = true) (n : Nat) :
    s.selected n = List.range n := by
  unfold isFull at h
  simp only [Bool.and_eq_true, Bool.or_eq_true, beq_iff_eq] at h
  obtain ⟨⟨hstart, hstop⟩, hstep⟩ := h
  have hpos : 0 < s.step := by omega
  have hfirst : s.first n = 0 := by
    unfold first place
    rw [if_pos hpos]
    rcases hstart with h | h <;> rw [h] <;> simp
  unfold selected
  rw [if_pos hpos, List.filter_eq_self]
  intro p _
  refine decide_eq_true ⟨hstep ▸ Int.one_dvd _, ?_⟩
  rw [if_pos hpos, hfirst, hstop]
  exact ⟨Int.natCast_nonneg p, nofun⟩

/-- The range that a slice resolves to is as long as what it selects. -/
theorem length_selected {s : Slice} {n : Nat} {r : SliceRange} (hn : n < 2 ^ 63)
    (h : s.range? n = some r) : (s.selected n).length = r.length := by
  have hstep : s.step ≠ 0 := by
    intro h0
    rw [range?, h0] at h
    cases h
  obtain ⟨r', hr, hselected⟩ := exists_range? hn hstep
  obtain rfl := Option.some.inj (h.symm.trans hr)
  rw [hselected, List.length_map, List.length_range]

end Slice

/-- An axis without a selector has a full slice. -/
theorem leftBy_cons (selectors : List Selector) (n : Nat) (ns : List Nat) :
    leftBy selectors (n :: ns) =
      leftBy (selectors.headD (.slice .full) :: selectors.tail) (n :: ns) := by
  cases selectors with
  | nil =>
    show n :: ns = (Slice.full.selected n).length :: leftBy [] ns
    rw [Slice.selected_of_isFull rfl, List.length_range]
    rfl
  | cons s selectors => rfl

namespace AxisMap

theorem ofSelectors_cons_eq_ok {axis : Nat} {d : Dim} {ds : List Dim} {selectors : List Selector}
    {maps : List AxisMap} (h : ofSelectors axis (d :: ds) selectors = .ok maps) :
    ∃ m rest, ofSelector axis d (selectors.headD (.slice .full)) = .ok m ∧
      ofSelectors (axis + 1) ds selectors.tail = .ok rest ∧ maps = m :: rest := by
  obtain ⟨m, hm, h⟩ := Outcome.bind_eq_ok.mp h
  obtain ⟨rest, hrest, h⟩ := Outcome.bind_eq_ok.mp h
  exact ⟨m, rest, hm, hrest, (Except.ok.inj h).symm⟩

/-- One selector leaves of its axis what its map leaves. -/
theorem extentsFrom_ofSelector {axis : Nat} {d : Dim} {selector : Selector} {m : AxisMap}
    (hsigned : ∀ n, d = .fixed n → n < 2 ^ 63) (h : ofSelector axis d selector = .ok m)
    (rows : Nat) {maps : List AxisMap} {selectors : List Selector} {ns : List Nat}
    (hrest : extentsFrom maps ns = leftBy selectors ns) :
    extentsFrom (m :: maps) (d.extentOr rows :: ns) =
      leftBy (selector :: selectors) (d.extentOr rows :: ns) := by
  cases d with
  | dynamic =>
    cases selector with
    | position i => cases h
    | slice s =>
      simp only [ofSelector] at h
      split at h
      · next hfull =>
        obtain rfl := Except.ok.inj h
        show rows :: extentsFrom maps ns = (s.selected rows).length :: leftBy selectors ns
        rw [hrest, Slice.selected_of_isFull hfull, List.length_range]
      · cases h
  | fixed n =>
    cases selector with
    | position i =>
      obtain ⟨_, -, -, rfl⟩ := ofPosition_eq_ok h
      exact hrest
    | slice s =>
      obtain ⟨r, hr, h⟩ := Outcome.bind_eq_ok.mp h
      have hr := Slice.resolve?_eq_ok (Outcome.fault_eq_ok.mp hr)
      cases r with
      | none => cases h
      | some r =>
        obtain rfl := Except.ok.inj h
        show r.length :: extentsFrom maps ns = (s.selected n).length :: leftBy selectors ns
        rw [hrest, Slice.length_selected (hsigned n rfl) hr]

/-- **The maps of some selectors leave the extents that the selectors
leave**, where extents are signed words. -/
theorem extentsFrom_ofSelectors {axis : Nat} {ds : List Dim} {selectors : List Selector}
    {maps : List AxisMap} (hsigned : ∀ n, .fixed n ∈ ds → n < 2 ^ 63)
    (h : ofSelectors axis ds selectors = .ok maps) (rows : Nat) :
    extentsFrom maps (ds.map (Dim.extentOr rows)) = leftBy selectors (ds.map (Dim.extentOr rows)) := by
  induction ds generalizing axis selectors maps with
  | nil =>
    obtain rfl := Except.ok.inj h
    cases selectors with
    | nil => rfl
    | cons s selectors => cases s <;> rfl
  | cons d ds ih =>
    obtain ⟨m, rest, hm, hrest, rfl⟩ := ofSelectors_cons_eq_ok h
    have hsigned' : ∀ n, .fixed n ∈ ds → n < 2 ^ 63 :=
      fun n hn => hsigned n (List.mem_cons_of_mem _ hn)
    rw [List.map_cons, leftBy_cons]
    exact extentsFrom_ofSelector (fun n hn => hsigned n (hn ▸ List.mem_cons_self)) hm rows
      (ih hsigned' hrest)

end AxisMap

/-! ### Rows that are counted -/

namespace Shape

variable {s : Shape} {rows rows' : Nat} {ns : List Nat}

/-- What becomes of extents of the shape `s` if the number of rows is found
from the number of elements: of rows without elements there are none. -/
def counted (s : Shape) (ns : List Nat) : List Nat :=
  if s.isDynamic && s.rowSize == 0 then 0 :: ns.tail else ns

theorem sizeWith_one_eq_zero (h : s.isDynamic = true) : s.sizeWith 1 = 0 ↔ s.rowSize = 0 := by
  rw [sizeWith_of_isDynamic h, Nat.one_mul]

theorem withRows_congr (h : s.isDynamic = true → rows = rows') :
    s.withRows rows = s.withRows rows' := by
  cases s with
  | static extents => rfl
  | dynamic trailing => rw [h rfl]

/-- Rows without elements have axes of their own. -/
theorem two_le_rank (h : s.isDynamic = true) (hz : s.rowSize = 0) : 2 ≤ s.rank := by
  cases s with
  | static extents => cases h
  | dynamic trailing =>
    cases trailing with
    | nil => cases hz
    | cons n trailing => exact Nat.le_add_left 2 trailing.length

/-- Rows with elements are counted. -/
theorem counted_of_rowSize_ne_zero (hz : s.rowSize ≠ 0) : s.counted ns = ns := by
  simp [counted, hz]

/-- **Extents are counted** from the elements of an array that shows them. -/
theorem Shows.counted_eq (h : s.Shows rows ns) : s.extentsOf (s.sizeWith rows) = s.counted ns := by
  obtain ⟨m, rfl, hm⟩ := h
  cases s with
  | static extents => rfl
  | dynamic trailing =>
    by_cases hz : RowMajor.size trailing = 0
    · simp [extentsOf, counted, isDynamic, rowSize, Shape.trailing, withRows, hz]
    · have hne : (dynamic trailing).rowSize ≠ 0 := hz
      rw [hm rfl hz, counted_of_rowSize_ne_zero hne]
      exact congrArg (· :: trailing) (Nat.mul_div_cancel rows (Nat.pos_of_ne_zero hz))

end Shape

namespace Graph

variable {g : Graph} {committed now s : State} {edited : List NodeId} {id source : NodeId}
  {selectors : List Selector} {terms : List IndexTerm} {d : Description}

/-- The extents that an array is seen with. -/
def viewExtents (g : Graph) (s : State) (id : NodeId) : Except Failure (List Nat) :=
  View.extents <$> g.view s id

/-- The array `id` of the given shape is seen with the extents that some
selectors leave of those that the array `source` is seen with, and has the same
extents as far as they are counted. -/
def ExtentsLeft (g : Graph) (s : State) (id : NodeId) (shape : Shape) (source : NodeId)
    (selectors : List Selector) : Prop :=
  ∃ ns, g.viewExtents s source = .ok ns ∧ g.viewExtents s id = .ok (leftBy selectors ns) ∧
    g.extentsIn s id = .ok (shape.counted (leftBy selectors ns))

/-- The array `id` of the given shape has the extents, as far as they are
counted, that some terms select of those that the array `source` is seen with.
The index arrays are seen with the extents `B`, or without axes. -/
def ExtentsArranged (g : Graph) (s : State) (id : NodeId) (shape : Shape) (source : NodeId)
    (terms : List IndexTerm) : Prop :=
  ∃ ns B, g.viewExtents s source = .ok ns ∧
    (∀ node ∈ nodesAmong terms, g.viewExtents s node = .ok [] ∨ g.viewExtents s node = .ok B) ∧
    (∃ node ∈ nodesAmong terms, g.viewExtents s node = .ok B) ∧
    g.viewExtents s id = .ok (shape.counted (arrange terms ns B)) ∧
    g.extentsIn s id = .ok (shape.counted (arrange terms ns B))

namespace Seen

variable (h : g.Seen s id d) (hf : g.Full s) (hd : g.describe id = .ok d)
include h hf hd

theorem viewExtents_eq : g.viewExtents s id = .ok (g.shown s id).extents := by
  rw [viewExtents, h.view_eq hf hd]
  rfl

/-- The extents of an array are counted from those that it is seen with. -/
theorem extentsIn_eq_counted (hplain : g.Plain id d) :
    g.extentsIn s id = .ok (d.shape.counted (g.shown s id).extents) := by
  rw [h.extentsIn_eq hf hd hplain.counts hplain.row]
  exact congrArg Except.ok h.extents.counted_eq

end Seen

/-! ### Selections by slices and positions -/

/-- What basic indexing is made of, if it is not refused. -/
theorem basicIndexing_eq_ok {b : BasicIndexing}
    (h : g.basicIndexing source selectors = .ok (.basic b)) :
    b.source = source ∧ g.describe source = .ok b.sourceDescription ∧
      AxisMap.ofSelectors 0 b.sourceDescription.shape.dims selectors = .ok b.axes ∧ b.Fits := by
  obtain ⟨d, hd, h⟩ := Outcome.bind_eq_ok.mp h
  have hd := Outcome.refusable_eq_ok.mp hd
  obtain ⟨b', hselectors, heq⟩ := Outcome.bind_eq_ok.mp h
  obtain rfl := Node.basic.inj (Except.ok.inj heq)
  obtain ⟨-, rfl, rfl, hfits⟩ := BasicIndexing.ofSelectors_fits hselectors
  obtain ⟨-, hselectors⟩ := Outcome.guard_eq_ok.mp hselectors
  obtain ⟨maps, hmaps, h⟩ := Outcome.bind_eq_ok.mp hselectors
  obtain ⟨strides, -, h⟩ := Outcome.bind_eq_ok.mp h
  obtain ⟨row, -, heq⟩ := Outcome.bind_eq_ok.mp h
  rw [← Except.ok.inj heq] at hd hfits ⊢
  exact ⟨rfl, hd, hmaps, hfits⟩

/-- In a state that is up to date, a basic selection that does not overflow has
the extents that its selectors leave. -/
theorem Settled.extentsLeft (h : g.Settled s) (hb : g.Built) {b : BasicIndexing}
    (hn : g.nodes[id]? = some (.basic b))
    (hbasic : g.basicIndexing source selectors = .ok (.basic b))
    (hsigned : ∀ n, .fixed n ∈ b.sourceDescription.shape.dims → n < 2 ^ 63)
    (hplain : g.Plain id (b.description id)) : g.ExtentsLeft s id b.shape source selectors := by
  obtain ⟨rfl, hd, hmaps, hfits⟩ := basicIndexing_eq_ok hbasic
  have hdescribed : g.describe id = .ok (b.description id) := describe_eq_ok.mpr ⟨_, hn, rfl⟩
  have hseen := h.seen hb hdescribed hplain.framed
  have hsource := h.seen hb hd (hplain.framed.source hn)
  obtain ⟨m, hextents, -, hview⟩ := viewAt_basic_eq hn hb hsource (h.inRoom _ _ hd)
  obtain ⟨f, hframe⟩ := Outcome.exists_ok hplain.framed
  rw [hframe] at hview
  have hleft : (g.shown s id).extents = leftBy selectors (g.shown s b.source).extents := by
    rw [shown_eq hview]
    show b.shape.withRows m = _
    rw [hextents, ← BasicIndexing.extentsFrom_withRows hfits, Shape.withRows_eq_map]
    exact AxisMap.extentsFrom_ofSelectors hsigned hmaps m
  refine ⟨_, hsource.viewExtents_eq h.full hd, ?_, ?_⟩
  · rw [hseen.viewExtents_eq h.full hdescribed, hleft]
  · rw [hseen.extentsIn_eq_counted h.full hdescribed hplain, hleft]
    rfl

/-! ### Selections by index arrays -/

/-- A list with at most one entry of a kind has only one such entry. -/
theorem eq_of_countP_le_one {α : Type} {p : α → Bool} {xs : List α} (h : xs.countP p ≤ 1) {x y : α}
    (hx : x ∈ xs) (hpx : p x = true) (hy : y ∈ xs) (hpy : p y = true) : x = y := by
  rw [List.countP_eq_length_filter] at h
  obtain ⟨z, hz⟩ : ∃ z, ∀ w ∈ xs.filter p, w = z := by
    match hfilter : xs.filter p, h with
    | [], _ => exact ⟨x, nofun⟩
    | [z], _ => exact ⟨z, fun w hw => List.mem_singleton.mp hw⟩
  rw [hz x (List.mem_filter.mpr ⟨hx, hpx⟩), hz y (List.mem_filter.mpr ⟨hy, hpy⟩)]

namespace Selected

variable {a : AdvancedIndexing} {picked : List Picked} {m : Nat} {B : List Nat}
  (h : g.Selected s id source terms a picked m B)
include h

/-- What is shown is a buffer, so its extents are counted, too. -/
theorem extents_shown : (g.shown s id).extents = a.shape.extentsOf (g.sizeBy s (a.description id)) := by
  obtain ⟨slot, hslot, hcur⟩ := h.settled.current id _ h.node
  cases hcur with
  | @advanced _ x hx =>
    rw [h.seen.shown_advanced h.node hslot, ← hx.size]
    rfl

/-- Rows of the source have elements if those of the result have. -/
theorem rowSize_source_ne_zero (hsource : a.sourceDescription.shape.isDynamic = true)
    (hdyn : a.shape.isDynamic = true) (hz : a.shape.rowSize ≠ 0) :
    a.sourceDescription.shape.rowSize ≠ 0 := by
  intro h0
  have hblocks := h.size_blocks_of_rowSize hsource h0 1 (a.broadcast.sizeWith 1)
  rw [size_blocks h.fits fun _ => rfl, Shape.sizeWith_one_eq_zero hdyn] at hblocks
  exact hz hblocks

/-- Rows of the index arrays have elements if those of the result have. -/
theorem rowSize_broadcast_ne_zero (hbroadcast : a.broadcast.isDynamic = true)
    (hdyn : a.shape.isDynamic = true) (hz : a.shape.rowSize ≠ 0) : a.broadcast.rowSize ≠ 0 := by
  rw [Ne, ← Shape.sizeWith_one_eq_zero hdyn, Shape.sizeWith, withRows_shape h.fits,
    RowMajor.size_append, RowMajor.size_append, Nat.mul_eq_zero, Nat.mul_eq_zero, not_or,
    not_or] at hz
  rw [Ne, ← Shape.sizeWith_one_eq_zero hbroadcast]
  exact hz.1.2

/-- **The shape has the extents of the blocks**, with the rows of the source
and of the index arrays as they are seen. -/
theorem shows_extentsWith {r k : Nat}
    (hsource : a.sourceDescription.shape.isDynamic = true →
      a.sourceDescription.shape.rowSize ≠ 0 → r = g.rowsIn s a.sourceDescription.rows.origin)
    (hbroadcast : a.broadcast.isDynamic = true → a.broadcast.rowSize ≠ 0 →
      k = g.rowsIn s (a.description id).rows.origin) :
    a.shape.Shows (g.rowsIn s (a.description id).rows.origin)
      (a.extentsWith r (a.broadcast.withRows k)) := by
  by_cases hpre : ∃ x ∈ a.pre, x.dim = .dynamic
  · -- the rows are those of the source
    obtain ⟨hdyn, hrows⟩ := rows_of_pre h.fits id hpre
    obtain ⟨x, hx, -⟩ := hpre
    have hstatic := h.fits.static (List.ne_nil_of_mem hx)
    refine ⟨r, ?_, fun hshape hz => ?_⟩
    · rw [withRows_shape h.fits, extentsWith]
      congr 2
      exact Shape.withRows_congr fun hd => absurd (hstatic.symm.trans hd) Bool.false_ne_true
    · rw [hrows]
      exact hsource hdyn (h.rowSize_source_ne_zero hdyn hshape hz)
  · -- the rows, if there are any, are those of the index arrays
    refine ⟨k, ?_, fun hshape hz => ?_⟩
    · rw [withRows_shape h.fits, extentsWith, extents_congr fun hd => absurd hd hpre,
        extents_fixed h.fits.post_fixed]
    · have hdyn : a.broadcast.isDynamic = true := by
        rw [Shape.isDynamic_iff, h.fits.dims] at hshape
        rw [Shape.isDynamic_iff]
        rcases List.mem_append.mp hshape with hmem | hmem
        · refine (List.mem_append.mp hmem).resolve_left fun hmem => hpre ?_
          exact List.mem_map.mp hmem
        · obtain ⟨x, hx, hdim⟩ := List.mem_map.mp hmem
          exact absurd hdim (h.fits.post_fixed x hx)
      exact hbroadcast hdyn (h.rowSize_broadcast_ne_zero hdyn hshape hz)

/-- Index arrays of one shape are seen with the same extents: only one of them
can have rows that are not counted. -/
theorem extents_indexer (hmulti : picked.countP (2 ≤ ·.2.2.shape.rank) ≤ 1) {e f : Picked}
    (he : e ∈ picked) (hf : f ∈ picked) (hshape : e.2.2.shape = f.2.2.shape) :
    (g.shown s e.2.1).extents = (g.shown s f.2.1).extents := by
  by_cases hz : e.2.2.shape.isDynamic = true ∧ e.2.2.shape.rowSize = 0
  · have hrank := Shape.two_le_rank hz.1 hz.2
    rw [eq_of_countP_le_one hmulti he (decide_eq_true hrank) hf (decide_eq_true (hshape ▸ hrank))]
  · obtain ⟨k, hk, hrows⟩ := (h.seen_indexer he).extents
    obtain ⟨l, hl, hrows'⟩ := (h.seen_indexer hf).extents
    rw [hk, hl, ← hshape]
    refine Shape.withRows_congr fun hdyn => ?_
    have hne : e.2.2.shape.rowSize ≠ 0 := fun h0 => hz ⟨hdyn, h0⟩
    rw [hrows hdyn hne, hrows' (hshape ▸ hdyn) (hshape ▸ hne), origin_picked h.fits he hdyn id,
      origin_picked h.fits hf (hshape ▸ hdyn) id]

/-- A selection by index arrays has the extents of the rule, as far as they
are counted. -/
theorem extentsArranged (hmulti : picked.countP (2 ≤ ·.2.2.shape.rank) ≤ 1)
    (hlayout : front terms (axesOf a.sourceDescription) ≠ [] → Consecutive terms) :
    g.ExtentsArranged s id a.shape source terms := by
  have hfull := h.settled.full
  obtain ⟨f, hf, hcommon⟩ := h.fits.common
  obtain ⟨r, hns, hr⟩ := h.seen_source.extents
  obtain ⟨k, hk, hrows⟩ := (h.seen_indexer hf).extents
  have hrows' : a.broadcast.isDynamic = true → a.broadcast.rowSize ≠ 0 →
      k = g.rowsIn s (a.description id).rows.origin := by
    intro hdyn hz
    rw [← hcommon] at hdyn hz
    rw [hrows hdyn hz, origin_picked h.fits hf hdyn id]
  have hcounted := (h.shows_extentsWith hr hrows').counted_eq
  have hrule : arrange terms (g.shown s source).extents (g.shown s f.2.1).extents =
      a.extentsWith r (a.broadcast.withRows k) := by
    rw [hns, hk, hcommon, arrange_eq, front_withRows, behind_withRows, h.front_eq, h.behind_eq]
    · rw [extentsWith]
    · rw [front_withRows]
      exact fun hne => hlayout fun hnil => hne (by rw [hnil, List.map_nil])
  rw [← hrule] at hcounted
  refine ⟨_, (g.shown s f.2.1).extents, h.seen_source.viewExtents_eq hfull h.described_source,
    ?_, ?_, ?_, ?_⟩
  · rw [← h.nodes, List.forall_mem_map]
    intro e he
    rw [(h.seen_indexer he).viewExtents_eq hfull (h.fits.described e he)]
    rcases h.fits.shapes e he with hrank | hshape
    · obtain ⟨l, hl, -⟩ := (h.seen_indexer he).extents
      refine .inl (congrArg Except.ok ?_)
      rw [hl, ← List.length_eq_zero_iff, Shape.withRows_eq_map, List.length_map,
        Shape.length_dims, hrank]
    · exact .inr (congrArg Except.ok (h.extents_indexer hmulti he hf (hshape.trans hcommon.symm)))
  · refine ⟨f.2.1, h.nodes ▸ List.mem_map_of_mem hf, ?_⟩
    exact (h.seen_indexer hf).viewExtents_eq hfull (h.fits.described f hf)
  · rw [h.seen.viewExtents_eq hfull h.described, h.extents_shown]
    exact congrArg Except.ok hcounted
  · rw [h.seen.extentsIn_eq hfull h.described h.plain.counts h.plain.row]
    exact congrArg Except.ok hcounted

end Selected

/-- In a state that is up to date, a selection by index arrays that does not
overflow has the extents that its terms select. -/
theorem Settled.extentsArranged (h : g.Settled s) (hb : g.Built) {a : AdvancedIndexing}
    (hn : g.nodes[id]? = some (.advanced a))
    (hadvanced : g.advancedIndexing source terms = .ok (.advanced a))
    (hplain : ∀ d, g.describe id = .ok d → g.Plain id d) :
    g.ExtentsArranged s id a.shape source terms := by
  obtain ⟨a', hterms, heq⟩ := advancedIndexing_eq_ok.mp hadvanced
  obtain rfl := Node.advanced.inj heq
  obtain ⟨d, picked, common, rows, shape, hpasses, hlays, rfl⟩ := ofTerms_eq_ok.mp hterms
  obtain ⟨m, B, hselected⟩ := h.selected_of_passes hb hpasses hlays hn hplain
  exact hselected.extentsArranged hpasses.multiDim fun hne =>
    (forall_behind_keeps hpasses.rank).mp (hpasses.consecutive hne)

/-- **Extents follow the rule.**  Whenever no edit is waiting, every selection
has the extents that its selectors leave, or that its terms select, of those
that its source is seen with: as they are if it is a view, and as far as rows
are counted if they are found from a number of elements; or it overflows when it
is looked at or asked for them. -/
theorem run_extents (hb : g.Built) (h : g.Run committed now edited []) :
    (∀ id b, g.nodes[id]? = some (.basic b) →
      (∃ source selectors, g.basicIndexing source selectors = .ok (.basic b)) ∧
        ∀ source selectors, g.basicIndexing source selectors = .ok (.basic b) →
          (∀ n, .fixed n ∈ b.sourceDescription.shape.dims → n < 2 ^ 63) →
            g.Overflows now id ∨ g.ExtentsLeft now id b.shape source selectors) ∧
    ∀ id a, g.nodes[id]? = some (.advanced a) →
      (∃ source terms, g.advancedIndexing source terms = .ok (.advanced a)) ∧
        ∀ source terms, g.advancedIndexing source terms = .ok (.advanced a) →
          g.Overflows now id ∨ g.ExtentsArranged now id a.shape source terms := by
  obtain ⟨base, past, hepoch⟩ := h.epoch hb
  have hsettled := hepoch.settled rfl
  constructor
  · intro id b hn
    have hd : g.describe id = .ok (b.description id) := describe_eq_ok.mpr ⟨_, hn, rfl⟩
    exact ⟨hb.exists_selectors hn, fun _ _ hbasic hsigned =>
      (hsettled.overflows_or_plain hb hd).imp_right (hsettled.extentsLeft hb hn hbasic hsigned)⟩
  · intro id a hn
    refine ⟨hb.exists_terms hn, fun _ _ hadvanced => ?_⟩
    by_cases ho : g.Overflows now id
    · exact .inl ho
    · exact .inr (hsettled.extentsArranged hb hn hadvanced fun d hd =>
        (hsettled.overflows_or_plain hb hd).resolve_left ho)

open Table in
set_option maxRecDepth 4000 in
/-- The row of the table in the new order, and its first number. -/
theorem table_extents : (table.Built ∧ table.Run opened current [1, 0] []) ∧
    table.ExtentsArranged current 2 (.dynamic [2]) 0 [.whole, .indexer 1] ∧
      table.ExtentsLeft current 3 (.dynamic []) 2 [.slice ⟨none, none, 1⟩, .position 0] ∧
        table.viewExtents current 2 = .ok [1, 2] ∧ table.viewExtents current 3 = .ok [1] := by
  obtain ⟨hbasic, hadvanced⟩ := run_extents built_table run_current
  obtain ⟨a, hn, hterms, hshape⟩ : ∃ a, table.nodes[2]? = some (.advanced a) ∧
    table.advancedIndexing 0 [.whole, .indexer 1] = .ok (.advanced a) ∧
      a.shape = .dynamic [2] := ⟨_, rfl, rfl, rfl⟩
  obtain ⟨b, hn', hselectors, hshape', hdims⟩ : ∃ b, table.nodes[3]? = some (.basic b) ∧
    table.basicIndexing 2 [.slice ⟨none, none, 1⟩, .position 0] = .ok (.basic b) ∧
      b.shape = .dynamic [] ∧ b.sourceDescription.shape.dims = [.dynamic, .fixed 2] :=
    ⟨_, rfl, rfl, rfl, rfl⟩
  have harranged := ((hadvanced 2 a hn).2 0 _ hterms).resolve_left (by decide +kernel)
  have hleft := ((hbasic 3 b hn').2 2 _ hselectors (by simp [hdims])).resolve_left (by decide +kernel)
  exact ⟨⟨built_table, run_current⟩, hshape ▸ harranged, hshape' ▸ hleft, by decide +kernel,
    by decide +kernel⟩

/-- Rows of two numbers, no columns of them, selected in both ways, and axes
without elements of which the first one is longer than a signed number can
say. -/
def slit : Graph :=
  ((((((Graph.empty 0).extend
    fun _ => Node.leaf <$> Variable.rows <$> RowVariable.ofDomain [2] (.ofInt 0) (.ofInt 9) true).extend
      fun g => g.basicIndexing 0 [.slice .full, .slice ⟨some 0, some 0, 1⟩]).extend
        fun _ => .ok (.constant (.ofArray #[]))).extend
          fun g => g.advancedIndexing 0 [.whole, .indexer 2]).extend
            fun _ => Node.leaf <$> Variable.integer <$>
              IntegerVariable.ofBounds [9223372036854775808, 0] 0 9).extend
                fun g => g.basicIndexing 4 [.slice .full, .slice .full]

theorem built_slit : slit.Built := by
  refine .extend (.extend_leaf (.extend (.extend (.extend (.extend_leaf (.empty 0) _) ?_) ?_) ?_) _) ?_
  · exact fun _ hn => .basic hn
  · intro n hn
    obtain rfl := Except.ok.inj hn
    exact .constant _
  · exact fun _ hn => .advanced hn
  · exact fun _ hn => .basic hn

namespace Slit

/-- There are no rows. -/
def opened : State := slit.after [.initializeRemaining] slit.emptyState.1

/-- One row is added. -/
def grown : State := slit.after [.edit 0 (.rows (.grow [.ofInt 3, .ofInt 4]))] opened

/-- The row is propagated. -/
def current : State := slit.after [.propagate [0, 1, 3]] grown

theorem run_current : slit.Run opened current [0] [] := by
  have hopened : slit.Run opened opened [] [] :=
    .start (.of_seeded .start (seeded_emptyState slit) (by decide +kernel)
      (call_eq_ok_after (c := .initializeRemaining) (by decide +kernel)))
  have hgrown : slit.Run opened grown [0] [0] :=
    hopened.edit (call_eq_ok_after (c := .edit 0 _) (by decide +kernel)) (by decide +kernel)
  exact hgrown.propagate (by decide +kernel) (by decide) (by decide +kernel)
    (call_eq_ok_after (c := .propagate [0, 1, 3]) (by decide +kernel))

end Slit

open Slit in
set_option maxRecDepth 4000 in
/-- **Rows without elements are forgotten.**  One row without its columns has
the extents `[1, 0]`.  Only the view of the slice shows them.  And an extent
from `2 ^ 63` on is lost to a full slice. -/
theorem slit_forgets_rows : (slit.Built ∧ slit.Run opened current [0] []) ∧
    slit.viewExtents current 0 = .ok [1, 2] ∧ slit.viewExtents current 2 = .ok [0] ∧
    ((slit.nodes[1]? =
          (slit.basicIndexing 0 [.slice .full, .slice ⟨some 0, some 0, 1⟩]).toOption ∧
        leftBy [.slice .full, .slice ⟨some 0, some 0, 1⟩] [1, 2] = [1, 0]) ∧
      slit.viewExtents current 1 = .ok [1, 0] ∧ slit.extentsIn current 1 = .ok [0, 0]) ∧
    ((slit.nodes[3]? = (slit.advancedIndexing 0 [.whole, .indexer 2]).toOption ∧
        arrange [.whole, .indexer 2] [1, 2] [0] = [1, 0]) ∧
      slit.viewExtents current 3 = .ok [0, 0] ∧ slit.extentsIn current 3 = .ok [0, 0]) ∧
    slit.viewExtents current 4 = .ok [9223372036854775808, 0] ∧
      (slit.nodes[5]? = (slit.basicIndexing 4 [.slice .full, .slice .full]).toOption ∧
        leftBy [.slice .full, .slice .full] [9223372036854775808, 0] =
          [9223372036854775808, 0]) ∧
      slit.viewExtents current 5 = .ok [0, 0] ∧ slit.extentsIn current 5 = .ok [0, 0] := by
  refine ⟨⟨built_slit, run_current⟩, by decide +kernel, by decide +kernel,
    ⟨⟨by with_unfolding_all rfl, by decide +kernel⟩, by decide +kernel, by decide +kernel⟩,
    ⟨⟨by with_unfolding_all rfl, by decide +kernel⟩, by decide +kernel, by decide +kernel⟩,
    by decide +kernel, ⟨by with_unfolding_all rfl, ?_⟩, by decide +kernel, by decide +kernel⟩
  simp [leftBy, Slice.selected_of_isFull (s := .full) rfl]

end Graph
end ArrayFlow
