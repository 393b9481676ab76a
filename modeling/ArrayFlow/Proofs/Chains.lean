import ArrayFlow.Proofs.Bounds
import ArrayFlow.Proofs.EditScripts
import ArrayFlow.Proofs.Extents

/-!
# Selections of selections

A basic selection looks through its source, which may itself be a basic
selection, down to the array that has the buffer.  Offsets and strides of
either sign add up along such a chain, and nothing that is added up may lead
out of the buffer or put two elements in one place.  A view that is right in
this sense **exhibits** an array of some shape (`View.Exhibits`).  Constants
and buffers are exhibited, and one link keeps it
(`BasicIndexing.exhibits_view`); so in every state that calls lead to, whether
or not it is up to date, each array with a slot is (`exhibits_viewAt`).

A step times a stride can be more than a word says, and then the selection
cannot be looked at (`inverts_view_fails`), even if no step is longer than the
source allows (`follows_selectors_fails`).  There is no other fault
(`viewAt_error`), and where there is something to see it takes a slice to a
single position, whose step leads nowhere (`BasicIndexing.exists_view`).  Two
things follow for a selection that does not overflow.

* `translate_inverts_view` — translating a position of the source and looking
  for its element in the view are the same, and neither of them loses or
  doubles an element.
* `view_follows_selectors` — the element at some coordinates is the one to
  which the selectors lead (`Selector.Leads`), however long the chain.

Strides are signed words, so a buffer must not have more than `maxElements`
elements (`Graph.Buffered`).  No array has more.
-/

namespace ArrayFlow

/-- A view that shows an array of the shape, with a number of rows, in its
buffer: each element has a place of its own there. -/
structure View.Exhibits (v : View) (shape : Shape) (rows : Nat) : Prop where
  regular : v.Regular
  extents : v.extents = shape.withRows rows
  fits : v.size ≤ v.data.size
  apart : ∀ k < v.size, ∀ k' < v.size, v.position k = v.position k' → k = k'

namespace View.Exhibits

variable {v : View} {shape : Shape} {rows : Nat}

theorem size_eq (h : v.Exhibits shape rows) : v.size = shape.sizeWith rows :=
  congrArg RowMajor.size h.extents

theorem room (h : v.Exhibits shape rows) (hroom : v.data.size ≤ maxElements) :
    shape.sizeWith rows ≤ maxElements := by
  have := h.fits
  rw [h.size_eq] at this
  omega

/-- Nothing that is added up on the way to an element leads far away. -/
theorem near (h : v.Exhibits shape rows) (hroom : v.data.size ≤ maxElements) :
    AxisMap.Near 0 v.extents v.strides := by
  intro cs hcs
  have hplace : ∀ ks, RowMajor.Within ks v.extents →
      0 ≤ v.offset + RowMajor.dot ks v.strides ∧
        v.offset + RowMajor.dot ks v.strides < v.data.size := by
    intro ks hks
    have hlt := RowMajor.flatten_lt hks
    have hinside := h.regular.readable.inside _ hlt
    rwa [h.regular.strided _ hlt, RowMajor.coordinates_flatten hks] at hinside
  have hzero := hplace _ (RowMajor.within_coordinates (Nat.zero_lt_of_lt (RowMajor.flatten_lt hcs)))
  rw [RowMajor.dot_coordinates_zero] at hzero
  have := hplace cs hcs
  rw [Int.zero_add, and_self, abs_le]
  omega

/-- The beginning of a buffer is exhibited. -/
theorem ofArray {data : Array Binary64} {extents : List Nat}
    (hextents : extents = shape.withRows rows) (hsize : RowMajor.size extents ≤ data.size)
    (hroom : data.size ≤ maxElements) : (View.ofArray data extents).Exhibits shape rows where
  regular := View.ofArray_regular hsize (Nat.le_trans hsize hroom)
  extents := hextents
  fits := hsize
  apart k _ k' _ h := by
    rw [View.position_ofArray, View.position_ofArray] at h
    omega

/-- So is a buffer under its shape, if a fixed shape has the size of it.  A
remainder that fills no row is not shown. -/
theorem bufferView {values : Array Binary64} (hv : Graph.bufferView shape values = .ok v)
    (hstill : shape.isDynamic = false → values.size = shape.sizeWith 0)
    (hroom : values.size ≤ maxElements) : ∃ rows, v.Exhibits shape rows := by
  obtain ⟨-, rfl⟩ := frame_of_bufferView hv
  cases shape with
  | static ns => exact ⟨0, ofArray rfl (hstill rfl).ge hroom⟩
  | dynamic ns =>
    exact ⟨values.size / RowMajor.size ns, ofArray rfl (Nat.div_mul_le_self _ _) hroom⟩

end View.Exhibits

/-! ### One link -/

namespace BasicIndexing

/-- What it takes for the view of a selection to overflow, if there is a view of
the source: there is nothing to see, or a slice to a single position has a step
that is too long for the stride along its axis. -/
inductive Strains (b : BasicIndexing) (source : View) : Prop
  | noSource (h : source.size = 0)
  | noPosition {r : SliceRange} (hr : .range r ∈ b.axes) (h : r.length = 0)
  | step {r : SliceRange} {stride : Int} (hr : (.range r, stride) ∈ b.axes.zip source.strides)
      (hone : r.length = 1) (hover : signed (r.step * stride) = .error .overflow)

variable {b : BasicIndexing} {v w : View} {rows : Nat} (h : b.Fits)
  (hw : w.Exhibits b.sourceDescription.shape rows) (hroom : w.data.size ≤ maxElements)
include h hw hroom

/-- Two positions of the result stand for different ones. -/
theorem eq_of_sourceOf_eq {k k' : Nat} (hk : k < b.shape.sizeWith rows)
    (hk' : k' < b.shape.sizeWith rows) (heq : b.sourceOf k = b.sourceOf k') : k = k' := by
  have hback := target?_sourceOf h (hw.room hroom) hk
  rw [heq, target?_sourceOf h (hw.room hroom) hk'] at hback
  exact (Option.some.inj hback).symm

/-- Where an exhibited array cannot be looked through, a word overflows. -/
theorem error_of_exhibits {f : Fault} (hv : b.view w = .error f) : f = .overflow := by
  rw [view_eq h (hw.room hroom) hw.regular hw.extents] at hv
  exact frame_eq_error (Outcome.map_eq_error.mp hv)

/-- An exhibited array can be looked through where nothing is strained. -/
theorem exists_view (hstrains : ¬ b.Strains w) : ∃ v, b.view w = .ok v := by
  have hmax : maxElements < 2 ^ 60 := by decide
  have hsource := hw.room hroom
  have hz : w.size ≠ 0 := fun hz => hstrains (.noSource hz)
  have hz' : b.sourceDescription.shape.sizeWith rows ≠ 0 := hw.size_eq ▸ hz
  have hon := AxisMap.on_of_room h.axes hz' hsource
  rw [← hw.extents] at hon
  have hlength : ∀ r, .range r ∈ b.axes → r.length ≠ 0 :=
    fun r hr h0 => hstrains (.noPosition hr h0)
  obtain ⟨⟨distance, strides⟩, hframe⟩ := AxisMap.exists_frame hon hw.regular.length_strides hz
    (hw.near hroom) hlength fun r s hr hone hover => hstrains (.step hr hone hover)
  have hpos : 0 < b.shape.sizeWith rows := by
    have hsize := AxisMap.size_extentsFrom_ne_zero hon hz hlength
    rw [hw.extents, extentsFrom_withRows h] at hsize
    exact Nat.pos_of_ne_zero hsize
  have hplace := dot_frame h hsource hw.regular hw.extents hframe hpos
  rw [RowMajor.dot_coordinates_zero, Int.add_zero] at hplace
  have hlt : b.sourceOf 0 < w.size := hw.size_eq ▸ sourceOf_lt h hsource hpos
  obtain ⟨hlow, hhigh⟩ := hw.regular.readable.inside _ hlt
  have hstart : signed (signedWord w.offset + distance) = .ok (w.position (b.sourceOf 0)) := by
    rw [signedWord_offset h hw.regular hw.extents (Nat.ne_of_gt hpos), hplace]
    exact signed_of_mem (by omega) (by omega)
  have hfound : b.frame w.offset w.strides = .ok ((w.position (b.sourceOf 0)).toNat, strides) :=
    Outcome.bind_eq_ok.mpr ⟨_, hframe, Outcome.bind_eq_ok.mpr ⟨_, hstart, rfl⟩⟩
  rw [view_eq h hsource hw.regular hw.extents, hfound]
  exact ⟨_, rfl⟩

variable (hv : b.view w = .ok v)
include hv

/-- **One link.**  A selection of an exhibited array is exhibited. -/
theorem exhibits_view : v.Exhibits b.shape rows := by
  have hsource := hw.room hroom
  obtain ⟨hextents, hregular, hposition, -⟩ := view_spec h hsource hw.regular hw.extents hv
  have hsize : v.size = b.shape.sizeWith rows := congrArg RowMajor.size hextents
  refine ⟨hregular, hextents, ?_, fun k hk k' hk' heq => ?_⟩
  · calc v.size = b.shape.sizeWith rows := hsize
      _ ≤ b.sourceDescription.shape.sizeWith rows := sizeWith_le h rows
      _ = w.size := hw.size_eq.symm
      _ ≤ w.data.size := hw.fits
      _ = v.data.size := by rw [data_of_view hv]
  · rw [hsize] at hk hk'
    rw [hposition k hk, hposition k' hk'] at heq
    refine eq_of_sourceOf_eq h hw hroom hk hk' (hw.apart _ ?_ _ ?_ heq)
    · exact hw.size_eq ▸ sourceOf_lt h hsource hk
    · exact hw.size_eq ▸ sourceOf_lt h hsource hk'

/-- A position of the result is that of an element of the source. -/
theorem position_of_exhibits {k : Nat} (hk : k < b.shape.sizeWith rows) :
    b.sourceOf k < w.size ∧ v.position k = w.position (b.sourceOf k) := by
  have hsource := hw.room hroom
  obtain ⟨-, -, hposition, -⟩ := view_spec h hsource hw.regular hw.extents hv
  exact ⟨hw.size_eq ▸ sourceOf_lt h hsource hk, hposition k hk⟩

/-- A position of the source is translated to the position at which the view
shows it. -/
theorem translate?_eq_some_iff {f : Nat} (hf : f < w.size) {i : Nat} :
    b.translate? f = .ok (some i) ↔ i < v.size ∧ v.place i = .ok (w.position f) := by
  have hsource := hw.room hroom
  have hexhibits := exhibits_view h hw hroom hv
  have hplace : i < v.size ∧ v.place i = .ok (w.position f) ↔
      i < v.size ∧ v.position i = w.position f :=
    and_congr_right fun hi => by rw [hexhibits.regular.readable.place_eq hi, Except.ok.injEq]
  rw [translate?_eq h hsource (hw.size_eq ▸ hf), Except.ok.injEq, hplace, hexhibits.size_eq]
  constructor
  · intro hi
    obtain ⟨hlt, rfl⟩ := sourceOf_of_target? h hsource (hw.size_eq ▸ hf) hi
    exact ⟨hlt, (position_of_exhibits h hw hroom hv hlt).2⟩
  · rintro ⟨hlt, hplace⟩
    obtain ⟨hltSource, hposition⟩ := position_of_exhibits h hw hroom hv hlt
    rw [hposition] at hplace
    rw [← hw.apart _ hltSource _ hf hplace]
    exact target?_sourceOf h hsource hlt

/-- A position of the source that is not translated is not shown. -/
theorem translate?_eq_none_iff {f : Nat} (hf : f < w.size) :
    b.translate? f = .ok none ↔ ∀ i < v.size, v.place i ≠ .ok (w.position f) := by
  have hfound := translate?_eq h (hw.room hroom) (hw.size_eq ▸ hf)
  rw [hfound, Except.ok.injEq, Option.eq_none_iff_forall_ne_some]
  refine forall_congr' fun i => ?_
  rw [← not_and, ← translate?_eq_some_iff h hw hroom hv hf, hfound, Except.ok.injEq]

/-- No two positions of the source are translated to one. -/
theorem eq_of_translate?_eq {f f' i : Nat} (hf : f < w.size) (hf' : f' < w.size)
    (hi : b.translate? f = .ok (some i)) (hi' : b.translate? f' = .ok (some i)) : f = f' := by
  have hplace := ((translate?_eq_some_iff h hw hroom hv hf).mp hi).2
  have hplace' := ((translate?_eq_some_iff h hw hroom hv hf').mp hi').2
  exact hw.apart f hf f' hf' (Except.ok.inj (hplace.symm.trans hplace'))

/-- Every position of the result comes from one of the source. -/
theorem existsUnique_translate? {i : Nat} (hi : i < v.size) :
    ∃! f, f < w.size ∧ b.translate? f = .ok (some i) := by
  have hsource := hw.room hroom
  rw [(exhibits_view h hw hroom hv).size_eq] at hi
  obtain ⟨hlt, -⟩ := position_of_exhibits h hw hroom hv hi
  have hback : b.translate? (b.sourceOf i) = .ok (some i) := by
    rw [translate?_eq h hsource (hw.size_eq ▸ hlt), target?_sourceOf h hsource hi]
  exact ⟨_, ⟨hlt, hback⟩, fun f hf => eq_of_translate?_eq h hw hroom hv hf.1 hlt hf.2 hback⟩

/-- The element at some coordinates of the result is the one at those that the
axes make of them. -/
theorem position_of_coordinates {ks : List Nat} (hks : RowMajor.Within ks v.extents) :
    RowMajor.Within (AxisMap.sourceCoordinates b.axes ks) w.extents ∧
      v.position (RowMajor.flatten ks (RowMajor.weights v.extents)) =
        w.position (RowMajor.flatten (AxisMap.sourceCoordinates b.axes ks)
          (RowMajor.weights w.extents)) := by
  have hsource := hw.room hroom
  rw [(exhibits_view h hw hroom hv).extents] at hks ⊢
  have hlt := RowMajor.flatten_lt hks
  have hcoordinates : b.shape.coordinates (RowMajor.flatten ks
      (RowMajor.weights (b.shape.withRows rows))) = ks := by
    rw [← Shape.coordinates_withRows hlt, RowMajor.coordinates_flatten hks]
  have hwithin := within_sourceOf h hsource hlt
  rw [hcoordinates] at hwithin
  refine ⟨hw.extents ▸ hwithin, ?_⟩
  rw [(position_of_exhibits h hw hroom hv hlt).2, sourceOf, hcoordinates, hw.extents,
    Shape.weights_withRows]

end BasicIndexing

/-! ### What the selectors say -/

/-- Some selectors of axes lead from the coordinates of an element of the
selection to its coordinates in the source: the dynamic axis is as it was, a
slice counts its steps from its start, and a position is counted from the end
if it is negative.  An axis without a selector has a full slice. -/
inductive Selector.Leads : List Dim → List Selector → List Nat → List Nat → Prop
  | nil {selectors : List Selector} : Leads [] selectors [] []
  | dynamic {dims : List Dim} {selectors : List Selector} {ks cs : List Nat} (k : Nat)
      (rest : Leads dims selectors.tail ks cs) :
      Leads (.dynamic :: dims) selectors (k :: ks) (k :: cs)
  | slice {n : Nat} {dims : List Dim} {selectors : List Selector} {ks cs : List Nat} {s : Slice}
      {r : SliceRange} {k c : Nat} (hs : selectors.headD (.slice .full) = .slice s)
      (hr : s.resolve? n = .ok (some r)) (hk : k < r.length) (hc : (c : Int) = r.start + r.step * k)
      (rest : Leads dims selectors.tail ks cs) :
      Leads (.fixed n :: dims) selectors (k :: ks) (c :: cs)
  | position {n : Nat} {dims : List Dim} {selectors : List Selector} {ks cs : List Nat} {i : Int}
      {c : Nat} (hs : selectors.headD (.slice .full) = .position i)
      (hc : (c : Int) = Slice.place n i) (rest : Leads dims selectors.tail ks cs) :
      Leads (.fixed n :: dims) selectors ks (c :: cs)

/-- They lead to one element. -/
theorem Selector.Leads.unique {dims : List Dim} {selectors : List Selector} {ks cs cs' : List Nat}
    (h : Leads dims selectors ks cs) (h' : Leads dims selectors ks cs') : cs' = cs := by
  induction h generalizing cs' with
  | nil =>
    cases h'
    rfl
  | dynamic k _ ih =>
    cases h' with
    | dynamic _ rest => rw [ih rest]
  | slice hs hr _ hc _ ih =>
    cases h' with
    | slice hs' hr' _ hc' rest =>
      obtain rfl := Selector.slice.inj (hs.symm.trans hs')
      obtain rfl := Option.some.inj (Except.ok.inj (hr.symm.trans hr'))
      rw [ih rest, Int.natCast_inj.mp (hc'.trans hc.symm)]
    | position hs' _ _ => cases hs.symm.trans hs'
  | position hs hc _ ih =>
    cases h' with
    | slice hs' _ _ _ _ => cases hs.symm.trans hs'
    | position hs' hc' rest =>
      obtain rfl := Selector.position.inj (hs.symm.trans hs')
      rw [ih rest, Int.natCast_inj.mp (hc'.trans hc.symm)]

namespace AxisMap

theorem cast_of_ofPosition {n p : Nat} {i : Int} (hn : n < 2 ^ 63)
    (h : ofPosition n i = .ok (position p)) : (p : Int) = Slice.place n i := by
  obtain ⟨index, hindex, hlt, hp⟩ := ofPosition_eq_ok h
  obtain rfl := position.inj hp
  rw [Int.toNat_of_nonneg hlt.1, Slice.place]
  rw [signedWord_of_lt hn] at hindex
  split at hindex
  · next hneg => rw [if_pos hneg, hindex]
  · next hneg => rw [if_neg hneg, hindex]

/-- The maps of some selectors lead where the selectors lead. -/
theorem leads_sourceCoordinates {axis rows : Nat} {ds : List Dim} {selectors : List Selector}
    {maps : List AxisMap} {ks : List Nat} (hsigned : ∀ n, .fixed n ∈ ds → n < 2 ^ 63)
    (h : ofSelectors axis ds selectors = .ok maps)
    (hon : List.Forall₂ On (ds.map (Dim.extentOr rows)) maps)
    (hk : RowMajor.Within ks (extentsFrom maps (ds.map (Dim.extentOr rows)))) :
    Selector.Leads ds selectors ks (sourceCoordinates maps ks) := by
  induction ds generalizing axis selectors maps ks with
  | nil =>
    obtain rfl := Except.ok.inj h
    cases hk
    exact .nil
  | cons d ds ih =>
    obtain ⟨m, rest, hm, hrest, rfl⟩ := ofSelectors_cons_eq_ok h
    have hsigned' : ∀ n, .fixed n ∈ ds → n < 2 ^ 63 :=
      fun n hn => hsigned n (List.mem_cons_of_mem _ hn)
    rw [List.map_cons] at hon hk
    obtain ⟨hhead, htail⟩ := List.forall₂_cons.mp hon
    cases d with
    | dynamic =>
      obtain rfl : m = whole := ofSelector_fits hm
      cases hk with
      | cons _ hks => exact .dynamic _ (ih hsigned' hrest htail hks)
    | fixed n =>
      cases hselector : selectors.headD (.slice .full) with
      | position i =>
        rw [hselector] at hm
        obtain ⟨_, -, -, rfl⟩ := ofPosition_eq_ok hm
        exact .position hselector (cast_of_ofPosition (hsigned n List.mem_cons_self) hm)
          (ih hsigned' hrest htail hk)
      | slice s =>
        rw [hselector] at hm
        obtain ⟨r, hr, hm⟩ := Outcome.bind_eq_ok.mp hm
        have hr := Outcome.fault_eq_ok.mp hr
        cases r with
        | none => cases hm
        | some r =>
          obtain rfl := Except.ok.inj hm
          cases hk with
          | cons hkr hks =>
            refine .slice hselector hr hkr ?_ (ih hsigned' hrest htail hks)
            rw [SliceRange.On.cast_position hhead hkr, Int.mul_comm]

end AxisMap

namespace Graph

variable {g : Graph} {s : State} {id source : NodeId} {d : Description} {b : BasicIndexing}
  {selectors : List Selector} {v w : View}

/-! ### Every array in every state -/

/-- **Down the chain.**  Every array that has a slot is exhibited, in every
state that calls lead to. -/
theorem exhibits_viewAt (hb : g.Built) (hr : g.Reached s) (hd : g.describe id = .ok d)
    (hv : g.viewAt s id = .ok v) (hroom : v.data.size ≤ maxElements) :
    ∃ rows, v.Exhibits d.shape rows := by
  induction id using Nat.strong_induction_on generalizing d v with
  | _ id ih =>
    rcases viewAt_cases hd hv with ⟨c, hn, rfl⟩ | ⟨slot, j, hslot, hj, hv⟩ | ⟨b, w, hn, hw, hv⟩
    · obtain rfl := Option.some.inj (description?_eq hn hd)
      exact ⟨0, .ofArray rfl c.size_values.ge hroom⟩
    · have hdata : v.data = j.values := by
        obtain ⟨-, rfl⟩ := frame_of_bufferView hv
        rfl
      refine View.Exhibits.bufferView hv (fun hstatic => ?_) (hdata ▸ hroom)
      exact ((lasting_still hb).reached hr id slot j hslot hj d hd hstatic).2.current
    · obtain rfl := description_basic hn hd
      obtain ⟨hsource, hfits⟩ := hb.promises hn
      rw [BasicIndexing.data_of_view hv] at hroom
      obtain ⟨rows, hexhibits⟩ := ih b.source (lt_of_basic hn) hsource hw hroom
      exact ⟨rows, BasicIndexing.exhibits_view hfits hexhibits hroom hv⟩

/-- No array that can be looked at lies in a buffer of more elements than there
is room for. -/
def Buffered (g : Graph) (s : State) : Prop :=
  ∀ i v, g.view s i = .ok v → v.data.size ≤ maxElements

theorem lt_size_of_view (hv : g.view s id = .ok v) : id < g.size := by
  obtain ⟨_, hready, -⟩ := Outcome.bind_eq_ok.mp hv
  obtain ⟨d, hd, -⟩ := Outcome.bind_eq_ok.mp (Outcome.refusable_eq_ok.mp hready)
  obtain ⟨_, hn, -⟩ := describe_eq_ok.mp hd
  exact lt_size hn

instance (g : Graph) (s : State) : Decidable (g.Buffered s) :=
  decidable_of_iff (∀ i < g.size, ∀ v ∈ (g.view s i).toOption, v.data.size ≤ maxElements) (by
    constructor
    · intro h i v hv
      exact h i (lt_size_of_view hv) v (by rw [hv]; rfl)
    · intro h i _ v hv
      refine h i v ?_
      cases hview : g.view s i with
      | ok w => rw [hview] at hv; exact congrArg Except.ok (Option.some.inj hv)
      | error e => rw [hview] at hv; cases hv)

section Buffered

variable (hb : g.Built) (hr : g.Reached s) (hroom : g.Buffered s)
include hb hr hroom

theorem exhibits_of_buffered (hd : g.describe id = .ok d) (hinit : s.isInitialized id = true)
    (hv : g.viewAt s id = .ok v) : v.data.size ≤ maxElements ∧ ∃ rows, v.Exhibits d.shape rows := by
  have hdata : v.data.size ≤ maxElements :=
    hroom id v (by rw [view_of_isInitialized hr.sound hd hinit, hv]; rfl)
  exact ⟨hdata, exhibits_viewAt hb hr hd hv hdata⟩

/-- **Nothing but an overflow** keeps an array with a slot from being looked at. -/
theorem viewAt_error (hd : g.describe id = .ok d) (hinit : s.isInitialized id = true) {f : Fault}
    (hf : g.viewAt s id = .error f) : f = .overflow := by
  induction id using Nat.strong_induction_on generalizing d with
  | _ id ih =>
    obtain ⟨node, hn, hnd⟩ := describe_eq_ok.mp hd
    obtain ⟨slot, hslot⟩ := isInitialized_iff.mp hinit
    obtain ⟨ho, -⟩ := hr.sound.owns hn hslot
    cases ho with
    | constant c =>
      rw [viewAt_constant hn, View.layOut_eq, Outcome.if_eq_error] at hf
      exact hf.2.symm
    | leaf v c =>
      rw [viewAt_contents hn hslot] at hf
      exact bufferView_eq_error hf
    | advanced a x =>
      rw [viewAt_gathered hn hslot] at hf
      exact bufferView_eq_error hf
    | basic b diff =>
      obtain ⟨hsource, hfits⟩ := hb.promises hn
      have hinit' := hr.grounded id _ hn hinit b.source (by simp [Node.predecessors])
      rw [viewAt_basic hn] at hf
      rcases Outcome.bind_eq_error.mp hf with hf | ⟨w, hw, hf⟩
      · exact ih b.source (lt_of_basic hn) hsource hinit' hf
      · obtain ⟨hdata, rows, hexhibits⟩ := exhibits_of_buffered hb hr hroom hsource hinit' hw
        exact BasicIndexing.error_of_exhibits hfits hexhibits hdata hf
    | validation w xs => cases hnd

/-- A basic selection with a slot can be looked at, and so can its source, or it
overflows, because its source does or something is strained. -/
theorem overflows_or_views (hn : g.nodes[id]? = some (.basic b))
    (hinit : s.isInitialized id = true) :
    (g.view s id = .error (.fault .overflow) ∧ ∀ w, g.view s b.source = .ok w → b.Strains w) ∨
      ∃ v w rows, g.view s id = .ok v ∧ g.view s b.source = .ok w ∧ b.view w = .ok v ∧
        w.data.size ≤ maxElements ∧ w.Exhibits b.sourceDescription.shape rows := by
  obtain ⟨hsource, hfits⟩ := hb.promises hn
  have hdescribed : g.describe id = .ok (b.description id) := describe_eq_ok.mpr ⟨_, hn, rfl⟩
  have hinit' := hr.grounded id _ hn hinit b.source (by simp [Node.predecessors])
  rw [view_of_isInitialized hr.sound hdescribed hinit,
    view_of_isInitialized hr.sound hsource hinit']
  cases hview : g.viewAt s id with
  | error f =>
    obtain rfl := viewAt_error hb hr hroom hdescribed hinit hview
    refine .inl ⟨rfl, fun w hw => ?_⟩
    have hw := Outcome.fault_eq_ok.mp hw
    by_contra hstrains
    obtain ⟨hdata, rows, hexhibits⟩ := exhibits_of_buffered hb hr hroom hsource hinit' hw
    obtain ⟨v, hv⟩ := BasicIndexing.exists_view hfits hexhibits hdata hstrains
    rw [viewAt_basic hn, hw, Outcome.ok_bind, hv] at hview
    cases hview
  | ok v =>
    rw [viewAt_basic hn] at hview
    obtain ⟨w, hw, hv⟩ := Outcome.bind_eq_ok.mp hview
    obtain ⟨hdata, rows, hexhibits⟩ := exhibits_of_buffered hb hr hroom hsource hinit' hw
    rw [hw]
    exact .inr ⟨v, w, rows, rfl, rfl, hv, hdata, hexhibits⟩

end Buffered

/-! ### A chain to look at -/

/-- Rows of three numbers, the rows turned around, and of these every second
number from the last one on. -/
def folded : Graph :=
  (((Graph.empty 0).extend
    fun _ => Node.leaf <$> Variable.rows <$> RowVariable.ofDomain [3] (.ofInt 0) (.ofInt 9) true).extend
      fun g => g.basicIndexing 0 [.slice .full, .slice ⟨none, none, -1⟩]).extend
        fun g => g.basicIndexing 1 [.slice .full, .slice ⟨none, none, -2⟩]

theorem built_folded : folded.Built :=
  .extend (.extend (.extend_leaf (.empty 0) _) fun _ hn => .basic hn) fun _ hn => .basic hn

namespace Folded

/-- The last array. -/
def second : BasicIndexing where
  graph := 0
  source := 1
  sourceDescription := ⟨.dynamic [3], .ofInt 0, .ofInt 9, true, ⟨0, 0, none⟩⟩
  axes := [.whole, .range ⟨2, -2, 2⟩]
  sourceRow := 3
  strides := [2, 1]

set_option maxRecDepth 4000 in
theorem nodes_second : folded.nodes[2]? = some (.basic second) := by with_unfolding_all rfl

set_option maxRecDepth 4000 in
theorem basicIndexing_second :
    folded.basicIndexing 1 [.slice .full, .slice ⟨none, none, -2⟩] = .ok (.basic second) := by
  with_unfolding_all rfl

/-- One row has been added, and the selections have not heard of it. -/
def grown : State :=
  folded.after [.initializeRemaining, .edit 0 (.rows (.grow [.ofInt 1, .ofInt 2, .ofInt 3]))]
    folded.emptyState.1

theorem reached_grown : folded.Reached grown := reached_after .start (by decide +kernel)

theorem buffered_grown : folded.Buffered grown := by decide +kernel

end Folded

/-! ### Translating -/

/-- **Translating is looking, backwards.**  In every state that calls lead to, a
basic selection that has a slot overflows, because its source does or something
is strained, or it has a view and so has its source; and then a position of the
source is translated to a position of the selection exactly if the view shows
the element of the one at the other, in the same place of the same buffer; and
it is not translated exactly if the view shows its element nowhere.  No two
elements of the source share a place, no two are translated to one position, and
every position of the selection comes from one of the source. -/
theorem translate_inverts_view (hb : g.Built) (hr : g.Reached s) (hroom : g.Buffered s)
    (hn : g.nodes[id]? = some (.basic b)) (hinit : s.isInitialized id = true) :
    (g.view s id = .error (.fault .overflow) ∧ ∀ w, g.view s b.source = .ok w → b.Strains w) ∨
      ∃ v w, g.view s id = .ok v ∧ g.view s b.source = .ok w ∧ v.data = w.data ∧
        (∀ f < w.size, ∃ place, w.place f = .ok place ∧
          (∀ i, b.translate? f = .ok (some i) ↔ i < v.size ∧ v.place i = .ok place) ∧
            (b.translate? f = .ok none ↔ ∀ i < v.size, v.place i ≠ .ok place)) ∧
        (∀ f < w.size, ∀ f' < w.size, w.place f = w.place f' → f = f') ∧
        (∀ f < w.size, ∀ f' < w.size, ∀ i,
          b.translate? f = .ok (some i) → b.translate? f' = .ok (some i) → f = f') ∧
        ∀ i < v.size, ∃! f, f < w.size ∧ b.translate? f = .ok (some i) := by
  obtain ⟨-, hfits⟩ := hb.promises hn
  obtain hover | ⟨v, w, rows, hv, hw, hview, hdata, hexhibits⟩ :=
    overflows_or_views hb hr hroom hn hinit
  · exact .inl hover
  have hplace := fun {f : Nat} (hf : f < w.size) => hexhibits.regular.readable.place_eq hf
  refine .inr ⟨v, w, hv, hw, BasicIndexing.data_of_view hview, fun f hf => ⟨_, hplace hf,
    fun i => BasicIndexing.translate?_eq_some_iff hfits hexhibits hdata hview hf,
    BasicIndexing.translate?_eq_none_iff hfits hexhibits hdata hview hf⟩,
    fun f hf f' hf' heq => ?_, fun f hf f' hf' i => ?_, fun i => ?_⟩
  · rw [hplace hf, hplace hf'] at heq
    exact hexhibits.apart f hf f' hf' (Except.ok.inj heq)
  · exact BasicIndexing.eq_of_translate?_eq hfits hexhibits hdata hview hf hf'
  · exact BasicIndexing.existsUnique_translate? hfits hexhibits hdata hview

open Folded in
/-- The number in the middle of the row is not among the second ones, and the
last array shows the row from its other end. -/
theorem folded_translation :
    (folded.Built ∧ folded.Reached grown ∧ folded.Buffered grown ∧
      folded.nodes[2]? = some (.basic second) ∧ grown.isInitialized 2 = true) ∧
    (second.translate? 0 = .ok (some 1) ∧ second.translate? 1 = .ok none ∧
      second.translate? 2 = .ok (some 0)) ∧
      ∃ v w, folded.view grown 2 = .ok v ∧ folded.view grown 1 = .ok w ∧
        (∃ place, w.place 0 = .ok place ∧ v.place 1 = .ok place) ∧
          (∃ place, w.place 1 = .ok place ∧ ∀ i < v.size, v.place i ≠ .ok place) ∧
            ∃! f, f < w.size ∧ second.translate? f = .ok (some 0) := by
  have htranslate : second.translate? 0 = .ok (some 1) ∧ second.translate? 1 = .ok none ∧
      second.translate? 2 = .ok (some 0) := by decide +kernel
  have hinit : grown.isInitialized 2 = true := by decide +kernel
  obtain ⟨v, w, hv, hw, -, hboth, -, -, honto⟩ :=
    (translate_inverts_view built_folded reached_grown buffered_grown nodes_second
      hinit).resolve_left fun hover => absurd hover.1 (by decide +kernel)
  have hsizes : (folded.view grown 1).map (·.size) = .ok 3 := by decide +kernel
  rw [show folded.view grown 1 = .ok w from hw] at hsizes
  have hsize : w.size = 3 := Except.ok.inj hsizes
  obtain ⟨place, hfirst, hboth₀, -⟩ := hboth 0 (by omega)
  obtain ⟨place', hmiddle, -, hboth₁⟩ := hboth 1 (by omega)
  obtain ⟨hlt, hshown⟩ := (hboth₀ 1).mp htranslate.1
  exact ⟨⟨built_folded, reached_grown, buffered_grown, nodes_second, hinit⟩, htranslate, v, w, hv, hw,
    ⟨place, hfirst, hshown⟩, ⟨place', hmiddle, hboth₁.mp htranslate.2.1⟩,
    honto 0 (Nat.lt_trans Nat.zero_lt_one hlt)⟩

/-- Three rows of two numbers; every row that is as many rows away as a word
allows; and every `2 ^ 40`-th of every `2 ^ 40`-th row. -/
def stretched : Graph :=
  ((((Graph.empty 0).extend
    fun _ => Node.leaf <$> Variable.integer <$> IntegerVariable.ofBounds [3, 2] 0 9).extend
      fun g => g.basicIndexing 0 [.slice ⟨none, none, 9223372036854775807⟩]).extend
        fun g => g.basicIndexing 0 [.slice ⟨none, none, 1099511627776⟩]).extend
          fun g => g.basicIndexing 2 [.slice ⟨none, none, 1099511627776⟩]

namespace Stretched

theorem built : stretched.Built :=
  .extend (.extend (.extend (.extend_leaf (.empty 0) _) fun _ hn => .basic hn)
    fun _ hn => .basic hn) fun _ hn => .basic hn

/-- Every array has a slot. -/
def initialized : State := stretched.after [.initializeRemaining] stretched.emptyState.1

theorem reached : stretched.Reached initialized := reached_after .start (by decide +kernel)

theorem buffered : stretched.Buffered initialized := by decide +kernel

end Stretched

open Stretched in
/-- The step is accepted, since the first row is within the slice, and positions
are translated; but the step times the stride is no word, and there is no view. -/
theorem inverts_view_fails : ¬ ∀ (g : Graph) (s : State) (id : NodeId) (b : BasicIndexing),
    g.Built → g.Reached s → g.Buffered s → g.nodes[id]? = some (.basic b) →
      s.isInitialized id = true → ∃ v w, g.view s id = .ok v ∧ g.view s b.source = .ok w ∧
        ∀ f < w.size, ∃ place, w.place f = .ok place ∧
          (∀ i, b.translate? f = .ok (some i) ↔ i < v.size ∧ v.place i = .ok place) ∧
            (b.translate? f = .ok none ↔ ∀ i < v.size, v.place i ≠ .ok place) := by
  intro h
  obtain ⟨b, hn⟩ : ∃ b, stretched.nodes[1]? = some (.basic b) := ⟨_, by with_unfolding_all rfl⟩
  obtain ⟨v, _, hv, -⟩ :=
    h stretched initialized 1 b built reached buffered hn (by decide +kernel)
  have hover : stretched.view initialized 1 = .error (.fault .overflow) := by decide +kernel
  cases hover.symm.trans hv

/-! ### Following the selectors -/

/-- Coordinates of an element of the selection are led to the coordinates that
the axes make of them, and nowhere else. -/
theorem leads_iff (hbasic : g.basicIndexing source selectors = .ok (.basic b)) {rows : Nat}
    (hw : w.Exhibits b.sourceDescription.shape rows) (hroom : w.data.size ≤ maxElements)
    (hv : b.view w = .ok v) {ks : List Nat} (hks : RowMajor.Within ks v.extents) (cs : List Nat) :
    Selector.Leads b.sourceDescription.shape.dims selectors ks cs ↔
      cs = AxisMap.sourceCoordinates b.axes ks := by
  obtain ⟨-, -, hmaps, hfits⟩ := basicIndexing_eq_ok hbasic
  have hsource := hw.room hroom
  rw [(BasicIndexing.exhibits_view hfits hw hroom hv).extents] at hks
  have hlt := RowMajor.flatten_lt hks
  have hz : b.sourceDescription.shape.sizeWith rows ≠ 0 :=
    BasicIndexing.sizeWith_source_ne_zero hfits (Nat.ne_zero_of_lt hlt)
  have hon := AxisMap.on_of_room hfits.axes hz hsource
  have hsigned : ∀ n, .fixed n ∈ b.sourceDescription.shape.dims → n < 2 ^ 63 := by
    intro n hn
    have hmem : n ∈ b.sourceDescription.shape.withRows rows :=
      Shape.withRows_eq_map _ rows ▸ List.mem_map_of_mem (f := Dim.extentOr rows) hn
    have hle : n ≤ b.sourceDescription.shape.sizeWith rows := RowMajor.le_size hz hmem
    unfold maxElements at hsource
    omega
  rw [← BasicIndexing.extentsFrom_withRows hfits, Shape.withRows_eq_map] at hks
  rw [Shape.withRows_eq_map] at hon
  have hleads := AxisMap.leads_sourceCoordinates hsigned hmaps hon hks
  exact ⟨hleads.unique, fun h => h ▸ hleads⟩

/-- **The law of basic selections.**  A basic selection was made from some
selectors.  Whichever they are, and in every state that calls lead to, it
overflows, because its source does or something is strained, or there is a view,
which shows at some coordinates what the view of the source shows at the
coordinates to which the selectors lead, in the same place of the same buffer;
and the place is inside of it. -/
theorem view_follows_selectors (hb : g.Built) (hr : g.Reached s) (hroom : g.Buffered s)
    (hn : g.nodes[id]? = some (.basic b)) (hinit : s.isInitialized id = true) :
    (∃ source selectors, g.basicIndexing source selectors = .ok (.basic b)) ∧
      ∀ source selectors, g.basicIndexing source selectors = .ok (.basic b) →
        (g.view s id = .error (.fault .overflow) ∧
          ∀ w, g.view s source = .ok w → b.Strains w) ∨
          ∃ d v w, g.describe source = .ok d ∧ g.view s id = .ok v ∧ g.view s source = .ok w ∧
            v.data = w.data ∧ ∀ ks, RowMajor.Within ks v.extents →
              ∃ cs, (∀ cs', Selector.Leads d.shape.dims selectors ks cs' ↔ cs' = cs) ∧
                RowMajor.Within cs w.extents ∧
                (∃ x, v.get (RowMajor.flatten ks (RowMajor.weights v.extents)) = .ok x ∧
                  w.get (RowMajor.flatten cs (RowMajor.weights w.extents)) = .ok x) ∧
                ∃ place : Nat, place < v.data.size ∧
                  v.place (RowMajor.flatten ks (RowMajor.weights v.extents)) = .ok place ∧
                    w.place (RowMajor.flatten cs (RowMajor.weights w.extents)) = .ok place := by
  refine ⟨hb.exists_selectors hn, fun source selectors hbasic => ?_⟩
  obtain ⟨rfl, hd, -, hfits⟩ := basicIndexing_eq_ok hbasic
  obtain hover | ⟨v, w, rows, hv, hw, hview, hdata, hexhibits⟩ :=
    overflows_or_views hb hr hroom hn hinit
  · exact .inl hover
  refine .inr ⟨b.sourceDescription, v, w, hd, hv, hw, BasicIndexing.data_of_view hview,
    fun ks hks => ?_⟩
  have hexhibits' := BasicIndexing.exhibits_view hfits hexhibits hdata hview
  obtain ⟨hcs, hplace⟩ := BasicIndexing.position_of_coordinates hfits hexhibits hdata hview hks
  have hlt := RowMajor.flatten_lt hks
  have hlt' := RowMajor.flatten_lt hcs
  obtain ⟨hlo, hhi⟩ := hexhibits'.regular.readable.inside _ hlt
  obtain ⟨place, hposition⟩ := Int.eq_ofNat_of_zero_le hlo
  rw [hposition] at hplace hhi
  refine ⟨_, leads_iff hbasic hexhibits hdata hview hks, hcs,
    ⟨_, View.get_eq hexhibits'.regular.readable hlt, ?_⟩, place, Int.ofNat_lt.mp hhi, ?_, ?_⟩
  · rw [View.get_eq hexhibits.regular.readable hlt', View.cell, View.cell, hposition, ← hplace,
      BasicIndexing.data_of_view hview]
  · rw [hexhibits'.regular.readable.place_eq hlt, hposition]
  · rw [hexhibits.regular.readable.place_eq hlt', ← hplace]

open Folded in
/-- The second number of the last array is the first one of the row that is
turned around, and so the last one of the row. -/
theorem folded_view_law :
    (folded.Built ∧ folded.Reached grown ∧ folded.Buffered grown ∧
      folded.nodes[2]? = some (.basic second) ∧ grown.isInitialized 2 = true ∧
        folded.basicIndexing 1 [.slice .full, .slice ⟨none, none, -2⟩] = .ok (.basic second)) ∧
      Selector.Leads [.dynamic, .fixed 3] [.slice .full, .slice ⟨none, none, -2⟩] [0, 1] [0, 0] ∧
        ∃ v w, folded.view grown 2 = .ok v ∧ folded.view grown 1 = .ok w ∧
          (∃ x, v.get 1 = .ok x ∧ w.get 0 = .ok x) ∧
            ∃ place : Nat, place < v.data.size ∧ v.place 1 = .ok place ∧ w.place 0 = .ok place := by
  have hinit : grown.isInitialized 2 = true := by decide +kernel
  have hleads : Selector.Leads [.dynamic, .fixed 3] [.slice .full, .slice ⟨none, none, -2⟩]
      [0, 1] [0, 0] := .dynamic 0 (.slice rfl rfl (by decide) (by decide) .nil)
  obtain ⟨-, hlaw⟩ :=
    view_follows_selectors built_folded reached_grown buffered_grown nodes_second hinit
  obtain ⟨d, v, w, hd, hv, hw, -, hlaw⟩ :=
    (hlaw 1 _ basicIndexing_second).resolve_left fun hover => absurd hover.1 (by decide +kernel)
  have hdims : (folded.describe 1).map (·.shape.dims) = .ok [.dynamic, .fixed 3] := by
    decide +kernel
  have hextents : (folded.view grown 2).map (·.extents) = .ok [1, 2] := by decide +kernel
  have hsource : (folded.view grown 1).map (·.extents) = .ok [1, 3] := by decide +kernel
  rw [hd] at hdims
  rw [hv] at hextents
  rw [hw] at hsource
  have hextents : v.extents = [1, 2] := Except.ok.inj hextents
  have hsource : w.extents = [1, 3] := Except.ok.inj hsource
  obtain ⟨cs, hcs, -, hget, hplace⟩ := hlaw [0, 1]
    (hextents ▸ .cons (by decide) (.cons (by decide) .nil))
  rw [show d.shape.dims = _ from Except.ok.inj hdims] at hcs
  obtain rfl := (hcs _).mp hleads
  rw [hextents, hsource] at hget hplace
  exact ⟨⟨built_folded, reached_grown, buffered_grown, nodes_second, hinit, basicIndexing_second⟩,
    hleads, v, w, hv, hw, hget, hplace⟩

open Stretched in
/-- Neither of two steps is too long for the rows, but the strides multiply up
along the chain. -/
theorem follows_selectors_fails : ¬ ∀ (g : Graph) (s : State) (id source : NodeId)
    (selectors : List Selector) (b : BasicIndexing),
    g.Built → g.Reached s → g.Buffered s → g.nodes[id]? = some (.basic b) →
      s.isInitialized id = true → g.basicIndexing source selectors = .ok (.basic b) →
        ∃ d v w, g.describe source = .ok d ∧ g.view s id = .ok v ∧ g.view s source = .ok w ∧
          v.data = w.data ∧ ∀ ks, RowMajor.Within ks v.extents →
            ∃ cs, Selector.Leads d.shape.dims selectors ks cs ∧ RowMajor.Within cs w.extents ∧
              ∃ place : Nat, place < v.data.size ∧
                v.place (RowMajor.flatten ks (RowMajor.weights v.extents)) = .ok place ∧
                  w.place (RowMajor.flatten cs (RowMajor.weights w.extents)) = .ok place := by
  intro h
  obtain ⟨b, hn, hbasic⟩ : ∃ b, stretched.nodes[3]? = some (.basic b) ∧
      stretched.basicIndexing 2 [.slice ⟨none, none, 1099511627776⟩] = .ok (.basic b) :=
    ⟨_, by with_unfolding_all rfl, by with_unfolding_all rfl⟩
  obtain ⟨d, v, _, -, hv, -⟩ :=
    h stretched initialized 3 2 _ b built reached buffered hn (by decide +kernel) hbasic
  have hover : stretched.view initialized 3 = .error (.fault .overflow) := by decide +kernel
  cases hover.symm.trans hv

end Graph
end ArrayFlow
