import ArrayFlow.Proofs.Settled

/-!
# Propagation brings a state up to date

Let variables be edited in a state that is up to date, and let changes be
propagated to a set that contains them and all that depends on them.

* What lies outside of the set reads nothing in it, so it is still current
  (`current_outside`).
* Inside of it, every pending diff **explains** how the array differs from
  what it was: where no record names a position, the element there is the same
  (`explains_pending`).  So an advanced selection that reads only the dirty
  positions again ends up as if it had read all of them (`refresh_current`).

By induction over the order of the nodes the whole state is up to date again
(`propagate_current`), and no step on the way fails.
-/

namespace ArrayFlow

/-- The slots below `n` were reached by edits. -/
def State.ExtendsTo (past t : State) (n : Nat) : Prop :=
  ∀ j : Nat, j < n → ∀ slot, past.slot? j = some slot →
    ∃ slot', t.slot? j = some slot' ∧ slot.Extends slot'

namespace Graph

variable {g : Graph} {past s t : State} {id : NodeId} {node : Node} {d : Description}
  {ids waiting : List NodeId}

/-! ### Outside of a closed set -/

section Outside

variable (hc : g.Closed ids) (h : ∀ j : Nat, j ∉ ids → t.slot? j = s.slot? j)
include h

theorem rowsIn_outside (hid : id ∉ ids) : g.rowsIn t id = g.rowsIn s id := by
  unfold rowsIn
  rw [h id hid]

theorem pending_outside (hid : id ∉ ids) : g.pending t id = g.pending s id := by
  unfold pending
  rw [diffAt_congr (h id hid)]

include hc

theorem viewAt_outside (hid : id ∉ ids) : g.viewAt t id = g.viewAt s id :=
  viewAt_congr_on (P := (· ∉ ids))
    (fun _ _ hn hi => hc.not_mem_of_reads hn hi (by simp [Node.predecessors]))
    (fun i _ _ hi => by rw [h i hi]) hid

theorem shown_outside (hid : id ∉ ids) : g.shown t id = g.shown s id := by
  unfold shown
  rw [viewAt_outside hc h hid]

theorem sizeBy_outside (hb : g.Built) (hd : g.describe id = .ok d) (hid : id ∉ ids) :
    g.sizeBy t d = g.sizeBy s d :=
  Shape.sizeWith_congr fun hdyn => rowsIn_outside h (hb.origin_not_mem hc hd hdyn hid)

theorem blocksIn_outside (hb : g.Built) {a : AdvancedIndexing}
    {picked : List AdvancedIndexing.Picked} (hn : g.nodes[id]? = some (.advanced a))
    (hfits : a.Fits g.describe picked) (hid : id ∉ ids) :
    g.blocksIn t id a = g.blocksIn s id a := by
  have hsource : a.source ∉ ids :=
    hc.not_mem_of_reads hn hid (by simp [Node.predecessors, AdvancedIndexing.predecessors])
  have hd : g.describe id = .ok (a.description id) := describe_eq_ok.mpr ⟨_, hn, rfl⟩
  have hpre : a.pre.map (AdvancedIndexing.axisExtent (g.rowsIn t a.sourceDescription.rows.origin)) =
      a.pre.map (AdvancedIndexing.axisExtent (g.rowsIn s a.sourceDescription.rows.origin)) := by
    by_cases hdyn : ∃ x ∈ a.pre, x.dim = .dynamic
    · rw [rowsIn_outside h (hb.origin_not_mem hc hfits.source (rows_of_pre hfits id hdyn).1 hsource)]
    · exact AdvancedIndexing.extents_fixed (fun x hx hdim => hdyn ⟨x, hx, hdim⟩) _ _
  have hbroadcast : a.broadcast.sizeWith (g.rowsIn t (a.description id).rows.origin) =
      a.broadcast.sizeWith (g.rowsIn s (a.description id).rows.origin) := by
    refine Shape.sizeWith_congr fun hdyn => rowsIn_outside h (hb.origin_not_mem hc hd ?_ hid)
    show a.shape.isDynamic = true
    rw [Shape.isDynamic_iff, hfits.dims]
    exact List.mem_append_left _ (List.mem_append_right _ (Shape.isDynamic_iff.mp hdyn))
  show Blocks.mk (a.pre.map _) _ _ = Blocks.mk (a.pre.map _) _ _
  rw [hbroadcast]
  exact congrArg (Blocks.mk · _ _) hpre

/-- What lies outside of the set stays current. -/
theorem current_outside (hb : g.Built) (hid : id ∉ ids) (hcur : g.CurrentAt s id) :
    g.CurrentAt t id := by
  intro node hn
  obtain ⟨slot, hslot, hcur⟩ := hcur node hn
  refine ⟨slot, (h id hid).trans hslot, ?_⟩
  cases hcur with
  | constant c => exact .constant c
  | leaf hv => exact .leaf hv
  | validation w xs => exact .validation w xs
  | @basic b diff hdiff =>
    have hsource : b.source ∉ ids := hc.not_mem_of_reads hn hid (by simp [Node.predecessors])
    refine .basic ?_
    rw [pending_outside h hsource]
    exact hdiff
  | @advanced a x hx =>
    obtain ⟨picked, hfits⟩ := hb.promises hn
    have hreads : ∀ p ∈ a.predecessors, p ∉ ids := fun p hp => hc.not_mem_of_reads hn hid hp
    have hd : g.describe id = .ok (a.description id) := describe_eq_ok.mpr ⟨_, hn, rfl⟩
    have hpicks : ∀ q, a.picks (g.shown t) q = a.picks (g.shown s) q := by
      intro q
      refine List.map_congr_left fun ix hix => ?_
      rw [shown_outside hc h (hreads ix.node (List.mem_cons_of_mem _ (List.mem_map_of_mem hix)))]
    have hoffset : a.offset (g.blocksIn s id a) (g.shown t) =
        a.offset (g.blocksIn s id a) (g.shown s) := by
      funext p
      unfold AdvancedIndexing.offset
      rw [hpicks]
    refine .advanced ?_
    rw [sizeBy_outside hc h hb hd hid, blocksIn_outside hc h hb hn hfits hid, hoffset,
      shown_outside hc h (hreads a.source List.mem_cons_self)]
    exact hx

end Outside

/-! ### Inside of it -/

/-- A buffer whose log names no record of a position has kept the element
there. -/
theorem explains_buffer {es es' : List Nat} {j j' : Journal Binary64} (h : j.Extends j') :
    Explains j'.diff (.ofArray j.values es) (.ofArray j'.values es') := by
  intro k _ _ hk
  rw [View.cell_ofArray, View.cell_ofArray,
    h.getElem?_eq fun u hu => hk u (List.mem_reverse.mpr hu)]

/-- What explains the changes of a source explains those of a basic selection,
renumbered. -/
theorem explains_basic {b : BasicIndexing} (hn : g.nodes[id]? = some (.basic b)) (hb : g.Built)
    (hf : g.Framed id) (hseen : g.Seen past b.source b.sourceDescription)
    (hseen' : g.Seen t b.source b.sourceDescription)
    (hroom : g.sizeBy past b.sourceDescription ≤ maxElements)
    (hroom' : g.sizeBy t b.sourceDescription ≤ maxElements) {diff translated : List (Update Binary64)}
    (h : Explains diff (g.shown past b.source) (g.shown t b.source))
    (htranslated : b.translateDiff diff = .ok translated) :
    Explains translated (g.shown past id) (g.shown t id) := by
  obtain ⟨-, hfits⟩ := hb.promises hn
  obtain ⟨hself, hcells⟩ := Seen.of_basic hn hb hf hseen hroom
  obtain ⟨hself', hcells'⟩ := Seen.of_basic hn hb hf hseen' hroom'
  intro k hbefore hafter hk
  rw [hself.size_eq] at hbefore
  rw [hself'.size_eq] at hafter
  rw [hcells' k hafter, hcells k hbefore]
  have hlt := sourceOf_lt_source hfits hroom' hafter
  refine h _ ?_ ?_ fun u hu hname => ?_
  · rw [hseen.size_eq]
    exact sourceOf_lt_source hfits hroom hbefore
  · rw [hseen'.size_eq]
    exact hlt
  · -- a record of the source position is renumbered to `k`
    rw [sizeBy_basic] at hafter
    refine hk (u.moveTo k) (BasicIndexing.mem_of_translateDiff htranslated hu ?_) rfl
    rw [hname, BasicIndexing.translate?_eq hfits hroom' hlt,
      BasicIndexing.target?_sourceOf hfits hroom' hafter]

/-- **Diffs explain.**  An array that is current differs from what it was at
most at the positions that its pending records name. -/
theorem explains_pending (hb : g.Built) (hp : g.Settled past) (hroom : g.InRoom t)
    (hr : g.Ruled t) {n : Nat} (hc : ∀ j : Nat, j < n → g.CurrentAt t j)
    (hext : past.ExtendsTo t n) (hid : id < n) (hd : g.describe id = .ok d) (hf : g.Framed id) :
    Explains (g.pending t id) (g.shown past id) (g.shown t id) := by
  induction id using Nat.strong_induction_on generalizing d with
  | _ id ih =>
    obtain ⟨node, hn, hnd⟩ := describe_eq_ok.mp hd
    obtain ⟨slot, hslot, hcur⟩ := hc id hid node hn
    obtain ⟨old, hold, hcurOld⟩ := hp.current id node hn
    obtain ⟨slot', hslot', he⟩ := hext id hid old hold
    rw [hslot] at hslot'
    obtain rfl := Option.some.inj hslot'
    have hseen := hp.seen hb hd hf
    have hseen' := seen_of_current hb (hp.gathers _) hroom hr hc hid hd hf
    cases hcur with
    | constant c =>
      have hview : g.viewAt t id = g.viewAt past id := by rw [viewAt_constant hn, viewAt_constant hn]
      rw [shown_eq (hview.trans hseen.view)]
      exact fun _ _ _ _ => rfl
    | @leaf v c _ =>
      cases he with
      | @contents c₀ _ hcontents =>
        rw [pending_of_owns hd hn (.leaf v c) hslot, hseen.shown_leaf hn hold,
          hseen'.shown_leaf hn hslot]
        exact explains_buffer hcontents.elements
    | @advanced a x _ =>
      cases he with
      | @gathered x₀ _ hx _ =>
        rw [pending_of_owns hd hn (.advanced a x) hslot, hseen.shown_advanced hn hold,
          hseen'.shown_advanced hn hslot]
        exact explains_buffer hx.values
    | @basic b diff hdiff =>
      obtain rfl := Option.some.inj hnd
      obtain ⟨hsource, -⟩ := hb.promises hn
      have hlt := Nat.lt_trans (lt_of_basic hn) hid
      have hfSource := hf.source hn
      rw [pending_of_owns hd hn (.basic b diff) hslot]
      exact explains_basic hn hb hf (hp.seen hb hsource hfSource)
        (seen_of_current hb (hp.gathers _) hroom hr hc hlt hsource hfSource) (hp.inRoom _ _ hsource)
        (hroom _ _ hsource) (ih b.source (lt_of_basic hn) hlt hsource hfSource) hdiff
    | validation w xs => cases hnd

section Refresh

variable (hb : g.Built) (hp : g.Settled past) (hroom : g.InRoom t) (hr : g.Ruled t)
  {a : AdvancedIndexing} {x : Gathered} (hn : g.nodes[id]? = some (.advanced a))
  (hc : ∀ j : Nat, j < id → g.CurrentAt t j) (hext : past.ExtendsTo t id)
include hb hp hroom hr hn hc hext

/-- A position that no pending record concerns has kept its offset, and the
source its element there. -/
theorem kept_of_clean {picked : List AdvancedIndexing.Picked} (hfits : a.Fits g.describe picked)
    (hx : x.Mirrors (g.sizeBy past (a.description id))
      (a.offset (g.blocksIn past id a) (g.shown past)) (g.shown past a.source).cell)
    {p limit : Nat} (hlt : p < g.sizeBy past (a.description id))
    (hlt' : p < (g.blocksIn t id a).size) (hlimit : p < limit)
    (hclean : p ∉ a.dirtyPositions (g.blocksIn t id a) (a.indexers.map (g.pending t ·.node))
      (g.pending t a.source) x.readers limit) :
    a.offset (g.blocksIn t id a) (g.shown t) p = a.offset (g.blocksIn past id a) (g.shown past) p ∧
      (g.shown t a.source).cell (a.offset (g.blocksIn past id a) (g.shown past) p) =
        (g.shown past a.source).cell (a.offset (g.blocksIn past id a) (g.shown past) p) := by
  have hwords := hp.gathers.at hn
  have hseen : g.SeenBelow t id :=
    fun p d hlt hd hf => seen_of_current hb (hp.gathers _) hroom hr hc hlt hd hf
  have hseen₀ : g.SeenBelow past id := fun p d _ hd hf => hp.seen hb hd hf
  have hexplains : ∀ (p : Nat) (d : Description), p < id → g.describe p = .ok d → g.Framed p →
      Explains (g.pending t p) (g.shown past p) (g.shown t p) :=
    fun p d hlt hd hf => explains_pending hb hp hroom hr hc hext hlt hd hf
  have hblocks := size_blocksIn (g := g) hfits past id ▸ hlt
  obtain ⟨hoffset, hnamed⟩ := AdvancedIndexing.kept_of_not_dirty hfits
    (fun hpre => Shape.sizeWith_congr fun hdyn => absurd hdyn (by simp [hfits.static hpre]))
    (canRead hn hfits hwords hseen₀) (canRead hn hfits hwords hseen) (fun ix hix => by
      have hbelow := (lt_of_advanced hn).2 ix hix
      have hframed := hwords.indexers ix hix
      rw [hfits.indexers] at hix
      obtain ⟨e, he, rfl⟩ := List.mem_map.mp hix
      exact hexplains e.2.1 e.2.2 hbelow (hfits.described e he) hframed)
    hblocks hlt' hlimit (hx.mem_readers hlt) hclean
  have hold := offset_lt_source hn hfits hwords hseen₀ hb hp.ruled hblocks
  have hnew := offset_lt_source hn hfits hwords hseen hb hr hlt'
  exact ⟨hoffset, hexplains a.source _ (lt_of_advanced hn).1 hfits.source hwords.source _ hold
    (hoffset ▸ hnew) hnamed⟩

/-- **An advanced selection is brought up to date.**  What it leaves alone was
right before and is still right. -/
theorem refresh_current (hx : g.Current past id (.advanced a) (.gathered x)) :
    ∃ x', g.propagateSlot t (.advanced a) (.gathered x) = .ok (.gathered x') ∧
      g.Current t id (.advanced a) (.gathered x') ∧
      ∀ P, x.values.Logs P → (∀ k < g.sizeBy past (a.description id), P k) →
        (∀ k < g.sizeBy t (a.description id), P k) → x'.values.Logs P := by
  obtain ⟨picked, hfits⟩ := hb.promises hn
  cases hx with
  | advanced hx =>
  obtain ⟨b, hfinds⟩ := exists_finds hn hfits (hp.gathers.at hn)
    (fun p d hlt hd hf => seen_of_current hb (hp.gathers _) hroom hr hc hlt hd hf) hb hroom hr
    (describe_eq_ok.mpr ⟨_, hn, rfl⟩)
  obtain ⟨x', hrun, hmirrors, -, hlogs⟩ := @AdvancedIndexing.refresh_spec a b (g.shown t) x
    (g.sizeBy past (a.description id)) _ _ (g.shown t a.source)
    (a.indexers.map (g.pending t ·.node)) (g.pending t a.source) hfinds.count hx
    hfinds.canRead hfinds.readable hfinds.offset_lt (by
      intro p hlt hclean
      have hltb := Nat.lt_of_lt_of_le hlt (Nat.min_le_right _ _)
      have hblock := hfinds.eq_blocksIn (Nat.ne_of_gt (Nat.zero_lt_of_lt hltb))
      rw [hblock] at hclean hltb hlt ⊢
      obtain ⟨hoffset, hcell⟩ := kept_of_clean hb hp hroom hr hn hc hext hfits hx
        (Nat.lt_of_lt_of_le hlt (Nat.min_le_left _ _)) hltb hlt hclean
      exact ⟨hoffset, congrArg Binary64.place? hcell⟩)
  refine ⟨x', (hfinds.propagateSlot_eq_ok hn hfits hc).mpr ⟨x', hrun, rfl⟩,
    .advanced (hfinds.mirrors_iff.mp hmirrors), fun P hP hbefore hafter => hlogs P hP hbefore ?_⟩
  rw [hfinds.size_eq]
  exact hafter

end Refresh

/-! ### One step -/

/-- The records of an array name positions that it can have. -/
def LogsAt (g : Graph) (s : State) (id : NodeId) : Prop :=
  ∀ (d : Description) (slot : Slot), g.describe id = .ok d → s.slot? id = some slot →
    ∀ u ∈ slot.diff, d.shape.Reaches u.index

theorem InRoom.reaches (h : g.InRoom s) (hd : g.describe id = .ok d) {k : Nat}
    (hk : k < g.sizeBy s d) : d.shape.Reaches k :=
  ⟨_, hk, h id d hd⟩

/-- The records of a basic selection are those of its source, renumbered. -/
theorem reaches_translateDiff {b : BasicIndexing} (hfits : b.Fits)
    {diff translated : List (Update Binary64)} (h : b.translateDiff diff = .ok translated)
    (hdiff : ∀ u ∈ diff, b.sourceDescription.shape.Reaches u.index) :
    ∀ u ∈ translated, b.shape.Reaches u.index := by
  rw [BasicIndexing.translateDiff_eq hfits hdiff] at h
  obtain rfl := Except.ok.inj h
  intro u hu
  obtain ⟨w, hw, hmoved⟩ := List.mem_filterMap.mp hu
  obtain ⟨k, hk, rfl⟩ := Option.map_eq_some_iff.mp hmoved
  obtain ⟨rows, hlt, hroom⟩ := hdiff w hw
  refine ⟨rows, (BasicIndexing.sourceOf_of_target? hfits hroom hlt hk).1, ?_⟩
  exact Nat.le_trans (BasicIndexing.sizeWith_le hfits rows) hroom

/-- The slot before the step: edited if the node is a variable, and otherwise
as it was. -/
inductive Before (g : Graph) (past : State) (id : NodeId) : Node → Slot → Prop
  | leaf {v : Variable} {c : Variable.Contents} (h : v.Holds c) : Before g past id (.leaf v) (.contents c)
  | kept {node : Node} {slot : Slot} (h : g.Current past id node slot) : Before g past id node slot

section Step

variable (hb : g.Built) (hp : g.Settled past) (hroom : g.InRoom t) (hr : g.Ruled t)
  (hn : g.nodes[id]? = some node) (hc : ∀ j : Nat, j < id → g.CurrentAt t j)
  (hext : past.ExtendsTo t id) {slot new : Slot} (hslot : g.Before past id node slot)
include hb hp hroom hr hn hc hext hslot

/-- **A step makes a slot current.** -/
theorem propagateSlot_current (h : g.propagateSlot t node slot = .ok new) :
    g.Current t id node new := by
  cases hslot with
  | leaf hv =>
    obtain rfl := Except.ok.inj h
    exact .leaf hv
  | kept hcur =>
    cases hcur with
    | constant c =>
      obtain rfl := Except.ok.inj h
      exact .constant c
    | leaf hv =>
      obtain rfl := Except.ok.inj h
      exact .leaf hv
    | @basic b diff _ =>
      obtain ⟨source, translated, hsource, htranslated, rfl⟩ := propagateSlot_basic.mp h
      exact .basic (by rw [pending_eq hsource]; exact htranslated)
    | advanced hx =>
      obtain ⟨x', hrun, hcur, -⟩ := refresh_current hb hp hroom hr hn hc hext (.advanced hx)
      rw [hrun] at h
      obtain rfl := Except.ok.inj h
      exact hcur
    | validation w xs =>
      obtain ⟨_, -, h⟩ := Outcome.bind_eq_ok.mp h
      obtain rfl := Except.ok.inj h
      exact .validation w xs

/-- The step for an array does not fail, if what is recorded before it are
positions that the arrays can have. -/
theorem propagateSlot_ok (hd : g.describe id = .ok d) (hbelow : ∀ j : Nat, j < id → g.LogsAt t j) :
    ∃ new, g.propagateSlot t node slot = .ok new := by
  cases hslot with
  | leaf hv => exact ⟨_, rfl⟩
  | kept hcur =>
    cases hcur with
    | constant c => exact ⟨_, rfl⟩
    | leaf hv => exact ⟨_, rfl⟩
    | @basic b diff _ =>
      obtain ⟨hsource, hfits⟩ := hb.promises hn
      obtain ⟨node', hn', -⟩ := describe_eq_ok.mp hsource
      obtain ⟨slot', hslot', hcur'⟩ := hc b.source (lt_of_basic hn) node' hn'
      have hdiff := diffAt_of_owns hsource hn' hcur'.owns hslot'
      have htranslated := BasicIndexing.translateDiff_eq hfits
        (hbelow b.source (lt_of_basic hn) _ _ hsource hslot')
      exact ⟨_, propagateSlot_basic.mpr ⟨_, _, hdiff, htranslated, rfl⟩⟩
    | advanced hx =>
      obtain ⟨x', hrun, -⟩ := refresh_current hb hp hroom hr hn hc hext (.advanced hx)
      exact ⟨_, hrun⟩
    | validation w xs => cases description?_eq hn hd

/-- A step records positions that the array can have. -/
theorem propagateSlot_logs (h : g.propagateSlot t node slot = .ok new)
    (hd : g.describe id = .ok d) (hlogs : ∀ u ∈ slot.diff, d.shape.Reaches u.index)
    (hbelow : ∀ j : Nat, j < id → g.LogsAt t j) : ∀ u ∈ new.diff, d.shape.Reaches u.index := by
  cases hslot with
  | leaf hv =>
    obtain rfl := Except.ok.inj h
    exact hlogs
  | kept hcur =>
    cases hcur with
    | constant c =>
      obtain rfl := Except.ok.inj h
      exact hlogs
    | leaf hv =>
      obtain rfl := Except.ok.inj h
      exact hlogs
    | @basic b diff _ =>
      obtain rfl := description_basic hn hd
      obtain ⟨hsource, hfits⟩ := hb.promises hn
      obtain ⟨source, translated, hdiff, htranslated, rfl⟩ := propagateSlot_basic.mp h
      refine reaches_translateDiff hfits htranslated ?_
      obtain ⟨node', hn', -⟩ := describe_eq_ok.mp hsource
      obtain ⟨slot', hslot', hcur'⟩ := hc b.source (lt_of_basic hn) node' hn'
      rw [diffAt_of_owns hsource hn' hcur'.owns hslot'] at hdiff
      obtain rfl := Except.ok.inj hdiff
      exact hbelow b.source (lt_of_basic hn) _ _ hsource hslot'
    | @advanced a x hx =>
      obtain rfl := description_advanced hn hd
      obtain ⟨x', hrun, -, hkeep⟩ := refresh_current hb hp hroom hr hn hc hext (.advanced hx)
      rw [hrun] at h
      obtain rfl := Except.ok.inj h
      have hold : x.values.Logs a.shape.Reaches := fun u hu => hlogs u (List.mem_reverse.mpr hu)
      have hnew := hkeep _ hold (fun k hk => hp.inRoom.reaches hd hk)
        fun k hk => hroom.reaches hd hk
      exact fun u hu => hnew u (List.mem_reverse.mp hu)
    | validation w xs => cases description?_eq hn hd

end Step

/-! ### The whole walk -/

/-- The variables of two states have the same contents. -/
def SameLeaves (g : Graph) (s t : State) : Prop :=
  ∀ (i : Nat) (v : Variable), g.nodes[i]? = some (.leaf v) → t.slot? i = s.slot? i

namespace SameLeaves

variable (h : g.SameLeaves s t)
include h

theorem rowsIn_eq (id : NodeId) : g.rowsIn t id = g.rowsIn s id := by
  unfold rowsIn
  split
  · next v hn => rw [h id v hn]
  · rfl

theorem sizeBy_eq (d : Description) : g.sizeBy t d = g.sizeBy s d := by
  rw [sizeBy, h.rowsIn_eq]
  rfl

theorem inRoom (hs : g.InRoom s) : g.InRoom t := by
  intro id d hd
  rw [h.sizeBy_eq]
  exact hs id d hd

theorem ruled (hs : g.Ruled s) : g.Ruled t := by
  intro id v c hn hc
  rw [h id v hn] at hc
  exact hs id v c hn hc

end SameLeaves

/-- Edits of the variables `waiting` lead from the first state to the second
one. -/
structure Edited (g : Graph) (past : State) (waiting : List NodeId) (s : State) : Prop where
  graph : s.graph = past.graph
  size : s.size = past.size
  ruled : g.Ruled s
  extendsTo : ∀ n, past.ExtendsTo s n
  kept : ∀ i : Nat, i ∉ waiting → s.slot? i = past.slot? i
  leaves : ∀ i : Nat, i ∈ waiting → ∃ v, g.nodes[i]? = some (.leaf v)

section Walk

variable {k : Nat} (hp : g.Settled past) (he : g.Edited past waiting s)
  (hs : g.Stepped (Takes g.propagateSlot) ids s k t)

include hp he in
theorem Edited.before {slot : Slot} (hn : g.nodes[id]? = some node) (hslot : s.slot? id = some slot) :
    g.Before past id node slot := by
  obtain ⟨old, hold, hcur⟩ := hp.current id node hn
  by_cases hmem : id ∈ waiting
  · obtain ⟨v, hv⟩ := he.leaves id hmem
    rw [hn] at hv
    obtain rfl := Option.some.inj hv
    obtain ⟨slot', hslot', hext⟩ := he.extendsTo (id + 1) id (Nat.lt_succ_self id) old hold
    rw [hslot] at hslot'
    obtain rfl := Option.some.inj hslot'
    have ho := hext.owns hcur.owns
    cases ho with
    | leaf _ c => exact .leaf (he.ruled id v c hn hslot)
  · rw [he.kept id hmem, hold] at hslot
    obtain rfl := Option.some.inj hslot
    exact .kept hcur

include hs in
theorem sameLeaves_of_stepped : g.SameLeaves s t := by
  intro i v hn
  rcases hs.slot_cases i with ⟨-, heq⟩ | ⟨-, node, new, hn', ⟨slot, hslot, hnew⟩, ht⟩
  · exact heq
  · rw [hn] at hn'
    obtain rfl := Option.some.inj hn'
    have heq : new = slot := by
      cases slot <;> exact (Except.ok.inj hnew).symm
    rw [ht, hslot, heq]

include hp hs in
/-- Propagation goes on with the journals. -/
theorem extendsTo_propagated {n : Nat} (h : past.ExtendsTo s n) : past.ExtendsTo t n := by
  intro j hj old hold
  obtain ⟨slot, hslot, hext⟩ := h j hj old hold
  rcases hs.slot_cases j with ⟨-, heq⟩ | ⟨-, node, new, hn, ⟨slot', hslot', hnew⟩, ht⟩
  · exact ⟨slot, heq.trans hslot, hext⟩
  · rw [hslot] at hslot'
    obtain rfl := Option.some.inj hslot'
    obtain ⟨old', hold', hcur⟩ := hp.current j node hn
    rw [hold] at hold'
    obtain rfl := Option.some.inj hold'
    exact ⟨new, ht, hext.trans (propagateSlot_extends (hext.owns hcur.owns) hnew).1⟩

include hp he hs in
/-- **Propagation brings everything up to date** that it has reached. -/
theorem propagate_current (hb : g.Built) (hc : g.Closed ids) (hw : waiting ⊆ ids)
    (hroom : g.InRoom s) : ∀ i : Nat, i < k → g.CurrentAt t i := by
  have hsame := sameLeaves_of_stepped hs
  have houtside : ∀ j : Nat, j ∉ ids → t.slot? j = past.slot? j := fun j hj => by
    rw [hs.slot_of_not_mem hj, he.kept j fun hmem => hj (hw hmem)]
  intro i
  induction i using Nat.strong_induction_on with
  | _ i ih =>
    intro hik
    by_cases hmem : i ∈ ids
    · obtain ⟨node, new, hn, ⟨slot, hslot, hnew⟩, ht⟩ := hs.done i hmem hik
      intro node' hn'
      rw [hn] at hn'
      obtain rfl := Option.some.inj hn'
      exact ⟨new, ht, propagateSlot_current hb hp (hsame.inRoom hroom) (hsame.ruled he.ruled) hn
        (fun j hj => ih j hj (Nat.lt_trans hj hik)) (extendsTo_propagated hp hs (he.extendsTo i))
        (he.before hp hn hslot) hnew⟩
    · exact current_outside hc houtside hb hmem (hp.current i)

include hp he hs in
/-- Propagation records positions that the arrays can have. -/
theorem propagate_logs (hb : g.Built) (hc : g.Closed ids) (hw : waiting ⊆ ids)
    (hroom : g.InRoom s) (hlogs : ∀ i : Nat, g.LogsAt s i) : ∀ i : Nat, g.LogsAt t i := by
  have hsame := sameLeaves_of_stepped hs
  intro i
  induction i using Nat.strong_induction_on with
  | _ i ih =>
    intro d slot hd hslot
    rcases hs.slot_cases i with ⟨-, heq⟩ | ⟨⟨-, hik⟩, node, new, hn, ⟨old, hold, hnew⟩, ht⟩
    · exact hlogs i d slot hd (heq.symm.trans hslot)
    · rw [hslot] at ht
      obtain rfl := Option.some.inj ht
      exact propagateSlot_logs hb hp (hsame.inRoom hroom) (hsame.ruled he.ruled) hn
        (fun j hj => propagate_current hp he hs hb hc hw hroom j (Nat.lt_trans hj hik))
        (extendsTo_propagated hp hs (he.extendsTo i)) (he.before hp hn hold) hnew hd (hlogs i d old hd hold) ih

end Walk

/-- A state that was edited and propagated is up to date. -/
theorem Settled.propagate (hp : g.Settled past) (he : g.Edited past waiting s) (hb : g.Built)
    (hc : g.Closed ids) (hw : waiting ⊆ ids) (hroom : g.InRoom s)
    (h : g.propagate ids s = .ok () t) : g.Settled t := by
  have hs := (stepAll_stepped local_propagateSlot h).1
  have hsame := sameLeaves_of_stepped hs
  refine ⟨hs.graph.trans (he.graph.trans hp.graph), hs.size.trans (he.size.trans hp.size),
    hp.gathers, hsame.inRoom hroom, hsame.ruled he.ruled, fun i => ?_⟩
  by_cases hi : i < g.size
  · exact propagate_current hp he hs hb hc hw hroom i hi
  · intro node hn
    exact absurd (lt_size hn) hi

/-! ### Where nothing has changed -/

section Kept

variable {base : State} (hb : g.Built) (hbase : g.Settled base) (hclean : g.AllClean base)
  (ht : g.Settled t)

include hb ht in
/-- A gathered array stays as it is, if nothing that it reads has changed and
the rows of its origin have not. -/
theorem propagateSlot_advanced_kept {a : AdvancedIndexing} {x : Gathered} {new : Slot}
    (hn : g.nodes[id]? = some (.advanced a)) (hx : g.Current base id (.advanced a) (.gathered x))
    (hdiff : ∀ p ∈ (Node.advanced a).predecessors, ∀ d, g.describe p = .ok d →
      g.diffAt t p = .ok [])
    (hrows : a.shape.isDynamic = true →
      g.rowsIn t (a.description id).rows.origin = g.rowsIn base (a.description id).rows.origin)
    (hnew : g.propagateSlot t (.advanced a) (.gathered x) = .ok new) : new = .gathered x := by
  obtain ⟨picked, hfits⟩ := hb.promises hn
  obtain ⟨b, hfinds⟩ := exists_finds hn hfits (ht.gathers.at hn)
    (fun p d _ hd hf => ht.seen hb hd hf) hb ht.inRoom ht.ruled (describe_eq_ok.mpr ⟨_, hn, rfl⟩)
  have hsourceDiff := pending_eq (hdiff a.source List.mem_cons_self _ hfits.source)
  have hdiffs : ∀ diff ∈ a.indexers.map (g.pending t ·.node), diff = [] := by
    rw [List.forall_mem_map]
    intro ix hix
    have hmem : ix.node ∈ (Node.advanced a).predecessors :=
      List.mem_cons_of_mem _ (List.mem_map_of_mem hix)
    rw [hfits.indexers] at hix
    obtain ⟨e, he, rfl⟩ := List.mem_map.mp hix
    exact pending_eq (hdiff e.2.1 hmem _ (hfits.described e he))
  have hsize : x.size = b.size := by
    cases hx with
    | advanced hx =>
      rw [hfinds.size_eq, hx.size]
      exact Shape.sizeWith_congr fun hdyn => (hrows hdyn).symm
  have hrefresh := @AdvancedIndexing.refresh_eq_self a b x (a.indexers.map (g.shown t ·.node))
    (g.shown t a.source) _ hfinds.count hsize hdiffs
  rw [← hsourceDiff] at hrefresh
  have hrun := (hfinds.propagateSlot_eq_ok hn hfits fun j _ => ht.current j).mpr ⟨x, hrefresh, rfl⟩
  exact Except.ok.inj (hnew.symm.trans hrun)

include hbase hclean

theorem pending_of_allClean (hd : g.describe id = .ok d) : g.diffAt base id = .ok [] := by
  obtain ⟨node, hn, -⟩ := describe_eq_ok.mp hd
  obtain ⟨slot, hslot, hcur⟩ := hbase.current id node hn
  rw [diffAt_of_owns hd hn hcur.owns hslot, (hclean id slot (lt_size hn) hslot).quiet.diff_eq]

include hb ht

/-- A step leaves a slot alone if nothing that it reads has changed. -/
theorem propagateSlot_kept (hc : g.Closed ids) (hid : id ∉ ids) (hn : g.nodes[id]? = some node)
    (hleaves : ∀ (j : Nat) (v : Variable), j ∉ ids → g.nodes[j]? = some (.leaf v) →
      t.slot? j = base.slot? j)
    (hbelow : ∀ j : Nat, j < id → j ∉ ids → t.slot? j = base.slot? j) {slot new : Slot}
    (hslot : base.slot? id = some slot) (hnew : g.propagateSlot t node slot = .ok new)
    (htnew : t.slot? id = some new) : new = slot := by
  have hquiet := hclean id slot (lt_size hn) hslot
  have hdiff : ∀ p ∈ node.predecessors, ∀ d, g.describe p = .ok d → g.diffAt t p = .ok [] := by
    intro p hp d hd
    rw [diffAt_congr (hbelow p (g.ordered id node hn p hp) (hc.not_mem_of_reads hn hid hp))]
    exact pending_of_allClean hbase hclean hd
  obtain ⟨slot', hslot', hcur⟩ := hbase.current id node hn
  rw [hslot] at hslot'
  obtain rfl := Option.some.inj hslot'
  cases hcur with
  | constant c => exact (Except.ok.inj hnew).symm
  | leaf _ => exact (Except.ok.inj hnew).symm
  | @basic b diff _ =>
    obtain ⟨hsource, -⟩ := hb.promises hn
    obtain ⟨source, translated, hdiff', htranslated, rfl⟩ := propagateSlot_basic.mp hnew
    rw [hdiff b.source (by simp [Node.predecessors]) _ hsource] at hdiff'
    obtain rfl := Except.ok.inj hdiff'
    obtain rfl := Except.ok.inj htranslated
    obtain rfl : diff = [] := hquiet
    rfl
  | @advanced a x hx =>
    refine propagateSlot_advanced_kept hb ht hn (.advanced hx) hdiff (fun hdyn => ?_) hnew
    have hd : g.describe id = .ok (a.description id) := describe_eq_ok.mpr ⟨_, hn, rfl⟩
    obtain ⟨v, horigin, -⟩ := hb.origin hd hdyn
    unfold rowsIn
    rw [hleaves _ v (hb.origin_not_mem hc hd hdyn hid) horigin]
  | validation w xs =>
    obtain ⟨_, -, hnew⟩ := Outcome.bind_eq_ok.mp hnew
    exact (Except.ok.inj hnew).symm

/-- **Propagation changes nothing** outside of a closed set that contains all
edits, wherever it goes. -/
theorem propagate_kept {others : List NodeId} (hc : g.Closed ids)
    (hkept : ∀ i : Nat, i ∉ ids → s.slot? i = base.slot? i)
    (hs : g.Stepped (Takes g.propagateSlot) others s g.size t) :
    ∀ i : Nat, i ∉ ids → t.slot? i = base.slot? i := by
  have hsame := sameLeaves_of_stepped hs
  intro i
  induction i using Nat.strong_induction_on with
  | _ i ih =>
    intro hi
    rcases hs.slot_cases i with ⟨-, heq⟩ | ⟨-, node, new, hn, ⟨slot, hslot, hnew⟩, htnew⟩
    · exact heq.trans (hkept i hi)
    · rw [hkept i hi] at hslot
      rw [htnew, hslot, propagateSlot_kept hb hbase hclean ht hc hi hn
        (fun j v hj hv => (hsame j v hv).trans (hkept j hj)) ih hslot hnew htnew]

end Kept

end Graph
end ArrayFlow
