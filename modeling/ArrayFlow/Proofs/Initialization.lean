import ArrayFlow.Proofs.Propagation
import ArrayFlow.Proofs.Restoring

/-!
# A state begins up to date

A state is filled by giving every node without a slot its default one, in the
order of the nodes.  The variables may have been seeded, edited and committed
before that; nothing derived has a slot yet, and nothing is pending
(`Seeded`).  So every slot is made from slots that are there for good, and is
current from the start (`filled_current`).

* `Reached.abides` — the variables keep their rules under all calls, and also
  when they are reverted;
* `Seeded.filled` — filling a seeded state does not fail, if there is room;
* `Fresh.settled` — a filled state is up to date.
-/

namespace ArrayFlow

/-- The contents keep the rules of the variable, and so do the committed
ones. -/
def Variable.Abides (v : Variable) (c : Variable.Contents) : Prop := v.Holds c ∧ v.Holds c.revert

theorem Variable.Abides.of_clean {v : Variable} {c : Variable.Contents} (h : v.Holds c)
    (hc : c.Clean) : v.Abides c := by
  refine ⟨h, ?_⟩
  rw [(Variable.Contents.Extends.refl c).revert_eq hc]
  exact h

/-- Whether a node, if it is a check, watches an array. -/
def Node.watches (describe : NodeId → Except Refusal Description) : Node → Bool
  | .validation w => (describe w).isOk
  | _ => true

/-- Whether there is room for a node, if it is a variable. -/
def Node.fits : Node → Bool
  | .leaf v => decide (v.defaultSize ≤ maxElements)
  | _ => true

namespace Graph

variable {g : Graph} {s s' t : State} {id : NodeId} {c : Call} {k : Nat}

/-! ### The rules of the variables -/

/-- The variables keep their rules, and have kept them when they were
committed last. -/
def Abides (g : Graph) (s : State) : Prop :=
  ∀ (id : NodeId) (v : Variable) (c : Variable.Contents), g.nodes[id]? = some (.leaf v) →
    s.slot? id = some (.contents c) → v.Abides c

namespace Abides

theorem ruled (h : g.Abides s) : g.Ruled s := fun id v c hn hc => (h id v c hn hc).1

/-- A variable comes by new contents in one of few ways. -/
theorem call (hs : g.Sound s) (h : g.Abides s) (hc : g.call c s = .ok () s') : g.Abides s' := by
  intro id v x hn hx
  have hturns := call_leaf hs hc hn
  rw [hx] at hturns
  cases hold : s.slot? id with
  | none =>
    rw [hold] at hturns
    cases hturns with
    | begins hbegins => exact .of_clean hbegins.holds hbegins.clean
  | some slot =>
    rw [hold] at hturns
    cases hturns with
    | @edit e y _ hedit =>
      obtain ⟨hholds, hcommitted⟩ := h id v y hn hold
      obtain ⟨-, htracked⟩ := hs.owns hn hold
      refine ⟨hholds.edit hedit, ?_⟩
      rw [htracked.revert_eq (.edit hedit)]
      exact hcommitted
    | @commit ids y _ =>
      obtain ⟨hholds, -⟩ := h id v y hn hold
      exact .of_clean hholds.commit (Variable.Contents.clean_commit y)
    | @revert ids y _ =>
      obtain ⟨-, hcommitted⟩ := h id v y hn hold
      obtain ⟨-, htracked⟩ := hs.owns hn hold
      exact .of_clean hcommitted htracked.clean_revert
    | kept _ => exact h id v x hn hold

end Abides

/-- **Variables keep their rules**, whatever calls are made. -/
theorem Reached.abides (h : g.Reached s) : g.Abides s := by
  induction h with
  | start =>
    intro id v c _ hc
    rw [slot?_emptyState] at hc
    cases hc
  | accepted hr hc ih => exact ih.call hr.sound hc
  | refused _ hc ih => rw [call_refused hc]; exact ih

/-! ### Filling a state -/

theorem watchFrom_eq {w : NodeId} {d : Description} (hd : g.describe w = .ok d)
    (hw : g.Seen t w d) (hc : d.shape.Counts) (hzero : g.sizeDiffAt t w = .ok 0) :
    g.watchFrom t w = .ok (g.shown t w).cells := by
  refine Outcome.bind_eq_ok.mpr ⟨d, descriptionAt_eq hd, ?_⟩
  refine Outcome.bind_eq_ok.mpr ⟨_, hw.view, ?_⟩
  refine Outcome.bind_eq_ok.mpr ⟨_, hw.toList_eq hc, ?_⟩
  exact Outcome.bind_eq_ok.mpr ⟨0, hzero, rfl⟩

/-- Only variables have slots, and nothing in them is pending. -/
structure Seeded (g : Graph) (s : State) : Prop where
  graph : s.graph = g.identity
  size : s.size = g.size
  leaves : ∀ (i : Nat) (slot : Slot), s.slot? i = some slot →
    ∃ v c, g.nodes[i]? = some (.leaf v) ∧ slot = .contents c ∧ v.Holds c ∧ c.Clean

/-- Every check watches an array. -/
def WatchesArrays (g : Graph) : Prop :=
  ∀ (id w : NodeId), g.nodes[id]? = some (.validation w) → ∃ d, g.describe w = .ok d

instance (g : Graph) : Decidable g.WatchesArrays :=
  decidable_of_iff (∀ i < g.size, ∀ node ∈ g.nodes[i]?, node.watches g.describe = true) (by
    rw [forall_nodes_iff (P := fun _ node => node.watches g.describe = true)]
    constructor
    · intro h id w hn
      exact Outcome.exists_ok (h id _ hn)
    · intro h id node hn
      cases node with
      | validation w =>
        obtain ⟨d, hd⟩ := h id w hn
        simp only [Node.watches, hd]
        rfl
      | _ => rfl)

/-- Every check watches an array whose elements it can read. -/
def WatchesReadable (g : Graph) : Prop :=
  ∀ (id w : NodeId), g.nodes[id]? = some (.validation w) →
    ∃ d, g.describe w = .ok d ∧ g.Framed w ∧ d.shape.Counts

theorem WatchesArrays.readable (h : g.WatchesArrays) (hwords : g.InWords) : g.WatchesReadable := by
  intro id w hn
  obtain ⟨d, hd⟩ := h id w hn
  have hplain := hwords.plain hn hd
  exact ⟨d, hd, hplain.framed, hplain.counts⟩

/-- There is room for the variables that nobody has seeded. -/
def DefaultsFit (g : Graph) : Prop :=
  ∀ (id : NodeId) (v : Variable), g.nodes[id]? = some (.leaf v) → v.defaultSize ≤ maxElements

instance (g : Graph) : Decidable g.DefaultsFit :=
  decidable_of_iff (∀ i < g.size, ∀ node ∈ g.nodes[i]?, node.fits = true) (by
    rw [forall_nodes_iff (P := fun _ node => node.fits = true)]
    constructor
    · intro h id v hn
      exact of_decide_eq_true (h id _ hn)
    · intro h id node hn
      cases node with
      | leaf v => exact decide_eq_true (h id v hn)
      | _ => rfl)

theorem seeded_emptyState (g : Graph) : g.Seeded g.emptyState.1 where
  graph := rfl
  size := Array.size_replicate
  leaves i slot h := by
    rw [slot?_emptyState] at h
    cases h

/-! What an advanced selection has gathered by default can be computed in
words. -/

theorem indexValues_eq_ok {a : AdvancedIndexing} {n : Nat} (h : g.indexValues t a = .ok n) :
    a.broadcast.Counts ∧ (a.broadcast.isDynamic = false → n = a.broadcast.sizeWith 0) := by
  obtain ⟨size, hsize, h⟩ := Outcome.bind_eq_ok.mp h
  obtain ⟨hcounts, rfl⟩ := Shape.count_eq_ok.mp hsize
  refine ⟨hcounts, fun hstatic => ?_⟩
  rw [Shape.sizeWith_of_not_isDynamic hstatic 0] at h
  exact (Except.ok.inj h).symm

theorem le_indexValues {a : AdvancedIndexing} {n : Nat} (h : g.indexValues t a = .ok n) :
    a.broadcast.sizeWith 0 ≤ n := by
  cases hdyn : a.broadcast.isDynamic with
  | false => exact Nat.le_of_eq ((indexValues_eq_ok h).2 hdyn).symm
  | true =>
    rw [Shape.sizeWith_of_isDynamic hdyn, Nat.zero_mul]
    exact Nat.zero_le n

theorem blocksOf_eq_ok {a : AdvancedIndexing} {b : Blocks} (h : g.blocksOf t a = .ok b) :
    ∃ rows values, g.indexValues t a = .ok values ∧
      (RowMajor.CountsFrom 1 b.post ∧ RowMajor.CountsFrom 1 b.pre) ∧ b = a.blocksAt rows values := by
  obtain ⟨rows, -, h⟩ := Outcome.bind_eq_ok.mp h
  obtain ⟨values, hvalues, h⟩ := Outcome.bind_eq_ok.mp h
  obtain ⟨hcounts, rfl⟩ := AdvancedIndexing.blocks_eq_ok.mp h
  exact ⟨rows, values, hvalues, hcounts, rfl⟩

theorem gathersAt_of_defaultSlot {a : AdvancedIndexing} {new : Slot} (hb : g.Built)
    (hn : g.nodes[id]? = some (.advanced a)) (h : g.defaultSlot t (.advanced a) = .ok new) :
    g.GathersAt a := by
  obtain ⟨picked, hfits⟩ := hb.promises hn
  obtain ⟨b, source, views, -, ⟨hblocks, hsource, hviews⟩, ⟨hcount, -⟩, -, -⟩ :=
    defaultSlot_advanced h
  obtain ⟨rows, values, hvalues, ⟨hpost, hpre⟩, rfl⟩ := blocksOf_eq_ok hblocks
  obtain ⟨hbroadcast, -⟩ := indexValues_eq_ok hvalues
  have hle := le_indexValues hvalues
  obtain ⟨hfront, hall, -⟩ := Blocks.count_eq_ok.mp hcount
  refine ⟨.of_eq (hb.frame_of_viewAt hfits.source hsource).1, fun ix hix => ?_, hbroadcast, ?_⟩
  · obtain ⟨v, hv⟩ := Outcome.exists_of_mapM_eq_ok hviews hix
    rw [hfits.indexers] at hix
    obtain ⟨e, he, rfl⟩ := List.mem_map.mp hix
    exact .of_eq (hb.frame_of_viewAt (hfits.described e he) hv).1
  · exact AdvancedIndexing.counts_without_rows ⟨hpost, hpre, hfront, hall⟩ hle

section Filling

variable (hs : g.Seeded s) (h : g.Stepped g.Fills (List.range g.size) s k t)

include h in
/-- Variables without a slot were counted with their default rows. -/
theorem rowsIn_of_fills (id : NodeId) : g.rowsIn t id = g.rowsIn s id := by
  unfold rowsIn
  split
  · next v hn =>
    by_cases hk : (id : Nat) < k
    · obtain ⟨node, new, hn', hnew, ht⟩ := h.done id (List.mem_range.mpr (lt_size hn)) hk
      rw [hn] at hn'
      obtain rfl := Option.some.inj hn'
      rcases hnew with hold | ⟨hnone, hnew⟩
      · rw [ht, hold]
      · obtain ⟨c, hc, rfl⟩ := Outcome.map_eq_ok.mp hnew
        obtain ⟨-, -, rfl⟩ := Variable.defaults_eq_ok.mp hc
        rw [ht, hnone]
    · rw [h.rest id fun _ => Nat.le_of_not_lt hk]
  · rfl

include h in
theorem inRoom_of_fills (hroom : g.InRoom s) : g.InRoom t := by
  intro id d hd
  rw [sizeBy, rowsIn_of_fills h]
  exact hroom id d hd

include hs h

theorem ruled_of_fills : g.Ruled t := by
  intro id v c hn hc
  have hold : s.slot? id = some (.contents c) → v.Holds c := by
    intro hold
    obtain ⟨w, x, hw, hx, hholds, -⟩ := hs.leaves id _ hold
    rw [hn] at hw
    obtain rfl := Node.leaf.inj (Option.some.inj hw)
    obtain rfl := Slot.contents.inj hx
    exact hholds
  by_cases hk : (id : Nat) < k
  · obtain ⟨node, new, hn', hnew, ht⟩ := h.done id (List.mem_range.mpr (lt_size hn)) hk
    rw [hn] at hn'
    obtain rfl := Option.some.inj hn'
    rw [hc] at ht
    obtain rfl := Option.some.inj ht
    rcases hnew with hsame | ⟨-, hnew⟩
    · exact hold hsame
    · obtain ⟨x, hx, hnew⟩ := Outcome.map_eq_ok.mp hnew
      obtain rfl := Slot.contents.inj hnew
      exact .defaults hx
  · rw [h.rest id fun _ => Nat.le_of_not_lt hk] at hc
    exact hold hc

/-- A slot that was made has no history. -/
theorem clean_of_fills {i : Nat} {node : Node} (hi : i < k) (hn : g.nodes[i]? = some node) :
    ∃ slot, t.slot? i = some slot ∧ node.Owns slot ∧ slot.Clean := by
  obtain ⟨node', new, hn', hnew, ht⟩ := h.done i (List.mem_range.mpr (lt_size hn)) hi
  rw [hn] at hn'
  obtain rfl := Option.some.inj hn'
  refine ⟨new, ht, ?_⟩
  rcases hnew with hold | ⟨-, hnew⟩
  · obtain ⟨v, c, hv, rfl, -, hclean⟩ := hs.leaves i new hold
    rw [hn] at hv
    obtain rfl := Option.some.inj hv
    exact ⟨.leaf v c, hclean⟩
  · exact defaultSlot_clean hnew

theorem pending_of_fills {p : NodeId} {d : Description} (hp : p < k) (hd : g.describe p = .ok d) :
    g.diffAt t p = .ok [] := by
  obtain ⟨node, hn, -⟩ := describe_eq_ok.mp hd
  obtain ⟨slot, hslot, ho, hclean⟩ := clean_of_fills hs h hp hn
  rw [diffAt_of_owns hd hn ho hslot, hclean.quiet.diff_eq]

variable (hb : g.Built)
include hb

/-- What was filled could be gathered in words. -/
theorem gathersBelow_of_fills : g.GathersBelow k := by
  intro id a hid hn
  obtain ⟨node, new, hn', hnew, -⟩ := h.done id (List.mem_range.mpr (lt_size hn)) hid
  rw [hn] at hn'
  obtain rfl := Option.some.inj hn'
  rcases hnew with hold | ⟨-, hnew⟩
  · obtain ⟨v, c, hv, -⟩ := hs.leaves id new hold
    rw [hn] at hv
    cases hv
  · exact gathersAt_of_defaultSlot hb hn hnew

variable (hroom : g.InRoom s)
include hroom

section Below

variable {i : Nat} (hi : i ≤ k) (hc : ∀ j : Nat, j < i → g.CurrentAt t j)
include hi hc

theorem seenBelow_of_fills : g.SeenBelow t i := fun _ _ hlt hd hf =>
  seen_of_current hb ((gathersBelow_of_fills hs h hb).mono hi) (inRoom_of_fills h hroom)
    (ruled_of_fills hs h) hc hlt hd hf

/-- The default slot of an advanced selection is made if it can be computed in
words, and it is current. -/
theorem defaultSlot_gathers {a : AdvancedIndexing} (hn : g.nodes[i]? = some (.advanced a))
    (hwords : g.GathersAt a) :
    ∃ new, g.defaultSlot t (.advanced a) = .ok new ∧ g.Current t i (.advanced a) new := by
  obtain ⟨picked, hfits⟩ := hb.promises hn
  have hseen := seenBelow_of_fills hs h hb hroom hi hc
  have hd : g.describe i = .ok (a.description i) := describe_eq_ok.mpr ⟨_, hn, rfl⟩
  obtain ⟨b, hfinds⟩ := exists_finds hn hfits hwords hseen hb (inRoom_of_fills h hroom)
    (ruled_of_fills hs h) hd
  obtain ⟨x, hx, hmirrors, -⟩ := AdvancedIndexing.gather_eq hfinds.count hfinds.room hfinds.canRead
    hfinds.readable hfinds.offset_lt
  exact ⟨_, hfinds.defaultSlot_eq hx, .advanced (hfinds.mirrors_iff.mp hmirrors)⟩

/-- **A default slot is current.** -/
theorem defaultSlot_current {node : Node} {new : Slot} (hn : g.nodes[i]? = some node)
    (hnew : g.defaultSlot t node = .ok new) : g.Current t i node new := by
  cases node with
  | constant c =>
    obtain rfl := Except.ok.inj hnew
    exact .constant c
  | leaf v =>
    obtain ⟨c, hdefaults, rfl⟩ := Outcome.map_eq_ok.mp hnew
    exact .leaf (.defaults hdefaults)
  | basic b =>
    obtain rfl := Except.ok.inj hnew
    obtain ⟨hsource, -⟩ := hb.promises hn
    have hlt : b.source < k := Nat.lt_of_lt_of_le (lt_of_basic hn) hi
    exact .basic (by rw [pending_eq (pending_of_fills hs h hlt hsource)]; rfl)
  | advanced a =>
    obtain ⟨new', hnew', hcurrent⟩ := defaultSlot_gathers hs h hb hroom hi hc hn
      (gathersAt_of_defaultSlot hb hn hnew)
    rw [hnew] at hnew'
    obtain rfl := Except.ok.inj hnew'
    exact hcurrent
  | validation w =>
    obtain ⟨xs, -, rfl⟩ := Outcome.map_eq_ok.mp hnew
    exact .validation w xs

/-- Every node gets a default slot that can have one. -/
theorem defaultSlot_ok {node : Node} (hn : g.nodes[i]? = some node)
    (hleaf : ∀ v, node = .leaf v → v.Counts ∧ v.defaultSize ≤ maxElements)
    (hadvanced : ∀ a, node = .advanced a → g.GathersAt a)
    (hcheck : ∀ w, node = .validation w →
      ∃ d, g.describe w = .ok d ∧ g.Framed w ∧ d.shape.Counts) :
    ∃ new, g.defaultSlot t node = .ok new := by
  cases node with
  | constant c => exact ⟨_, rfl⟩
  | basic b => exact ⟨_, rfl⟩
  | leaf v =>
    obtain ⟨hcounts, hfit⟩ := hleaf v rfl
    have hdefaults := Variable.defaults_eq_ok.mpr ⟨hcounts, hfit, rfl⟩
    exact ⟨_, Outcome.map_eq_ok.mpr ⟨_, hdefaults, rfl⟩⟩
  | advanced a =>
    obtain ⟨new, hnew, -⟩ := defaultSlot_gathers hs h hb hroom hi hc hn (hadvanced a rfl)
    exact ⟨new, hnew⟩
  | validation w =>
    obtain ⟨d, hd, hframed, hcounts⟩ := hcheck w rfl
    have hlt := lt_of_validation hn
    have hzero : g.sizeDiffAt t w = .ok 0 := by
      refine sizeDiffAt_eq_zero hb hd fun j node hj hn => ?_
      have hjk : j < k := Nat.lt_of_lt_of_le (Nat.lt_of_le_of_lt hj hlt) hi
      obtain ⟨slot, hslot, ho, hclean⟩ := clean_of_fills hs h hjk hn
      exact ⟨slot, hslot, ho, hclean.quiet⟩
    have hseen := seenBelow_of_fills hs h hb hroom hi hc w d hlt hd hframed
    exact ⟨_, Outcome.bind_eq_ok.mpr ⟨_, watchFrom_eq hd hseen hcounts hzero, rfl⟩⟩

end Below

/-- What has been filled is current. -/
theorem filled_current : ∀ i : Nat, i < k → g.CurrentAt t i := by
  intro i
  induction i using Nat.strong_induction_on with
  | _ i ih =>
    intro hik node hn
    obtain ⟨node', new, hn', hnew, ht⟩ := h.done i (List.mem_range.mpr (lt_size hn)) hik
    rw [hn] at hn'
    obtain rfl := Option.some.inj hn'
    refine ⟨new, ht, ?_⟩
    rcases hnew with hold | ⟨-, hnew⟩
    · obtain ⟨v, c, hv, rfl, hholds, -⟩ := hs.leaves i new hold
      rw [hn] at hv
      obtain rfl := Option.some.inj hv
      exact .leaf hholds
    · have hbelow : ∀ j : Nat, j < i → g.CurrentAt t j :=
        fun j hj => ih j hj (Nat.lt_trans hj hik)
      exact defaultSlot_current hs h hb hroom (Nat.le_of_lt hik) hbelow hn hnew

end Filling

/-- **Filling a state does not fail**, if there is room, what is gathered fits
into words, and every check has an array to read. -/
theorem Seeded.filled (hs : g.Seeded s) (hb : g.Built) (hroom : g.InRoom s)
    (hfit : ∀ (id : NodeId) (v : Variable), g.nodes[id]? = some (.leaf v) → s.slot? id = none →
      v.Counts ∧ v.defaultSize ≤ maxElements) (hwords : g.Gathers) (hw : g.WatchesReadable) :
    ∃ t, (List.range g.size).forM g.initializeNode s = .ok () t := by
  refine forM_initializeNode_ok local_fills hs.size fun k t hk hstepped => ?_
  have hn : g.nodes[k]? = some g.nodes[k] := Array.getElem?_eq_getElem hk
  refine ⟨g.nodes[k], ?_⟩
  cases hslot : s.slot? k with
  | some slot => exact ⟨slot, hn, .inl rfl⟩
  | none =>
    obtain ⟨new, hnew⟩ := defaultSlot_ok hs hstepped hb hroom (Nat.le_refl k)
      (fun j hj => filled_current hs hstepped hb hroom j hj) hn
      (fun v hv => hfit k v (hv ▸ hn) hslot) (fun a hv => hwords.at (hv ▸ hn))
      fun w hv => hw k w (hv ▸ hn)
    exact ⟨new, hn, .inr ⟨rfl, hnew⟩⟩

section Filled

variable (hs : g.Seeded s) (h : g.Stepped g.Fills (List.range g.size) s g.size t)
  (hb : g.Built) (hroom : g.InRoom s)
include hs h

theorem allClean_of_filled : g.AllClean t := by
  intro i slot hi hslot
  obtain ⟨slot', hslot', -, hclean⟩ := clean_of_fills hs h hi (Array.getElem?_eq_getElem hi)
  rw [hslot] at hslot'
  obtain rfl := Option.some.inj hslot'
  exact hclean

include hb hroom

/-- A filled state is up to date. -/
theorem settled_of_filled : g.Settled t where
  graph := h.graph.trans hs.graph
  size := h.size.trans hs.size
  gathers n id a _ hn := gathersBelow_of_fills hs h hb id a (lt_size hn) hn
  inRoom := inRoom_of_fills h hroom
  ruled := ruled_of_fills hs h
  current i := by
    by_cases hi : i < g.size
    · exact filled_current hs h hb hroom i hi
    · intro node hn
      exact absurd (lt_size hn) hi

/-- A check begins with the values of the array that it watches. -/
theorem watched_of_filled {w : NodeId} {xs : List Binary64}
    (hn : g.nodes[id]? = some (.validation w)) (hslot : t.slot? id = some (.watched xs)) :
    (∃ d, g.describe w = .ok d ∧ g.Framed w ∧ d.shape.Counts) ∧ xs = (g.shown t w).cells := by
  obtain ⟨new, hnew, ht⟩ := h.slot_of_mem hn (List.mem_range.mpr (lt_size hn))
  rw [hslot] at ht
  obtain rfl := Option.some.inj ht
  rcases hnew with hold | ⟨-, hnew⟩
  · obtain ⟨v, c, -, hx, -⟩ := hs.leaves id _ hold
    cases hx
  · obtain ⟨ys, hys, hnew⟩ := Outcome.bind_eq_ok.mp hnew
    obtain rfl := Slot.watched.inj (Except.ok.inj hnew)
    obtain ⟨d, hd, hys⟩ := Outcome.bind_eq_ok.mp hys
    obtain ⟨view, hview, hys⟩ := Outcome.bind_eq_ok.mp hys
    obtain ⟨values, hvalues, hys⟩ := Outcome.bind_eq_ok.mp hys
    obtain ⟨_, -, hys⟩ := Outcome.bind_eq_ok.mp hys
    obtain ⟨_, -, hys⟩ := Outcome.bind_eq_ok.mp hys
    obtain rfl := Except.ok.inj hys
    have hd := descriptionAt_eq_ok hd
    exact ⟨⟨d, hd, hb.readable_of_toList hd hview hvalues⟩,
      (settled_of_filled hs h hb hroom).toList_eq_cells hb hd hview hvalues⟩

end Filled

/-! ### States to begin with -/

/-- What is filled is filled node by node, and every node has a slot then. -/
theorem fills_of_initializeRemaining {s t : State} (h : g.initializeRemaining s = .ok () t) :
    (s.graph = g.identity ∧ s.size = g.size) ∧
      g.Stepped g.Fills (List.range g.size) s g.size t ∧ g.Full t := by
  obtain ⟨hown, hrun⟩ := initializeRemaining_eq_ok.mp h
  have hstepped := forM_initializeNode_stepped local_fills hown.2 hrun
  refine ⟨hown, hstepped, hstepped.graph.trans hown.1, hstepped.size.trans hown.2, fun i hi => ?_⟩
  obtain ⟨node, new, -, -, ht⟩ := hstepped.done i (List.mem_range.mpr hi) hi
  exact ⟨new, ht⟩

/-- A state that has just been filled, with room for its arrays and nothing
pending.  What the variables held before was seeded, edited or taken back by
any calls. -/
structure Fresh (g : Graph) (s : State) : Prop where
  inRoom : g.InRoom s
  noDiffs : g.NoDiffs s
  filled : ∃ s₀, g.Reached s₀ ∧
    (∀ (i : Nat) (slot : Slot), s₀.slot? i = some slot → ∃ v, g.nodes[i]? = some (.leaf v)) ∧
      g.initializeRemaining s₀ = .ok () s

namespace Fresh

variable (h : g.Fresh s)
include h

theorem reached : g.Reached s := by
  obtain ⟨s₀, hr, -, hfill⟩ := h.filled
  exact hr.accepted (c := .initializeRemaining) hfill

/-- A fresh state was filled from a seeded one. -/
theorem exists_seeded :
    ∃ s₀, g.Seeded s₀ ∧ g.InRoom s₀ ∧ g.Stepped g.Fills (List.range g.size) s₀ g.size s := by
  obtain ⟨s₀, hr, hleaves, hfill⟩ := h.filled
  obtain ⟨⟨hgraph, hsize⟩, hstepped, hfull⟩ := fills_of_initializeRemaining hfill
  refine ⟨s₀, ⟨hgraph, hsize, fun i slot hslot => ?_⟩, fun id d hd => ?_, hstepped⟩
  · obtain ⟨v, hn⟩ := hleaves i slot hslot
    obtain ⟨ho, htracked⟩ := hr.sound.owns hn hslot
    cases ho with
    | leaf _ c =>
      refine ⟨v, c, hn, rfl, hr.abides.ruled i v c hn hslot, ?_⟩
      -- the slot is kept, so its diff is that of the filled state
      obtain ⟨new, hnew, ht⟩ := hstepped.slot_of_mem hn (List.mem_range.mpr (lt_size hn))
      rw [hslot] at hnew
      obtain rfl := Option.some.inj (hnew.resolve_right fun hnone => by cases hnone.1)
      have hd : g.describe i = .ok (v.description i) := describe_eq_ok.mpr ⟨_, hn, rfl⟩
      have hdiff := h.noDiffs i _ hd
      rw [diff_eq hfull hd, diffAt_of_owns hd hn (.leaf v c) ht] at hdiff
      exact htracked.quiet (Except.ok.inj hdiff)
  · have hroom := h.inRoom id d hd
    rw [sizeBy, rowsIn_of_fills hstepped] at hroom
    exact hroom

theorem settled (hb : g.Built) : g.Settled s := by
  obtain ⟨s₀, hseeded, hroom, hstepped⟩ := h.exists_seeded
  exact settled_of_filled hseeded hstepped hb hroom

theorem allClean : g.AllClean s := by
  obtain ⟨s₀, hseeded, -, hstepped⟩ := h.exists_seeded
  exact allClean_of_filled hseeded hstepped

end Fresh

/-- Filling a seeded state gives one to begin with. -/
theorem Fresh.of_seeded {s₀ : State} (hr : g.Reached s₀) (hs : g.Seeded s₀)
    (hroom : g.InRoom s₀) (hfill : g.initializeRemaining s₀ = .ok () s) : g.Fresh s := by
  obtain ⟨-, hstepped, hfull⟩ := fills_of_initializeRemaining hfill
  refine ⟨inRoom_of_fills hstepped hroom, fun id d hd => ?_, s₀, hr, fun i slot hslot => ?_, hfill⟩
  · have hreached : g.Reached s := hr.accepted (c := .initializeRemaining) hfill
    have hclean := allClean_of_filled hs hstepped
    have hquiet : g.Quiet s := by
      refine ⟨hfull, hreached.sound, fun i slot hslot => ?_⟩
      exact (hclean i slot (hfull.size ▸ State.slot?_lt hslot) hslot).quiet
    exact hquiet.noDiffs id d hd
  · obtain ⟨v, c, hn, -⟩ := hs.leaves i slot hslot
    exact ⟨v, hn⟩

end Graph
end ArrayFlow
