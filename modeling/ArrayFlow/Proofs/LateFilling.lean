import ArrayFlow.Proofs.Idempotence

/-!
# Filling a state while edits are pending

A variable that was seeded can be edited at once, before anything derived has
a slot.  Whatever is made by default after that is made from the edited
variables, and what a selection by index arrays gathers counts as committed
from then on.  So a revert of all edits brings the variables back and does not
bring back what was gathered from them.

* `bare_eq_of_derived` — what is made by default is determined by the
  variables that it depends on;
* `Stale` — the arrays that show what was gathered from an edited variable;
* `revert_after_filling` — after the revert these show what the edited
  variables gave, and all others what the variables give that are back.
-/

namespace ArrayFlow
namespace Graph

variable {g : Graph} {s t t' u : State} {edited ids : List NodeId} {id : NodeId}

/-! ### What is made by default -/

/-- Whatever is not a variable has the slot that is made by default from the
state itself. -/
def Derived (g : Graph) (t : State) : Prop :=
  ∀ (i : NodeId) (node : Node), g.nodes[i]? = some node → (∀ v, node ≠ .leaf v) →
    ∃ new, t.slot? i = some new ∧ g.defaultSlot t node = .ok new

theorem derived_of_fills
    (hleaves : ∀ (i : Nat) (slot : Slot), s.slot? i = some slot → ∃ v, g.nodes[i]? = some (.leaf v))
    (h : g.Stepped g.Fills (List.range g.size) s g.size t) : g.Derived t := by
  intro i node hn hleaf
  obtain ⟨new, hnew, ht⟩ := h.slot_of_mem hn (List.mem_range.mpr (lt_size hn))
  rcases hnew with hold | ⟨-, hnew⟩
  · obtain ⟨v, hv⟩ := hleaves i new hold
    rw [hn] at hv
    exact absurd (Option.some.inj hv) (hleaf v)
  · exact ⟨new, ht, hnew⟩

theorem Seeded.derived (hs : g.Seeded s)
    (h : g.Stepped g.Fills (List.range g.size) s g.size t) : g.Derived t := by
  refine derived_of_fills (fun i slot hslot => ?_) h
  obtain ⟨v, c, hn, -⟩ := hs.leaves i slot hslot
  exact ⟨v, hn⟩

/-- What is gathered depends on what is seen of the source and of the index
arrays. -/
theorem defaultSlot_congr {a : AdvancedIndexing}
    (h : ∀ p ∈ (Node.advanced a).predecessors, g.viewAt t p = g.viewAt t' p) :
    g.defaultSlot t (.advanced a) = g.defaultSlot t' (.advanced a) := by
  have hsource : g.viewAt t a.source = g.viewAt t' a.source := h _ List.mem_cons_self
  have hindexers : ∀ ix ∈ a.indexers, g.viewAt t ix.node = g.viewAt t' ix.node :=
    fun ix hix => h _ (List.mem_cons_of_mem _ (List.mem_map_of_mem hix))
  have hblocks : g.blocksOf t a = g.blocksOf t' a :=
    blocksOf_congr (sizeAt_congr hsource) fun ix hix => sizeAt_congr (hindexers ix hix)
  simp only [defaultSlot, hblocks, hsource, indexerViews_congr hindexers]

/-- **Variables determine what is made by default**, as far as it depends on
them. -/
theorem bare_eq_of_derived (ht : g.Derived t) (ht' : g.Derived t') {P : NodeId → Prop}
    (hP : ∀ (i : NodeId) (node : Node), g.nodes[i]? = some node → P i →
      ∀ p ∈ node.predecessors, P p)
    (hleaves : ∀ (i : NodeId) (v : Variable), g.nodes[i]? = some (.leaf v) → P i →
      (t.slot? i).map Slot.bare = (t'.slot? i).map Slot.bare)
    {node : Node} (hn : g.nodes[id]? = some node) (hid : P id) :
    (t.slot? id).map Slot.bare = (t'.slot? id).map Slot.bare := by
  induction id using Nat.strong_induction_on generalizing node with
  | _ id ih =>
    by_cases hleaf : ∃ v, node = .leaf v
    · obtain ⟨v, rfl⟩ := hleaf
      exact hleaves id v hn hid
    obtain ⟨new, hslot, hnew⟩ := ht id node hn fun v hv => hleaf ⟨v, hv⟩
    obtain ⟨new', hslot', hnew'⟩ := ht' id node hn fun v hv => hleaf ⟨v, hv⟩
    rw [hslot, hslot']
    refine congrArg some ?_
    cases node with
    | leaf v => exact absurd ⟨v, rfl⟩ hleaf
    | constant c => rw [← Except.ok.inj hnew, ← Except.ok.inj hnew']
    | basic b => rw [← Except.ok.inj hnew, ← Except.ok.inj hnew']
    | validation w =>
      obtain ⟨xs, -, hnew⟩ := Outcome.bind_eq_ok.mp hnew
      obtain ⟨ys, -, hnew'⟩ := Outcome.bind_eq_ok.mp hnew'
      rw [← Except.ok.inj hnew, ← Except.ok.inj hnew']
      rfl
    | advanced a =>
      have hviews : ∀ p ∈ (Node.advanced a).predecessors, g.viewAt t p = g.viewAt t' p := by
        intro p hp
        refine viewAt_congr_on (P := fun j => P j ∧ j < id) (fun i b hi hPi => ?_)
          (fun i node hi hPi => ih i hPi.2 hi hPi.1) ⟨hP id _ hn hid p hp, g.ordered id _ hn p hp⟩
        exact ⟨hP i _ hi hPi.1 _ (by simp [Node.predecessors]), Nat.lt_trans (lt_of_basic hi) hPi.2⟩
      rw [defaultSlot_congr hviews, hnew'] at hnew
      rw [Except.ok.inj hnew]

/-! ### Variables alone -/

/-- States that seeds and edits lead to from the one without slots, with the
variables that were edited. -/
inductive Sown (g : Graph) : List NodeId → State → Prop
  | start : Sown g [] g.emptyState.1
  | seed {edited : List NodeId} {s s' : State} {h : Handle} {values : List Binary64}
      (hs : Sown g edited s) (hc : g.seed h values s = .ok () s') : Sown g edited s'
  | edit {edited : List NodeId} {s s' : State} {id : NodeId} {e : Variable.Edit}
      (hs : Sown g edited s) (hc : g.edit id e s = .ok () s') : Sown g (id :: edited) s'
  | refused {edited : List NodeId} {s s' : State} {c : Call} {r : Refusal}
      (hs : Sown g edited s) (hc : g.call c s = .error (.refused r) s') : Sown g edited s'

namespace Sown

theorem reached (h : g.Sown edited s) : g.Reached s := by
  induction h with
  | start => exact .start
  | @seed _ _ _ h values _ hc ih => exact ih.accepted (c := .seed h values) hc
  | @edit _ _ _ id e _ hc ih => exact ih.accepted (c := .edit id e) hc
  | refused _ hc ih => exact ih.refused hc

/-- Only variables have slots, and only variables are edited. -/
theorem leaves (h : g.Sown edited s) :
    (∀ (i : Nat) (slot : Slot), s.slot? i = some slot → ∃ v, g.nodes[i]? = some (.leaf v)) ∧
      ∀ i ∈ edited, ∃ v, g.nodes[i]? = some (.leaf v) := by
  induction h with
  | start =>
    refine ⟨fun i slot hslot => ?_, nofun⟩
    rw [slot?_emptyState] at hslot
    cases hslot
  | @seed _ s _ h values hs hc ih =>
    obtain ⟨v, x, hn, -, -, rfl⟩ := seed_eq_ok hc
    have hlt : h.id < s.size := by
      rw [hs.reached.sound.size]
      exact lt_size hn
    refine ⟨fun i slot hslot => ?_, ih.2⟩
    rw [State.slot?_put s h.id i _ hlt] at hslot
    split at hslot
    · next heq => exact ⟨v, heq ▸ hn⟩
    · exact ih.1 i slot hslot
  | @edit _ s _ id e hs hc ih =>
    obtain ⟨v, x, x', ⟨hn, -⟩, -, hold, -, rfl⟩ := edit_eq_ok.mp hc
    refine ⟨fun i slot hslot => ?_, List.forall_mem_cons.mpr ⟨⟨v, hn⟩, ih.2⟩⟩
    rw [State.slot?_put s id i _ (State.slot?_lt hold)] at hslot
    split at hslot
    · next heq => exact ⟨v, heq ▸ hn⟩
    · exact ih.1 i slot hslot
  | refused _ hc ih =>
    rw [call_refused hc]
    exact ih

end Sown

/-- A full state has contents for every variable. -/
theorem Reached.planted (h : g.Reached s) (hf : g.Full s) : g.Planted s where
  graph := hf.graph
  size := hf.size
  leaves i v hn := by
    obtain ⟨slot, hslot⟩ := hf.slots i (lt_size hn)
    obtain ⟨ho, -⟩ := h.sound.owns hn hslot
    cases ho with
    | leaf _ c => exact ⟨c, hslot, h.abides.ruled i v c hn hslot⟩

/-- Whatever a check watches has been read. -/
theorem Derived.watchesReadable (h : g.Derived t) (hb : g.Built) : g.WatchesReadable := by
  intro id w hn
  obtain ⟨new, -, hnew⟩ := h id _ hn fun v hv => by cases hv
  obtain ⟨xs, hxs, -⟩ := Outcome.bind_eq_ok.mp hnew
  obtain ⟨d, hd, hxs⟩ := Outcome.bind_eq_ok.mp hxs
  obtain ⟨view, hview, hxs⟩ := Outcome.bind_eq_ok.mp hxs
  obtain ⟨values, hvalues, -⟩ := Outcome.bind_eq_ok.mp hxs
  have hd := descriptionAt_eq_ok hd
  exact ⟨d, hd, hb.readable_of_toList hd hview hvalues⟩

theorem Derived.gathers (h : g.Derived t) (hb : g.Built) : g.Gathers := by
  intro n id a _ hn
  obtain ⟨new, -, hnew⟩ := h id _ hn fun v hv => by cases hv
  exact gathersAt_of_defaultSlot hb hn hnew

/-- What is derived in a state that was filled shows what the variables
give. -/
theorem bare_eq_rebuilt (ht : g.Derived t) (ht' : g.Derived t') {P : NodeId → Prop}
    (hP : ∀ (i : NodeId) (node : Node), g.nodes[i]? = some node → P i →
      ∀ p ∈ node.predecessors, P p)
    (hleaves : ∀ (i : NodeId) (v : Variable), g.nodes[i]? = some (.leaf v) → P i →
      ∃ c, t.slot? i = some (.contents c) ∧ t'.slot? i = some (.contents c.commit))
    {node : Node} (hn : g.nodes[id]? = some node) (hid : P id) :
    (t.slot? id).map Slot.bare = (t'.slot? id).map Slot.bare := by
  refine bare_eq_of_derived ht ht' hP (fun i v hi hPi => ?_) hn hid
  obtain ⟨c, hc, hc'⟩ := hleaves i v hi hPi
  rw [hc, hc']
  exact congrArg some (Slot.bare_commit (.contents c)).symm

/-! ### After the revert -/

/-- An array shows what a selection by index arrays has gathered, and the
selection depends on an edited variable. -/
inductive Stale (g : Graph) (edited : List NodeId) : NodeId → Prop
  | gathered {id : NodeId} {a : AdvancedIndexing} (hn : g.nodes[id]? = some (.advanced a))
      (hid : id ∈ g.closure edited) : Stale g edited id
  | seen {id : NodeId} {b : BasicIndexing} (hn : g.nodes[id]? = some (.basic b))
      (h : Stale g edited b.source) : Stale g edited id

theorem Stale.gathered_or_seen (h : g.Stale edited id) {node : Node}
    (hn : g.nodes[id]? = some node) :
    (∃ a, node = .advanced a) ∨ ∃ b, node = .basic b ∧ g.Stale edited b.source := by
  cases h with
  | @gathered _ a hn' _ =>
    exact .inl ⟨a, Option.some.inj (hn.symm.trans hn')⟩
  | @seen _ b hn' h =>
    exact .inr ⟨b, Option.some.inj (hn.symm.trans hn'), h⟩

section Reverted

variable (hsound : g.Sound t) (hderived : g.Derived t)
  (hrevert : g.revert (g.closure edited) t = .ok () u)
include hsound hderived hrevert

/-- A stale array is seen as before the revert: what was gathered has nothing
pending. -/
theorem viewAt_of_stale (hid : g.Stale edited id) : g.viewAt u id = g.viewAt t id := by
  refine viewAt_congr_on (P := g.Stale edited) (fun i b hn hi => ?_) (fun i node hn hi => ?_) hid
  · rcases hi.gathered_or_seen hn with ⟨a, ha⟩ | ⟨b', hb', hsource⟩
    · cases ha
    · obtain rfl := Node.basic.inj hb'
      exact hsource
  · have hleaf : ∀ v, node ≠ .leaf v := by
      rintro v rfl
      rcases hi.gathered_or_seen hn with ⟨a, ha⟩ | ⟨b, hb, -⟩
      · cases ha
      · cases hb
    obtain ⟨slot, hslot, hnew⟩ := hderived i node hn hleaf
    have hclean := (defaultSlot_clean hnew).2
    rw [revert_slot hsound hrevert hslot, hslot, hclean.revert_eq, ite_self]

/-- All other arrays are seen as in a state that is made from the variables
after the revert. -/
theorem viewAt_of_not_stale (hknown : ∀ i ∈ edited, i < g.size) (hplanted : g.Planted u) (ht' : g.Derived t')
    (hleaves : ∀ (i : NodeId) (v : Variable) (c : Variable.Contents),
      g.nodes[i]? = some (.leaf v) → u.slot? i = some (.contents c) →
        t'.slot? i = some (.contents c.commit)) (hid : ¬ g.Stale edited id) :
    g.viewAt u id = g.viewAt t' id := by
  have hstepped := (stepAll_stepped local_revertSlot hrevert).1
  refine viewAt_congr_on (P := (¬ g.Stale edited ·)) (fun i b hn hi h => hi (.seen hn h))
    (fun i node hn hi => ?_) hid
  by_cases hmem : i ∈ g.closure edited
  · cases node with
    | leaf v =>
      obtain ⟨c, hc, -⟩ := hplanted.leaves i v hn
      rw [hc, hleaves i v c hn hc]
      exact congrArg some (Slot.bare_commit (.contents c)).symm
    | advanced a => exact absurd (.gathered hn hmem) hi
    | _ =>
      obtain ⟨slot, hslot, hnew⟩ := hderived i _ hn (fun v hv => by cases hv)
      obtain ⟨slot', hslot', hnew'⟩ := ht' i _ hn (fun v hv => by cases hv)
      rw [revert_slot hsound hrevert hslot, hslot', if_pos hmem]
      have ho := (defaultSlot_clean hnew).1
      have ho' := (defaultSlot_clean hnew').1
      cases ho
      cases ho'
      rfl
  · -- outside of the closure nothing was edited, and nothing is reverted
    rw [hstepped.slot_of_not_mem hmem]
    refine bare_eq_rebuilt hderived ht' (P := (· ∉ g.closure edited))
      (fun i node hn hi p hp => (closed_closure hknown).not_mem_of_reads hn hi hp)
      (fun i v hn hi => ?_) hn hmem
    obtain ⟨c, hc, -⟩ := hplanted.leaves i v hn
    exact ⟨c, (hstepped.slot_of_not_mem hi).symm.trans hc, hleaves i v c hn hc⟩

end Reverted

/-- What has one view is seen alike. -/
theorem Settled.seenAlike_of_viewAt (h : g.Settled t) (hb : g.Built) (hnan : ¬ g.HoldsNaN)
    (hf : g.Full s) {d : Description} (hd : g.describe id = .ok d)
    (hview : g.viewAt s id = g.viewAt t id) : g.SeenAlike s t id := by
  have hself : g.SeenAlike t t id :=
    SameElements.seenAlike (fun _ _ c _ hc => ⟨c, hc, rfl⟩) h h hb hnan hd
  unfold SeenAlike Overflows Alike elementsOf at hself ⊢
  rwa [view_eq hf hd, extentsIn_eq hf hd, hview, extentsAt_congr hview, ← view_eq h.full hd,
    ← extentsIn_eq h.full hd]

/-- A revert succeeds where it comes by no check. -/
theorem revert_ok_of_no_checks (hf : g.Full t) (hs : g.Sound t) (hlt : ∀ i ∈ ids, i < g.size)
    (hchecks : ∀ i ∈ ids, ∀ w, g.nodes[i]? ≠ some (.validation w)) :
    ∃ u, g.revert ids t = .ok () u := by
  refine stepAll_ok local_revertSlot (fun i hi => hf.checkReady (hlt i hi)) fun k _ hk _ => ?_
  obtain ⟨slot, hslot⟩ := hf.slots k (hlt k hk)
  obtain ⟨node, hn, ho, -⟩ := hs.slots k slot hslot
  refine ⟨node, ?_⟩
  cases ho with
  | validation w xs => exact absurd hn (hchecks k hk w)
  | _ => exact ⟨_, hn, _, hslot, rfl⟩

/-- **Filling late keeps what was pending.**  Variables are seeded and edited,
and then the state is filled.  It shows what its variables give.  After a
revert of all that depends on the edits, the arrays that show what was gathered
from edited variables still do; all others show what the variables give that
are back.  Unless it comes by a check, the revert succeeds. -/
theorem revert_after_filling (hb : g.Built) (hnan : ¬ g.HoldsNaN) (h : g.Sown edited s)
    (hfill : g.initializeRemaining s = .ok () t) (hroom : g.InRoom t) :
    ∃ ids, g.descendants t edited = .ok ids ∧
      ((∀ i ∈ ids, ∀ w, g.nodes[i]? ≠ some (.validation w)) → ∃ u, g.revert ids t = .ok () u) ∧
      ∃ before, g.initializeRemaining (g.leavesOf t) = .ok () before ∧
        (∀ id d, g.describe id = .ok d → g.SeenAlike t before id) ∧
        ∀ u, g.revert ids t = .ok () u → g.InRoom u →
          ∃ after, g.initializeRemaining (g.leavesOf u) = .ok () after ∧
            ∀ id d, g.describe id = .ok d →
              (g.Stale edited id → g.SeenAlike u before id) ∧
                (¬ g.Stale edited id → g.SeenAlike u after id) := by
  obtain ⟨hleaves, hedited⟩ := h.leaves
  obtain ⟨-, hstepped, hfull⟩ := fills_of_initializeRemaining hfill
  have hderived := derived_of_fills hleaves hstepped
  have hreached : g.Reached t := h.reached.accepted (c := .initializeRemaining) hfill
  have hwatches := hderived.watchesReadable hb
  have hgathers := hderived.gathers hb
  have hknown : ∀ i ∈ edited, i < g.size := fun i hi => by
    obtain ⟨v, hn⟩ := hedited i hi
    exact lt_size hn
  have hplanted := hreached.planted hfull
  obtain ⟨before, hbefore, hstepped₀, hsettled₀, hslots₀⟩ :=
    hplanted.rebuilt hb hroom hgathers hwatches
  have hview₀ : ∀ id, g.viewAt t id = g.viewAt before id := by
    refine fun id => viewAt_congr_on (P := fun _ => True) (fun _ _ _ _ => trivial)
      (fun i node hn _ => ?_) trivial
    refine bare_eq_rebuilt hderived (hplanted.seeded_leavesOf.derived hstepped₀)
      (P := fun _ => True) (fun _ _ _ _ _ _ => trivial) (fun i v hn _ => ?_) hn trivial
    obtain ⟨c, hc, -⟩ := hplanted.leaves i v hn
    exact ⟨c, hc, hslots₀ i v c hn hc⟩
  refine ⟨g.closure edited, descendants_eq hfull hknown, fun hchecks => ?_, before, hbefore,
    fun id d hd => hsettled₀.seenAlike_of_viewAt hb hnan hfull hd (hview₀ id), fun u hrevert hroom' => ?_⟩
  · exact revert_ok_of_no_checks hfull hreached.sound (closed_closure hknown).1 hchecks
  have hfull' := hfull.stepped (stepAll_stepped local_revertSlot hrevert).1
  have hplanted' : g.Planted u :=
    (hreached.accepted (c := .revert (g.closure edited)) hrevert).planted hfull'
  obtain ⟨after, hafter, hstepped₁, hsettled₁, hslots₁⟩ := hplanted'.rebuilt hb hroom' hgathers hwatches
  refine ⟨after, hafter, fun id d hd => ⟨fun hstale => ?_, fun hstale => ?_⟩⟩
  · refine hsettled₀.seenAlike_of_viewAt hb hnan hfull' hd ?_
    rw [viewAt_of_stale hreached.sound hderived hrevert hstale, hview₀]
  · exact hsettled₁.seenAlike_of_viewAt hb hnan hfull' hd
      (viewAt_of_not_stale hreached.sound hderived hrevert hknown hplanted'
        (hplanted'.seeded_leavesOf.derived hstepped₁) hslots₁ hstale)

/-- Two numbers, the first of them as a slice, and the first of them as it is
picked by an index array. -/
def draft : Graph :=
  ((((Graph.empty 0).extend
    fun _ => Node.leaf <$> Variable.integer <$> IntegerVariable.ofBounds [2] 0 9).extend
      fun g => g.basicIndexing 0 [.slice ⟨none, some 1, 1⟩]).extend
        fun _ => .ok (.constant (.ofArray #[.ofNat 0]))).extend
          fun g => g.advancedIndexing 0 [.indexer 2]

theorem built_draft : draft.Built := by
  refine .extend (.extend (.extend (.extend_leaf (.empty 0) _) ?_) ?_) ?_
  · exact fun _ hn => .basic hn
  · intro n hn
    obtain rfl := Except.ok.inj hn
    exact .constant _
  · exact fun _ hn => .advanced hn

namespace Draft

/-- The numbers are given. -/
def seeded : State := draft.after [.seed ⟨0, .integer⟩ [.ofInt 1, .ofInt 2]] draft.emptyState.1

/-- The first of them is changed. -/
def changed : State := draft.after [.edit 0 (.integer (.set 0 (.ofInt 5)))] seeded

/-- Everything else is made. -/
def filled : State := draft.after [.initializeRemaining] changed

/-- The change is taken back. -/
def reverted : State := draft.after [.revert [0, 1, 3]] filled

theorem sown_changed : draft.Sown [0] changed := by
  have hseeded : draft.Sown [] seeded :=
    .seed .start (call_eq_ok_after (c := .seed ⟨0, .integer⟩ _) (by decide +kernel))
  exact hseeded.edit (call_eq_ok_after (c := .edit 0 _) (by decide +kernel))

theorem filled_eq : draft.initializeRemaining changed = .ok () filled :=
  call_eq_ok_after (c := .initializeRemaining) (by decide +kernel)

theorem reverted_eq : draft.revert [0, 1, 3] filled = .ok () reverted :=
  call_eq_ok_after (c := .revert [0, 1, 3]) (by decide +kernel)

end Draft

open Draft in
set_option maxRecDepth 4000 in
/-- The slice shows the old number again, and what was picked is still the new
one. -/
theorem draft_reverted : (draft.Built ∧ ¬ draft.HoldsNaN ∧ draft.Sown [0] changed ∧
      draft.initializeRemaining changed = .ok () filled ∧ draft.InRoom filled ∧
      draft.descendants filled [0] = .ok [0, 1, 3] ∧
      draft.revert [0, 1, 3] filled = .ok () reverted ∧ draft.InRoom reverted) ∧
    ∃ before after, draft.initializeRemaining (draft.leavesOf filled) = .ok () before ∧
      draft.initializeRemaining (draft.leavesOf reverted) = .ok () after ∧
      draft.Alike reverted after 1 ∧ draft.Alike reverted before 3 ∧
        draft.elementsOf reverted 1 = some [.ofInt 1] ∧
          draft.elementsOf reverted 3 = some [.ofInt 5] := by
  have hnan : ¬ draft.HoldsNaN := by decide +kernel
  have hroom : draft.InRoom filled := by decide +kernel
  have hroom' : draft.InRoom reverted := by decide +kernel
  have hdescendants : draft.descendants filled [0] = .ok [0, 1, 3] := by decide +kernel
  obtain ⟨ids, hids, -, before, hbefore, -, hreverted⟩ :=
    revert_after_filling built_draft hnan sown_changed filled_eq hroom
  obtain rfl := Except.ok.inj (hids.symm.trans hdescendants)
  obtain ⟨after, hafter, halike⟩ := hreverted reverted reverted_eq hroom'
  obtain ⟨b, hn, hsource⟩ : ∃ b, draft.nodes[1]? = some (.basic b) ∧ b.source = 0 :=
    ⟨_, by with_unfolding_all rfl, rfl⟩
  obtain ⟨v, hleaf⟩ : ∃ v, draft.nodes[0]? = some (.leaf v) := ⟨_, by with_unfolding_all rfl⟩
  obtain ⟨a, hadvanced⟩ : ∃ a, draft.nodes[3]? = some (.advanced a) :=
    ⟨_, by with_unfolding_all rfl⟩
  have hfresh : ¬ draft.Stale [0] 1 := by
    intro h
    rcases h.gathered_or_seen hn with ⟨a, ha⟩ | ⟨b', hb', h⟩
    · cases ha
    · obtain rfl := Node.basic.inj hb'
      rw [hsource] at h
      rcases h.gathered_or_seen hleaf with ⟨a, ha⟩ | ⟨b, hb, -⟩
      · cases ha
      · cases hb
  have hstale : draft.Stale [0] 3 := .gathered hadvanced (by decide +kernel)
  obtain ⟨d, hd⟩ := Outcome.exists_ok (x := draft.describe 1) (by decide +kernel)
  obtain ⟨d', hd'⟩ := Outcome.exists_ok (x := draft.describe 3) (by decide +kernel)
  exact ⟨⟨built_draft, hnan, sown_changed, filled_eq, hroom, hdescendants, reverted_eq, hroom'⟩,
    before, after, hbefore, hafter, ((halike 1 d hd).2 hfresh).alike (by decide +kernel),
    ((halike 3 d' hd').1 hstale).alike (by decide +kernel), by decide +kernel,
    by decide +kernel⟩

open Draft in
set_option maxRecDepth 4000 in
/-- **What was gathered stays.**  The revert takes the edit of the first number
back, and still shows what was picked before it. -/
theorem draft_keeps_gathered : (draft.Built ∧ ¬ draft.HoldsNaN ∧ draft.Sown [0] changed ∧
      draft.initializeRemaining changed = .ok () filled ∧
      draft.descendants filled [0] = .ok [0, 1, 3] ∧
      draft.revert [0, 1, 3] filled = .ok () reverted) ∧
    draft.elementsOf reverted 0 = some [.ofInt 1, .ofInt 2] ∧
      draft.elementsOf reverted 3 = some [.ofInt 5] ∧
        ∃ after, draft.initializeRemaining (draft.leavesOf reverted) = .ok () after ∧
          draft.elementsOf after 3 = some [.ofInt 1] ∧ ¬ draft.Alike reverted after 3 := by
  have hshown : draft.elementsOf reverted 3 = some [.ofInt 5] := by decide +kernel
  refine ⟨⟨built_draft, by decide +kernel, sown_changed, filled_eq, by decide +kernel, reverted_eq⟩,
    by decide +kernel, hshown, draft.after [.initializeRemaining] (draft.leavesOf reverted),
    call_eq_ok_after (c := .initializeRemaining) (by decide +kernel), ?_⟩
  have hafter : draft.elementsOf (draft.after [.initializeRemaining] (draft.leavesOf reverted)) 3 =
      some [.ofInt 1] := by decide +kernel
  refine ⟨hafter, ?_⟩
  rintro ⟨xs, ys, extents, hxs, hys, halike, -⟩
  obtain rfl := Option.some.inj (hshown.symm.trans hxs)
  obtain rfl := Option.some.inj (hafter.symm.trans hys)
  cases halike with
  | cons heq _ => exact absurd heq (by decide +kernel)

end Graph
end ArrayFlow
