import ArrayFlow.Proofs.Settled

/-!
# Taking moves back

A **move** is any number of edits and propagations, accepted or refused, of
whatever nodes in whatever order.  It may leave derived arrays out of date, so
nothing can be said of what they show; but all of it lies in the journals, and
reverting the nodes that were touched brings every array back as it was seen
before the move (`revert_after_moves`).

Committing them instead changes no array (`commit_after_moves`), and a revert
after it finds nothing to take back (`revert_eq_of_clean`).  It may still reset the offsets of a
gathered array that the commit has left out: a propagation that only read an
equal value elsewhere has put nothing into its diff.
-/

namespace ArrayFlow

namespace State

theorem ext_slot? {s t : State} (hgraph : s.graph = t.graph) (hsize : s.size = t.size)
    (h : ∀ i : Nat, s.slot? i = t.slot? i) : s = t := by
  have hslots : s.slots = t.slots := by
    apply Array.ext hsize
    intro i hs ht
    have hi := h i
    unfold State.slot? at hi
    rw [Array.getElem?_eq_getElem hs, Array.getElem?_eq_getElem ht] at hi
    exact hi
  cases s
  cases t
  simp only at hgraph hslots
  rw [hgraph, hslots]

end State

namespace Graph

variable {g : Graph} {s t t' : State} {ids touched : List NodeId} {id : NodeId}

/-- Edits and propagations from the state `s`, with the nodes that they
touched.  A refused call touches none. -/
inductive Moves (g : Graph) (s : State) : List NodeId → State → Prop
  | start : Moves g s [] s
  | edit {touched : List NodeId} {t t' : State} {id : NodeId} {e : Variable.Edit}
      (h : Moves g s touched t) (he : g.edit id e t = .ok () t') : Moves g s (id :: touched) t'
  | propagate {touched ids : List NodeId} {t t' : State}
      (h : Moves g s touched t) (hp : g.propagate ids t = .ok () t') : Moves g s (ids ++ touched) t'
  | refused {touched : List NodeId} {t t' : State} {c : Call} {r : Refusal}
      (h : Moves g s touched t) (hc : g.call c t = .error (.refused r) t') : Moves g s touched t'

/-- No array has pending changes. -/
def NoDiffs (g : Graph) (s : State) : Prop :=
  ∀ (id : NodeId) (d : Description), g.describe id = .ok d → g.diff s id = .ok []

/-- No array has gained or lost elements since the last commit. -/
def NoSizeDiffs (g : Graph) (s : State) : Prop :=
  ∀ (id : NodeId) (d : Description), g.describe id = .ok d → g.sizeDiff s id = .ok 0

/-- Every array is seen in the second state as in the first one. -/
structure Looks (g : Graph) (s t : State) : Prop where
  view : ∀ id, g.view t id = g.view s id
  extentsIn : ∀ id, g.extentsIn t id = g.extentsIn s id
  sizeIn : ∀ id, g.sizeIn t id = g.sizeIn s id

/-! ### Quiet states -/

/-- No slot has anything pending that a diff shows. -/
def Quiet (g : Graph) (s : State) : Prop :=
  g.Full s ∧ g.Sound s ∧ ∀ (i : Nat) (slot : Slot), s.slot? i = some slot → slot.Quiet

/-- An empty diff leaves nothing pending but offsets. -/
theorem NoDiffs.quiet (hf : g.Full s) (hs : g.Sound s) (h : g.NoDiffs s) : g.Quiet s := by
  refine ⟨hf, hs, fun i slot hslot => ?_⟩
  obtain ⟨node, hn, ho, ht⟩ := hs.slots i slot hslot
  cases hnd : node.description? i with
  | none =>
    cases ho with
    | validation w xs => trivial
    | _ => cases hnd
  | some d =>
    have hd : g.describe i = .ok d := describe_eq_ok.mpr ⟨node, hn, hnd⟩
    have hdiff := h i d hd
    rw [diff_eq hf hd, diffAt_of_owns hd hn ho hslot] at hdiff
    exact ht.quiet (Except.ok.inj hdiff)

theorem Quiet.noDiffs (h : g.Quiet s) : g.NoDiffs s := by
  obtain ⟨hf, hs, hquiet⟩ := h
  intro id d hd
  obtain ⟨node, hn, -⟩ := describe_eq_ok.mp hd
  obtain ⟨slot, hslot⟩ := hf.slots id (lt_size hn)
  rw [diff_eq hf hd, diffAt_of_owns hd hn (hs.owns hn hslot).1 hslot, (hquiet id slot hslot).diff_eq]
  rfl

/-- Where no slot up to a node has anything pending, the array has the size it
had. -/
theorem sizeDiffAt_eq_zero (hb : g.Built) {d : Description} (hd : g.describe id = .ok d)
    (h : ∀ (j : Nat) (node : Node), j ≤ id → g.nodes[j]? = some node →
      ∃ slot, s.slot? j = some slot ∧ node.Owns slot ∧ slot.Quiet) : g.sizeDiffAt s id = .ok 0 := by
  induction id using Nat.strong_induction_on generalizing d with
  | _ id ih =>
    obtain ⟨node, hn, hnd⟩ := describe_eq_ok.mp hd
    obtain ⟨slot, hslot, ho, hq⟩ := h id node (Nat.le_refl id) hn
    cases ho with
    | constant c => exact sizeDiffAt_constant hn
    | leaf v c =>
      have hzero : c.elements.sizeDiff = 0 := by
        rw [Journal.sizeDiff, hq.elements.2, Int.sub_self]
      rw [sizeDiffAt_leaf hn, State.contents_eq hslot]
      cases v with
      | integer v => rfl
      | _ => exact congrArg Except.ok hzero
    | basic b diff =>
      have hlt := lt_of_basic hn
      obtain ⟨hsource, hfits⟩ := hb.promises hn
      rw [sizeDiffAt_basic hn, ih b.source hlt hsource fun j node hj =>
        h j node (Nat.le_of_lt (Nat.lt_of_le_of_lt hj hlt))]
      split
      · exact (Outcome.ok_bind _ _).trans (BasicIndexing.sizeDiff_zero hfits)
      · rfl
    | advanced a x =>
      rw [sizeDiffAt_advanced hn, State.gathered_eq hslot]
      show Except.ok x.values.sizeDiff = .ok 0
      rw [Journal.sizeDiff, hq.2, Int.sub_self]
    | validation w xs => cases hnd

theorem Quiet.sizeDiffAt_eq (hb : g.Built) (h : g.Quiet s) {d : Description}
    (hd : g.describe id = .ok d) : g.sizeDiffAt s id = .ok 0 := by
  obtain ⟨hf, hs, hquiet⟩ := h
  refine sizeDiffAt_eq_zero hb hd fun j node _ hn => ?_
  obtain ⟨slot, hslot⟩ := hf.slots j (lt_size hn)
  exact ⟨slot, hslot, (hs.owns hn hslot).1, hquiet j slot hslot⟩

theorem Quiet.noSizeDiffs (hb : g.Built) (h : g.Quiet s) : g.NoSizeDiffs s := by
  intro id d hd
  rw [sizeDiff_eq h.1 hd, h.sizeDiffAt_eq hb hd]
  rfl

/-- Arrays are seen alike in states with the same elements. -/
theorem Looks.of_bare (hs : g.Full s) (ht : g.Full t)
    (h : ∀ i : Nat, (t.slot? i).map Slot.bare = (s.slot? i).map Slot.bare) : g.Looks s t := by
  have hview : ∀ id, g.viewAt t id = g.viewAt s id := fun id => viewAt_congr fun i _ => h i
  have hunread : ∀ {id r}, g.describe id = .error r →
      g.view t id = g.view s id ∧ g.extentsIn t id = g.extentsIn s id ∧
        g.sizeIn t id = g.sizeIn s id := by
    intro id r hd
    unfold Graph.view Graph.extentsIn Graph.sizeIn checkReadable
    rw [hd]
    exact ⟨rfl, rfl, rfl⟩
  refine ⟨fun id => ?_, fun id => ?_, fun id => ?_⟩
  · cases hd : g.describe id with
    | error r => exact (hunread hd).1
    | ok d => rw [view_eq ht hd, view_eq hs hd, hview]
  · cases hd : g.describe id with
    | error r => exact (hunread hd).2.1
    | ok d => rw [extentsIn_eq ht hd, extentsIn_eq hs hd, extentsAt_congr (hview id)]
  · cases hd : g.describe id with
    | error r => exact (hunread hd).2.2
    | ok d => rw [sizeIn_eq ht hd, sizeIn_eq hs hd, sizeAt_congr (hview id)]

/-! ### Moves -/

theorem Full.stepped (h : g.Full s) {made : State → Node → Option Slot → Slot → Prop}
    (hs : g.Stepped made ids s g.size t) : g.Full t where
  graph := hs.graph.trans h.graph
  size := hs.size.trans h.size
  slots i hi := by
    by_cases hmem : i ∈ ids
    · obtain ⟨-, new, -, -, ht⟩ := hs.done i hmem hi
      exact ⟨new, ht⟩
    · rw [hs.slot_of_not_mem hmem]
      exact h.slots i hi

/-- What moves leave of the slots of the state they begin with. -/
structure Moved (g : Graph) (s : State) (touched : List NodeId) (t : State) : Prop where
  full : g.Full t
  sound : g.Sound t
  extends' : ∀ (i : Nat) (slot : Slot), s.slot? i = some slot →
    ∃ slot', t.slot? i = some slot' ∧ slot.Extends slot'
  kept : ∀ i : Nat, i ∉ touched → t.slot? i = s.slot? i

theorem Moves.moved (hf : g.Full s) (hs : g.Sound s) (h : g.Moves s touched t) :
    g.Moved s touched t := by
  induction h with
  | start => exact ⟨hf, hs, fun i slot hslot => ⟨slot, hslot, .refl slot⟩, fun _ _ => rfl⟩
  | @edit touched t t' id e _ he ih =>
    have hsound := ih.sound.call (show g.call (.edit id e) t = _ from he)
    obtain ⟨v, x, x', ⟨hn, -⟩, -, hslot, hedit, rfl⟩ := edit_eq_ok.mp he
    have hput := fun i => State.slot?_put t id i (.contents x') (State.slot?_lt hslot)
    refine ⟨⟨ih.full.graph, (State.size_put t id _).trans ih.full.size, fun i hi => ?_⟩, hsound,
      fun i slot hi => ?_, fun i hi => ?_⟩
    · rw [hput]
      split
      · exact ⟨_, rfl⟩
      · exact ih.full.slots i hi
    · obtain ⟨slot', hslot', hext⟩ := ih.extends' i slot hi
      rw [hput]
      split
      · next heq =>
        rw [heq, hslot] at hslot'
        obtain rfl := Option.some.inj hslot'
        exact ⟨_, rfl, hext.trans (.contents (.edit hedit))⟩
      · exact ⟨slot', hslot', hext⟩
    · rw [List.mem_cons, not_or] at hi
      rw [hput, if_neg hi.1]
      exact ih.kept i hi.2
  | @propagate touched ids t t' _ hp ih =>
    have hsound := ih.sound.call (show g.call (.propagate ids) t = _ from hp)
    have hstepped := (stepAll_stepped local_propagateSlot hp).1
    refine ⟨ih.full.stepped hstepped, hsound, fun i slot hi => ?_, fun i hi => ?_⟩
    · obtain ⟨slot', hslot', hext⟩ := ih.extends' i slot hi
      have hlt : i < g.size := ih.sound.size ▸ State.slot?_lt hslot'
      rcases ih.sound.slot_stepped hstepped (fun _ => hlt) hslot' with
        ⟨-, ht⟩ | ⟨-, node, new, ho, -, hnew, ht⟩
      · exact ⟨slot', ht, hext⟩
      · exact ⟨new, ht, hext.trans (propagateSlot_extends ho hnew).1⟩
    · rw [List.mem_append, not_or] at hi
      rw [hstepped.slot_of_not_mem hi.1]
      exact ih.kept i hi.2
  | refused _ hc ih =>
    rw [call_refused hc]
    exact ih

/-- The slots after a revert. -/
theorem revert_slot (hs : g.Sound t) (h : g.revert ids t = .ok () t') {i : Nat} {slot : Slot}
    (hslot : t.slot? i = some slot) :
    t'.slot? i = some (if i ∈ ids then slot.revert else slot) := by
  have hlt : i < g.size := hs.size ▸ State.slot?_lt hslot
  rcases hs.slot_stepped (stepAll_stepped local_revertSlot h).1 (fun _ => hlt) hslot with
    ⟨hmem, ht⟩ | ⟨hmem, node, new, ho, -, hnew, ht⟩
  · rw [if_neg hmem, ht]
  · rw [if_pos hmem, ht, (revertSlot_eq ho hnew).2]

/-- The slots after a commit. -/
theorem commit_slot (hs : g.Sound t) (h : g.commit ids t = .ok () t') {i : Nat} {slot : Slot}
    (hslot : t.slot? i = some slot) :
    ∃ new, t'.slot? i = some new ∧ new.bare = slot.bare ∧ (i ∈ ids → new.Clean) ∧
      (i ∉ ids → new = slot) := by
  have hlt : i < g.size := hs.size ▸ State.slot?_lt hslot
  rcases hs.slot_stepped (stepAll_stepped local_commitSlot h).1 (fun _ => hlt) hslot with
    ⟨hmem, ht⟩ | ⟨hmem, node, new, ho, htracked, hnew, ht⟩
  · exact ⟨slot, ht, rfl, fun hyes => absurd hyes hmem, fun _ => rfl⟩
  · obtain ⟨-, hbare, hclean⟩ := commitSlot_spec ho hnew
    exact ⟨new, ht, hbare, fun _ => hclean htracked, fun hno => absurd hmem hno⟩

/-- A slot of a full state, as an equation for the state itself. -/
theorem Full.bare_eq (hs : g.Full s) (ht : g.Full t)
    (h : ∀ (i : Nat) (slot : Slot), s.slot? i = some slot →
      ∃ slot', t.slot? i = some slot' ∧ slot'.bare = slot.bare) (i : Nat) :
    (t.slot? i).map Slot.bare = (s.slot? i).map Slot.bare := by
  cases hslot : s.slot? i with
  | some slot =>
    obtain ⟨slot', hslot', hbare⟩ := h i slot hslot
    rw [hslot']
    exact congrArg some hbare
  | none =>
    cases hslot' : t.slot? i with
    | none => rfl
    | some slot' =>
      have hlt := State.slot?_lt hslot'
      rw [ht.size] at hlt
      obtain ⟨slot, hsome⟩ := hs.slots i hlt
      rw [hslot] at hsome
      cases hsome

/-- **What was touched can be taken back.**  After any moves from a state
without pending changes, a revert of what was touched brings every array
back, and leaves nothing pending. -/
theorem revert_after_moves (hs : g.Quiet s) (hm : g.Moved s touched t) (hids : touched ⊆ ids)
    (hr : g.revert ids t = .ok () t') : g.Looks s t' ∧ g.Quiet t' := by
  obtain ⟨hf, -, hquiet⟩ := hs
  have hfull := hm.full.stepped (stepAll_stepped local_revertSlot hr).1
  have hslots : ∀ (i : Nat) (slot : Slot), s.slot? i = some slot →
      ∃ slot', t'.slot? i = some slot' ∧ slot'.bare = slot.bare ∧ slot'.Quiet := by
    intro i slot hslot
    obtain ⟨slot', hslot', hext⟩ := hm.extends' i slot hslot
    refine ⟨_, revert_slot hm.sound hr hslot', ?_⟩
    split
    · exact (hquiet i slot hslot).revert hext
    · next hmem =>
      rw [hm.kept i fun hi => hmem (hids hi), hslot] at hslot'
      obtain rfl := Option.some.inj hslot'
      exact ⟨rfl, hquiet i slot hslot⟩
  refine ⟨.of_bare hf hfull (hf.bare_eq hfull fun i slot hslot => ?_), hfull,
    hm.sound.call (show g.call (.revert ids) t = _ from hr), fun i slot' hslot' => ?_⟩
  · obtain ⟨slot', hslot', hbare, -⟩ := hslots i slot hslot
    exact ⟨slot', hslot', hbare⟩
  · have hlt := State.slot?_lt hslot'
    rw [hfull.size] at hlt
    obtain ⟨slot, hslot⟩ := hf.slots i hlt
    obtain ⟨slot'', hslot'', -, hq⟩ := hslots i slot hslot
    rw [hslot'] at hslot''
    obtain rfl := Option.some.inj hslot''
    exact hq

/-- A commit of what was touched changes no array, and leaves nothing
pending. -/
theorem commit_after_moves (hs : g.Quiet s) (hm : g.Moved s touched t) (hids : touched ⊆ ids)
    (hc : g.commit ids t = .ok () t') : g.Looks t t' ∧ g.Quiet t' := by
  obtain ⟨hf, -, hquiet⟩ := hs
  have hfull := hm.full.stepped (stepAll_stepped local_commitSlot hc).1
  refine ⟨.of_bare hm.full hfull (hm.full.bare_eq hfull fun i slot hslot => ?_), hfull,
    hm.sound.call (show g.call (.commit ids) t = _ from hc), fun i slot' hslot' => ?_⟩
  · obtain ⟨new, hnew, hbare, -⟩ := commit_slot hm.sound hc hslot
    exact ⟨new, hnew, hbare⟩
  · have hlt := State.slot?_lt hslot'
    rw [hfull.size, ← hm.full.size] at hlt
    obtain ⟨slot, hslot⟩ := hm.full.slots i (hm.full.size ▸ hlt)
    obtain ⟨new, hnew, -, hclean, hsame⟩ := commit_slot hm.sound hc hslot
    rw [hslot'] at hnew
    obtain rfl := Option.some.inj hnew
    by_cases hmem : i ∈ ids
    · exact (hclean hmem).quiet
    · rw [hsame hmem]
      rw [hm.kept i fun hi => hmem (hids hi)] at hslot
      exact hquiet i slot hslot

/-- A revert where nothing is pending, offsets included. -/
theorem revert_eq_of_clean (hs : g.Sound t) (hr : g.revert ids t = .ok () t')
    (h : ∀ (i : Nat) (slot : Slot), i ∈ ids → t.slot? i = some slot → slot.Clean) : t' = t := by
  have hstepped := (stepAll_stepped local_revertSlot hr).1
  refine State.ext_slot? hstepped.graph hstepped.size fun i => ?_
  by_cases hmem : i ∈ ids
  · cases hslot : t.slot? i with
    | some slot =>
      rw [revert_slot hs hr hslot, if_pos hmem, (h i slot hmem hslot).revert_eq]
    | none =>
      have hlt := (checkReady_eq_ok ((stepAll_stepped local_revertSlot hr).2 i hmem)).2
      obtain ⟨node, new, -, ⟨old, hold, -⟩, -⟩ := hstepped.done i hmem hlt
      rw [hslot] at hold
      cases hold
  · exact hstepped.slot_of_not_mem hmem

/-- **Moves can be taken back or made to stay.**  Let any moves lead away
from a reached state in which no array has pending changes, and let a set
contain all that they touched.  A revert of the set brings every array back
and leaves nothing pending.  A commit of the set changes no array and leaves
nothing pending, and a revert of any nodes right after it changes no array
either; it changes nothing at all, if outside of the set no gathered array
began with pending records of its offsets. -/
theorem moves_reverted_or_committed (hb : g.Built) (hr : g.Reached s) (hf : g.Full s)
    (hd : g.NoDiffs s) (hm : g.Moves s touched t) (hids : touched ⊆ ids) :
    (∀ t', g.revert ids t = .ok () t' → g.Looks s t' ∧ g.NoDiffs t' ∧ g.NoSizeDiffs t') ∧
      ∀ t', g.commit ids t = .ok () t' →
        (g.Looks t t' ∧ g.NoDiffs t' ∧ g.NoSizeDiffs t') ∧
          ∀ others t'', g.revert others t' = .ok () t'' →
            (g.Looks t' t'' ∧ g.NoDiffs t'' ∧ g.NoSizeDiffs t'') ∧
              ((∀ (i : Nat) (x : Gathered), i ∉ ids → s.slot? i = some (.gathered x) →
                x.offsets.log = []) → t'' = t') := by
  have hquiet := hd.quiet hf hr.sound
  have hmoved := hm.moved hf hr.sound
  constructor
  · intro t' hrevert
    obtain ⟨hlooks, hq⟩ := revert_after_moves hquiet hmoved hids hrevert
    exact ⟨hlooks, hq.noDiffs, hq.noSizeDiffs hb⟩
  · intro t' hcommit
    obtain ⟨hlooks, hq⟩ := commit_after_moves hquiet hmoved hids hcommit
    refine ⟨⟨hlooks, hq.noDiffs, hq.noSizeDiffs hb⟩, fun others t'' hrevert => ?_⟩
    obtain ⟨hlooks', hq'⟩ := revert_after_moves hq (Moves.start.moved hq.1 hq.2.1)
      (List.nil_subset others) hrevert
    refine ⟨⟨hlooks', hq'.noDiffs, hq'.noSizeDiffs hb⟩, fun hoffsets => ?_⟩
    refine revert_eq_of_clean hq.2.1 hrevert fun i new _ hnew => ?_
    obtain ⟨slot, hslot⟩ := hf.slots i (by
      rw [← hq.1.size]
      exact State.slot?_lt hnew)
    obtain ⟨slot', hslot', -⟩ := hmoved.extends' i slot hslot
    obtain ⟨new', hnew', -, hclean, hsame⟩ := commit_slot hmoved.sound hcommit hslot'
    rw [hnew] at hnew'
    obtain rfl := Option.some.inj hnew'
    by_cases hmem : i ∈ ids
    · exact hclean hmem
    · rw [hsame hmem]
      rw [hmoved.kept i fun hi => hmem (hids hi), hslot] at hslot'
      obtain rfl := Option.some.inj hslot'
      obtain ⟨-, -, -, ht⟩ := hr.sound.slots i slot hslot
      exact ht.clean (hquiet.2.2 i slot hslot) fun x hx => hoffsets i x hmem (hx ▸ hslot)

/-! ### A graph where a commit leaves offsets out -/

/-- States in which every node has a slot without a diff can be told by
looking. -/
theorem noDiffs_of_all (hs : g.Sound s)
    (h : (List.range g.size).all (fun i => (s.slot? i).any (·.diff.isEmpty)) = true) :
    g.Full s ∧ g.NoDiffs s := by
  have hslots : ∀ i < g.size, ∃ slot, s.slot? i = some slot ∧ slot.diff = [] := by
    intro i hi
    have hany := List.all_eq_true.mp h i (List.mem_range.mpr hi)
    obtain ⟨slot, hslot, hempty⟩ := (Option.any_eq_true _ _).mp hany
    exact ⟨slot, hslot, List.isEmpty_iff.mp hempty⟩
  have hf : g.Full s := ⟨hs.graph, hs.size, fun i hi => (hslots i hi).imp fun _ h => h.1⟩
  refine ⟨hf, fun id d hd => ?_⟩
  obtain ⟨node, hn, -⟩ := describe_eq_ok.mp hd
  obtain ⟨slot, hslot, hdiff⟩ := hslots id (lt_size hn)
  rw [diff_eq hf hd, diffAt_of_owns hd hn (hs.owns hn hslot).1 hslot, hdiff]
  rfl

/-- Two numbers, a position, and the number at that position. -/
def picking : Graph :=
  (((Graph.empty 0).extend
    fun _ => Node.leaf <$> Variable.integer <$> IntegerVariable.ofBounds [2] 0 9).extend
      fun _ => Node.leaf <$> Variable.integer <$> IntegerVariable.ofBounds [1] 0 1).extend
        fun g => g.advancedIndexing 0 [.indexer 1]

theorem built_picking : picking.Built :=
  .extend (.extend_leaf (.extend_leaf (.empty 0) _) _) fun _ hn => .advanced hn

namespace Picking

/-- All numbers are zero and the first one is picked. -/
def first : State := picking.after [.initializeRemaining] picking.emptyState.1

/-- The other position is chosen. -/
def chosen : State := picking.after [.edit 1 (.integer (.set 0 (.ofInt 1)))] first

/-- The other number is picked, which is zero as well. -/
def other : State := picking.after [.propagate [1, 2]] chosen

/-- Only the position is committed. -/
def half : State := picking.after [.commit [1]] other

theorem reached_first : picking.Reached first := reached_after .start (by decide +kernel)

theorem reached_half : picking.Reached half :=
  reached_after (reached_after (reached_after reached_first (by decide +kernel))
    (by decide +kernel)) (by decide +kernel)

end Picking

open Picking

/-- No array of the state has pending changes, and no move leads away from
it; still, after a commit of nothing a revert changes the state, and the same
edit then shows different numbers. -/
theorem revert_after_commit_resets_offsets :
    (picking.Built ∧ picking.Reached half ∧ picking.Full half ∧ picking.NoDiffs half ∧
      picking.Moves half [] half) ∧
    picking.commit [] half = .ok () half ∧
    ∃ t, picking.revert [2] half = .ok () t ∧ t ≠ half ∧
      let seven : List Call := [.edit 0 (.integer (.set 1 (.ofInt 7))), .propagate [0, 2]]
      picking.elementsOf (picking.after seven half) 2 = some [.ofInt 7] ∧
        picking.elementsOf (picking.after seven t) 2 = some [.ofInt 0] := by
  obtain ⟨hf, hd⟩ := noDiffs_of_all reached_half.sound (by decide +kernel)
  have hrevert := Outcome.eq_ok_of_succeeds (show Outcome.succeeds (picking.revert [2] half) = true
    by decide +kernel)
  refine ⟨⟨built_picking, reached_half, hf, hd, .start⟩, rfl, _, hrevert, ?_, ?_, ?_⟩
  · decide +kernel
  · decide +kernel
  · decide +kernel

/-- The other number is picked, and then the first one again or the other
one for good. -/
theorem picking_reverted_or_committed :
    (picking.Built ∧ picking.Reached first ∧ picking.Full first ∧ picking.NoDiffs first ∧
      picking.Moves first [1, 2, 1] other) ∧
      (∃ t, picking.revert [1, 2] other = .ok () t ∧ picking.Looks first t ∧ picking.NoDiffs t) ∧
      ∃ t, picking.commit [1, 2] other = .ok () t ∧ picking.Looks other t ∧
        picking.revert [2] t = .ok () t := by
  obtain ⟨hf, hd⟩ := noDiffs_of_all reached_first.sound (by decide +kernel)
  have hchosen : picking.edit 1 (.integer (.set 0 (.ofInt 1))) first = .ok () chosen :=
    call_eq_ok_after (c := .edit 1 _) (by decide +kernel)
  have hother : picking.propagate [1, 2] chosen = .ok () other :=
    call_eq_ok_after (c := .propagate [1, 2]) (by decide +kernel)
  have hm : picking.Moves first [1, 2, 1] other := .propagate (.edit .start hchosen) hother
  have hreverted : picking.revert [1, 2] other = .ok () (picking.after [.revert [1, 2]] other) :=
    call_eq_ok_after (c := .revert [1, 2]) (by decide +kernel)
  have hcommitted : picking.commit [1, 2] other = .ok () (picking.after [.commit [1, 2]] other) :=
    call_eq_ok_after (c := .commit [1, 2]) (by decide +kernel)
  have hagain := call_eq_ok_after (c := .revert [2]) (s := picking.after [.commit [1, 2]] other)
    (g := picking) (by decide +kernel)
  obtain ⟨hrevert, hcommit⟩ := moves_reverted_or_committed built_picking reached_first hf hd hm
    (show [1, 2, 1] ⊆ [1, 2] by decide)
  obtain ⟨hlooks, hnodiffs, -⟩ := hrevert _ hreverted
  obtain ⟨⟨hsame, -⟩, hrest⟩ := hcommit _ hcommitted
  refine ⟨⟨built_picking, reached_first, hf, hd, hm⟩, ⟨_, hreverted, hlooks, hnodiffs⟩,
    _, hcommitted, hsame, ?_⟩
  have heq := (hrest [2] _ hagain).2 fun i x hi hx => ?_
  · rw [heq] at hagain
    exact hagain
  · have hlt : i < 3 := by
      rw [show 3 = first.size by decide +kernel]
      exact State.slot?_lt hx
    have hzero : i = 0 := by
      simp only [List.mem_cons, List.not_mem_nil, or_false, not_or] at hi
      omega
    obtain ⟨c, hc⟩ := Outcome.exists_ok (show (first.contents 0).isOk = true by decide +kernel)
    have hslot := State.contents_eq_ok hc
    rw [← hzero, hx] at hslot
    cases hslot

end Graph
end ArrayFlow
