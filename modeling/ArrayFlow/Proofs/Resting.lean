import ArrayFlow.Proofs.Initialization

/-!
# Commits and reverts keep a state up to date

A commit and a revert change no element.  After either of them a slot
**rests**: it shows what it did, and nothing in it is pending (`Slot.Rests`).
A state whose slots rest on those of a state that is up to date is up to date
itself, with empty diffs (`Rests.settled`).

* `rests_of_commit` — committing all that was edited, once it is propagated;
* `rests_of_revert` — reverting all that was edited, propagated or not: the
  result rests on the state before the edits.
-/

namespace ArrayFlow
namespace Slot

variable {slot slot' base : Slot}

/-- The second slot shows the same, and nothing in it is pending. -/
inductive Rests : Slot → Slot → Prop
  | constant : Rests .constant .constant
  | contents (c : Variable.Contents) : Rests (.contents c) (.contents c.commit)
  | translated (diff : List (Update Binary64)) : Rests (.translated diff) (.translated [])
  | gathered {x x' : Gathered} (values : x'.values.values = x.values.values)
      (offsets : x'.offsets.values = x.offsets.values) (valid : x'.Valid)
      (quiet : x'.values.Clean) : Rests (.gathered x) (.gathered x')
  | watched (xs ys : List Binary64) : Rests (.watched xs) (.watched ys)

namespace Rests

theorem quiet (h : slot.Rests slot') : slot'.Quiet := by
  cases h with
  | contents c => exact Variable.Contents.clean_commit c
  | translated diff => exact rfl
  | gathered _ _ _ quiet => exact quiet
  | _ => trivial

theorem bare_eq (h : slot.Rests slot') : slot'.bare = slot.bare := by
  cases h with
  | contents c => exact bare_commit (.contents c)
  | gathered values _ _ _ => simp only [bare, values]
  | _ => rfl

theorem owns {node : Node} (h : slot.Rests slot') (ho : node.Owns slot) : node.Owns slot' := by
  cases h <;> cases ho <;> constructor

/-- A clean slot rests on itself. -/
theorem of_clean (h : slot.Clean) : slot.Rests slot := by
  cases slot with
  | constant => exact .constant
  | contents c =>
    have hc := Rests.contents c
    rwa [Variable.Contents.Clean.commit_eq h] at hc
  | translated diff =>
    obtain rfl : diff = [] := h
    exact .translated []
  | gathered x => exact .gathered rfl rfl h.2 h.1.1
  | watched xs => exact .watched xs xs

theorem commit (h : slot.Tracked) : slot.Rests slot.commit := by
  have hclean := h.clean_commit
  cases slot with
  | constant => exact .constant
  | contents c => exact .contents c
  | translated diff => exact .translated diff
  | gathered x => exact .gathered rfl rfl hclean.2 hclean.1.1
  | watched xs => exact .watched xs xs

theorem revert (hb : base.Clean) (he : base.Extends slot) : base.Rests slot.revert := by
  cases he with
  | constant => exact .constant
  | contents hc =>
    have hself := of_clean hb
    simp only [Slot.revert, hc.revert_eq hb]
    exact hself
  | translated diff diff' => exact .translated diff
  | gathered hx hvalid =>
    obtain ⟨hvalues, hoffsets, hreaders⟩ := hx.revert hb.1 (hvalid hb.2)
    refine .gathered (by rw [hvalues]) (by rw [hoffsets]) ⟨?_, ?_⟩ (by rw [hvalues]; exact hb.1.1)
    · rw [hvalues, hoffsets]
      exact hb.2.sizes
    · rw [hoffsets]
      exact hreaders
  | watched xs => exact .watched xs xs

end Rests
end Slot

/-- The rows of a variable are those of its elements. -/
theorem Variable.rowsIn_congr (v : Variable) {c c' : Variable.Contents}
    (h : c'.elements.size = c.elements.size) : v.rowsIn c' = v.rowsIn c := by
  cases v <;> simp only [Variable.rowsIn, h]

theorem Variable.rowsIn_commit (v : Variable) (c : Variable.Contents) :
    v.rowsIn c.commit = v.rowsIn c := by
  refine v.rowsIn_congr ?_
  rw [Variable.Contents.elements_commit, Journal.size_commit]

namespace Graph

variable {g : Graph} {base s t : State} {ids : List NodeId} {id : NodeId}

/-- Every slot of the second state rests on that of the first one. -/
structure Rests (g : Graph) (s t : State) : Prop where
  graph : t.graph = s.graph
  size : t.size = s.size
  slots : ∀ (i : Nat) (slot : Slot), s.slot? i = some slot →
    ∃ slot', t.slot? i = some slot' ∧ slot.Rests slot'

namespace Rests

variable (hs : g.Settled s) (h : g.Rests s t)
include hs h

theorem full : g.Full t where
  graph := h.graph.trans hs.graph
  size := h.size.trans hs.size
  slots i hi := by
    obtain ⟨slot, hslot⟩ := hs.full.slots i hi
    obtain ⟨slot', hslot', -⟩ := h.slots i slot hslot
    exact ⟨slot', hslot'⟩

theorem bare_eq (i : Nat) : (t.slot? i).map Slot.bare = (s.slot? i).map Slot.bare := by
  refine hs.full.bare_eq (h.full hs) (fun i slot hslot => ?_) i
  obtain ⟨slot', hslot', hrest⟩ := h.slots i slot hslot
  exact ⟨slot', hslot', hrest.bare_eq⟩

theorem viewAt_eq (id : NodeId) : g.viewAt t id = g.viewAt s id :=
  viewAt_congr fun i _ => h.bare_eq hs i

theorem shown_eq (id : NodeId) : g.shown t id = g.shown s id := by
  rw [shown, h.viewAt_eq hs, shown]

theorem rowsIn_eq (id : NodeId) : g.rowsIn t id = g.rowsIn s id := by
  unfold rowsIn
  split
  · next v hn =>
    obtain ⟨slot, hslot, hcur⟩ := hs.current id _ hn
    obtain ⟨slot', hslot', hrest⟩ := h.slots id slot hslot
    cases hcur with
    | leaf hv =>
      cases hrest with
      | contents c =>
        rw [hslot, hslot']
        exact v.rowsIn_commit _
  · rfl

theorem sizeBy_eq (d : Description) : g.sizeBy t d = g.sizeBy s d := by
  rw [sizeBy, h.rowsIn_eq hs]
  rfl

theorem pending_eq {d : Description} (hd : g.describe id = .ok d) : g.pending t id = [] := by
  obtain ⟨node, hn, -⟩ := describe_eq_ok.mp hd
  obtain ⟨slot, hslot, hcur⟩ := hs.current id node hn
  obtain ⟨slot', hslot', hrest⟩ := h.slots id slot hslot
  rw [pending_of_owns hd hn (hrest.owns hcur.owns) hslot', hrest.quiet.diff_eq]

/-- **A state that rests is up to date.** -/
theorem settled (hb : g.Built) : g.Settled t := by
  refine ⟨h.graph.trans hs.graph, h.size.trans hs.size, hs.gathers, fun id d hd => ?_,
    fun id v c hn hc => ?_, fun id node hn => ?_⟩
  · rw [h.sizeBy_eq hs]
    exact hs.inRoom id d hd
  · obtain ⟨slot, hslot, hcur⟩ := hs.current id _ hn
    obtain ⟨slot', hslot', hrest⟩ := h.slots id slot hslot
    rw [hc] at hslot'
    obtain rfl := Option.some.inj hslot'
    cases hcur with
    | leaf hv =>
      cases hrest with
      | contents c => exact hv.commit
  · obtain ⟨slot, hslot, hcur⟩ := hs.current id node hn
    obtain ⟨slot', hslot', hrest⟩ := h.slots id slot hslot
    refine ⟨slot', hslot', ?_⟩
    cases hcur with
    | constant c =>
      cases hrest with
      | constant => exact .constant c
    | leaf hv =>
      cases hrest with
      | contents c => exact .leaf hv.commit
    | validation w xs =>
      cases hrest with
      | watched xs ys => exact .validation w ys
    | @basic b diff _ =>
      cases hrest with
      | translated diff =>
        obtain ⟨hsource, -⟩ := hb.promises hn
        exact .basic (by rw [h.pending_eq hs hsource]; rfl)
    | @advanced a x hx =>
      cases hrest with
      | @gathered x x' values offsets valid _ =>
        have hshown : g.shown t = g.shown s := funext (h.shown_eq hs)
        have hblocks : g.blocksIn t id a = g.blocksIn s id a := by
          unfold blocksIn
          rw [h.rowsIn_eq hs, h.rowsIn_eq hs]
        refine .advanced ?_
        rw [h.sizeBy_eq hs, hblocks, hshown]
        refine ⟨valid, ?_, fun q hq => ?_⟩
        · rw [← hx.size]
          exact congrArg Array.size values
        · rw [← hx.reading q hq]
          simp only [Gathered.reading, values, offsets]

end Rests

/-- A slot that a commit has passed, if nothing is pending outside of its
set. -/
theorem commit_rests {k i : Nat} {slot : Slot} (hs : g.Sound s)
    (hstepped : g.Stepped (Takes g.commitSlot) ids s k t)
    (houtside : ∀ (i : Nat) (slot : Slot), i ∉ ids → s.slot? i = some slot → slot.Clean)
    (hi : i < k) (hslot : s.slot? i = some slot) :
    ∃ slot', t.slot? i = some slot' ∧ slot.Rests slot' ∧ slot'.Clean := by
  rcases hs.slot_stepped hstepped (fun _ => hi) hslot with
    ⟨hmem, ht⟩ | ⟨-, node, new, ho, htracked, hnew, ht⟩
  · have hclean := houtside i slot hmem hslot
    exact ⟨slot, ht, .of_clean hclean, hclean⟩
  · obtain ⟨-, -, hclean⟩ := commitSlot_spec ho hnew
    refine ⟨new, ht, ?_, hclean htracked⟩
    rcases commitSlot_eq ho hnew with rfl | ⟨xs, ys, rfl, rfl⟩
    · exact .commit htracked
    · exact .watched xs ys

/-- A slot that a revert has passed, if outside of its set the state is the
clean one that it began with. -/
theorem revert_rests {k i : Nat} {slot : Slot} (hclean : g.AllClean base)
    (hs : g.Moved base ids s) (hstepped : g.Stepped (Takes g.revertSlot) ids s k t)
    (hi : i < k) (hlt : i < g.size) (hslot : base.slot? i = some slot) :
    ∃ slot', t.slot? i = some slot' ∧ slot.Rests slot' ∧ slot'.Clean := by
  have hc := hclean i slot hlt hslot
  obtain ⟨slot', hslot', hext⟩ := hs.extends' i slot hslot
  rcases hs.sound.slot_stepped hstepped (fun _ => hi) hslot' with
    ⟨hmem, ht⟩ | ⟨-, node, new, ho, htracked, hnew, ht⟩
  · rw [hs.kept i hmem, hslot] at hslot'
    obtain rfl := Option.some.inj hslot'
    exact ⟨slot, ht, .of_clean hc, hc⟩
  · obtain ⟨-, rfl⟩ := revertSlot_eq ho hnew
    exact ⟨_, ht, .revert hc hext, htracked.clean_revert⟩

theorem rests_of_slots (hf : g.Full s)
    (h : ∀ (i : Nat) (slot : Slot), i < g.size → s.slot? i = some slot →
      ∃ slot', t.slot? i = some slot' ∧ slot.Rests slot' ∧ slot'.Clean)
    (hgraph : t.graph = s.graph) (hsize : t.size = s.size) : g.Rests s t ∧ g.AllClean t := by
  refine ⟨⟨hgraph, hsize, fun i slot hslot => ?_⟩, fun i slot' hi hslot' => ?_⟩
  · obtain ⟨slot', hslot', hrest, -⟩ := h i slot (hf.size ▸ State.slot?_lt hslot) hslot
    exact ⟨slot', hslot', hrest⟩
  · obtain ⟨slot, hslot⟩ := hf.slots i hi
    obtain ⟨slot'', hslot'', -, hclean⟩ := h i slot hi hslot
    rw [hslot'] at hslot''
    obtain rfl := Option.some.inj hslot''
    exact hclean

/-- A commit of a set outside of which nothing is pending. -/
theorem rests_of_commit (hf : g.Full s) (hs : g.Sound s) (h : g.commit ids s = .ok () t)
    (houtside : ∀ (i : Nat) (slot : Slot), i ∉ ids → s.slot? i = some slot → slot.Clean) :
    g.Rests s t ∧ g.AllClean t := by
  have hstepped := (stepAll_stepped local_commitSlot h).1
  exact rests_of_slots hf (fun i slot hi hslot => commit_rests hs hstepped houtside hi hslot)
    hstepped.graph hstepped.size

/-- A revert of a set outside of which the state is the clean one that it
began with. -/
theorem rests_of_revert (hb : g.Full base) (hclean : g.AllClean base) (hs : g.Moved base ids s)
    (h : g.revert ids s = .ok () t) : g.Rests base t ∧ g.AllClean t := by
  have hstepped := (stepAll_stepped local_revertSlot h).1
  refine rests_of_slots hb (fun i slot hi hslot => revert_rests hclean hs hstepped hi hi hslot) ?_ ?_
  · rw [hstepped.graph, hs.full.graph, hb.graph]
  · rw [hstepped.size, hs.full.size, hb.size]

end Graph
end ArrayFlow
