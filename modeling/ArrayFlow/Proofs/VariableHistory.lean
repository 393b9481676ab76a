import ArrayFlow.Proofs.Bounds
import ArrayFlow.Proofs.Initialization

/-!
# The history of one variable

Whatever is done with the graph, the contents of a variable begin and turn
as `call_leaf` says.  So a variable has a **history** of its own
(`Since.history`), in which no other node occurs.

A history goes with two contents, those at the last commit and the present
ones.  What defaults and seeds have, and edits and commits keep, holds of both
(`History.both`).
-/

namespace ArrayFlow
namespace Variable

variable {v : Variable} {base now : Contents}

/-- The second contents come from contents that the variable began with; the
first are what they were at the last commit. -/
inductive History (v : Variable) : Contents → Contents → Prop
  | begin {c : Contents} (h : v.Begins c) : History v c c
  | edit {base now next : Contents} {id : NodeId} {e : Edit} (h : History v base now)
      (he : v.edit id e now = .ok () next) : History v base next
  | commit {base now : Contents} (h : History v base now) : History v now.commit now.commit
  | revert {base now : Contents} (h : History v base now) : History v base now.revert

namespace History

theorem clean (h : v.History base now) : base.Clean := by
  induction h with
  | begin h => exact h.clean
  | edit _ _ ih => exact ih
  | @commit _ now _ _ => exact Contents.clean_commit now
  | revert _ ih => exact ih

theorem extends_base (h : v.History base now) : base.Extends now := by
  induction h with
  | begin _ => exact .refl _
  | edit _ he ih => exact ih.trans (.edit he)
  | commit _ _ => exact .refl _
  | revert h ih =>
    rw [ih.revert_eq h.clean]
    exact .refl _

theorem revert_eq (h : v.History base now) : now.revert = base := h.extends_base.revert_eq h.clean

/-- **What lasts through a history.**  A revert brings back contents that had
the property when they were committed. -/
theorem both {P : Contents → Prop} (h : v.History base now) (hbegin : ∀ c, v.Begins c → P c)
    (hedit : ∀ id e c c', v.Holds c → v.edit id e c = .ok () c' → P c → P c')
    (hcommit : ∀ c, P c → P c.commit) : P base ∧ P now := by
  have hall : (v.Holds base ∧ P base) ∧ v.Holds now ∧ P now := by
    induction h with
    | begin h => exact ⟨⟨h.holds, hbegin _ h⟩, h.holds, hbegin _ h⟩
    | edit _ he ih =>
      obtain ⟨hbase, hholds, hP⟩ := ih
      exact ⟨hbase, hholds.edit he, hedit _ _ _ _ hholds he hP⟩
    | commit _ ih =>
      obtain ⟨-, hholds, hP⟩ := ih
      exact ⟨⟨hholds.commit, hcommit _ hP⟩, hholds.commit, hcommit _ hP⟩
    | revert h ih =>
      rw [h.revert_eq]
      exact ⟨ih.1, ih.1⟩
  exact ⟨hall.1.2, hall.2.2⟩

theorem holds (h : v.History base now) : v.Holds base ∧ v.Holds now :=
  h.both (fun _ h => h.holds) (fun _ _ _ _ h he _ => h.edit he) fun _ h => h.commit

end History

end Variable

namespace Graph

variable {g : Graph} {s s' committed now : State} {id : NodeId} {v : Variable} {k : Call}

/-- Calls lead to the second state; the first one is the state in which the
node `id` was committed last, or got its slot. -/
inductive Since (g : Graph) (id : NodeId) : State → State → Prop
  | filled {s s' : State} {k : Call} (h : g.Reached s) (hnone : s.slot? id = none)
      (hc : g.call k s = .ok () s') (hsome : s'.isInitialized id = true) : Since g id s' s'
  | committed {committed now now' : State} {ids : List NodeId} (h : Since g id committed now)
      (hid : id ∈ ids) (hc : g.commit ids now = .ok () now') : Since g id now' now'
  | kept {committed now now' : State} {k : Call} (h : Since g id committed now)
      (hc : g.call k now = .ok () now') (hk : ∀ ids, k = .commit ids → id ∉ ids) :
      Since g id committed now'
  | refused {committed now now' : State} {k : Call} {r : Refusal} (h : Since g id committed now)
      (hc : g.call k now = .error (.refused r) now') : Since g id committed now'

namespace Since

theorem reached (h : g.Since id committed now) : g.Reached now := by
  induction h with
  | filled h _ hc _ => exact h.accepted hc
  | committed _ _ hc ih => exact ih.accepted (c := .commit _) hc
  | kept _ hc _ ih => exact ih.accepted hc
  | refused _ hc ih => exact ih.refused hc

theorem committed_reached (h : g.Since id committed now) : g.Reached committed := by
  induction h with
  | filled h _ hc _ => exact h.accepted hc
  | committed h _ hc _ => exact h.reached.accepted (c := .commit _) hc
  | kept _ _ _ ih => exact ih
  | refused _ _ ih => exact ih

/-- **A variable has a history**, whatever is done with the graph. -/
theorem history (h : g.Since id committed now) (hn : g.nodes[id]? = some (.leaf v)) :
    ∃ base c, committed.slot? id = some (.contents base) ∧ now.slot? id = some (.contents c) ∧
      v.History base c := by
  induction h with
  | @filled s s' k hr hnone hc hsome =>
    have hturns := call_leaf hr.sound hc hn
    obtain ⟨slot, hslot⟩ := Option.isSome_iff_exists.mp hsome
    rw [hnone, hslot] at hturns
    cases hturns with
    | begins hbegins => exact ⟨_, _, hslot, hslot, .begin hbegins⟩
  | @committed _ now now' ids h hid hc ih =>
    obtain ⟨base, c, -, hold, hhistory⟩ := ih
    have hturns := call_leaf (c := .commit ids) h.reached.sound hc hn
    rw [hold] at hturns
    generalize now'.slot? id = new at hturns ⊢
    cases hturns with
    | commit _ => exact ⟨c.commit, c.commit, rfl, rfl, hhistory.commit⟩
    | kept hk => exact absurd hid (hk ids rfl)
  | @kept _ now now' k h hc hk ih =>
    obtain ⟨base, c, hbase, hold, hhistory⟩ := ih
    have hturns := call_leaf h.reached.sound hc hn
    rw [hold] at hturns
    generalize now'.slot? id = new at hturns ⊢
    cases hturns with
    | edit he => exact ⟨base, _, hbase, rfl, hhistory.edit he⟩
    | commit hid => exact absurd hid (hk _ rfl)
    | revert _ => exact ⟨base, _, hbase, rfl, hhistory.revert⟩
    | kept _ => exact ⟨base, c, hbase, rfl, hhistory⟩
  | refused _ hc ih =>
    rw [call_refused hc]
    exact ih

end Since

/-- A node that has a slot got it, or was committed, some time ago. -/
theorem Reached.since (h : g.Reached now) (hinit : now.isInitialized id = true) :
    ∃ committed, g.Since id committed now := by
  induction h with
  | start =>
    rw [State.isInitialized, slot?_emptyState] at hinit
    cases hinit
  | @accepted s s' k h hc ih =>
    cases hslot : s.slot? id with
    | none => exact ⟨s', .filled h hslot hc hinit⟩
    | some slot =>
      obtain ⟨committed, hsince⟩ := ih (by rw [State.isInitialized, hslot]; rfl)
      by_cases hk : ∃ ids, k = .commit ids ∧ id ∈ ids
      · obtain ⟨ids, rfl, hid⟩ := hk
        exact ⟨s', hsince.committed hid hc⟩
      · exact ⟨committed, hsince.kept hc fun ids heq hid => hk ⟨ids, heq, hid⟩⟩
  | refused _ hc ih =>
    rw [call_refused hc] at hinit ⊢
    exact ih hinit

/-- An edit of a variable in a graph is an edit of its contents. -/
theorem Sound.edit_leaf_eq_ok (hs : g.Sound s) (hn : g.nodes[id]? = some (.leaf v))
    {c : Variable.Contents} (hslot : s.slot? id = some (.contents c)) {e : Variable.Edit}
    (hk : v.kind = e.kind) :
    g.edit id e s = .ok () s' ↔ ∃ c', v.edit id e c = .ok () c' ∧ s' = s.put id (.contents c') := by
  rw [edit_eq_ok]
  constructor
  · rintro ⟨w, x, c', ⟨hw, -⟩, -, hx, hedit, rfl⟩
    obtain rfl := Node.leaf.inj (Option.some.inj (hn.symm.trans hw))
    obtain rfl := Slot.contents.inj (Option.some.inj (hslot.symm.trans hx))
    exact ⟨c', hedit, rfl⟩
  · rintro ⟨c', hedit, rfl⟩
    exact ⟨v, c, c', ⟨hn, hk⟩, hs.graph, hslot, hedit, rfl⟩

/-! ### Reading a variable -/

section Reading

variable {c : Variable.Contents}

/-- The queries about a variable ask for no more than its contents. -/
theorem Sound.checkReadable_leaf (hs : g.Sound s) (hn : g.nodes[id]? = some (.leaf v))
    (hslot : s.slot? id = some (.contents c)) : g.checkReadable s id = .ok () := by
  refine checkReadable_of_isInitialized hs (describe_eq_ok.mpr ⟨_, hn, rfl⟩) ?_
  rw [State.isInitialized, hslot]
  rfl

theorem Sound.view_leaf (hs : g.Sound s) (hn : g.nodes[id]? = some (.leaf v))
    (hslot : s.slot? id = some (.contents c)) :
    g.view s id = liftM (bufferView v.shape c.elements.values) := by
  unfold view
  rw [hs.checkReadable_leaf hn hslot, viewAt_leaf hn, State.contents_eq hslot]
  rfl

theorem Sound.sizeDiff_leaf (hs : g.Sound s) (hn : g.nodes[id]? = some (.leaf v))
    (hslot : s.slot? id = some (.contents c)) : g.sizeDiff s id = .ok (v.sizeDiff c) := by
  unfold sizeDiff
  rw [hs.checkReadable_leaf hn hslot, sizeDiffAt_leaf hn, State.contents_eq hslot]
  rfl

end Reading

end Graph
end ArrayFlow
