import ArrayFlow.Graph.Read
import ArrayFlow.Proofs.Built
import ArrayFlow.Proofs.View

/-!
# Reading the arrays of a state

The view, the diff and the change in size of a node are found by walking down
a chain of basic selections.  The walk always ends, so each of the functions
obeys one equation per kind of node (`viewAt_basic`, `diffAt_leaf`, …).  What
it finds depends only on the slots along the chain (`viewAt_congr_on`), which
are slots up to the node (`viewAt_congr`).
-/

namespace ArrayFlow

namespace State

variable {s : State} {id : NodeId}

theorem slot_eq {slot : Slot} (h : s.slot? id = some slot) : s.slot id = .ok slot := by
  simp only [State.slot, h]

theorem slot_eq_ok {slot : Slot} (h : s.slot id = .ok slot) : s.slot? id = some slot := by
  unfold State.slot at h
  cases hs : s.slot? id with
  | none => rw [hs] at h; cases h
  | some slot' => rw [hs] at h; rw [Except.ok.inj h]

theorem contents_eq {c : Variable.Contents} (h : s.slot? id = some (.contents c)) :
    s.contents id = .ok c := by
  rw [State.contents, slot_eq h]
  rfl

theorem gathered_eq {c : Gathered} (h : s.slot? id = some (.gathered c)) :
    s.gathered id = .ok c := by
  rw [State.gathered, slot_eq h]
  rfl

theorem translated_eq {diff : List (Update Binary64)} (h : s.slot? id = some (.translated diff)) :
    s.translated id = .ok diff := by
  rw [State.translated, slot_eq h]
  rfl

theorem contents_eq_ok {c : Variable.Contents} (h : s.contents id = .ok c) :
    s.slot? id = some (.contents c) := by
  unfold State.contents State.slot at h
  cases hs : s.slot? id with
  | none => rw [hs] at h; cases h
  | some slot => rw [hs] at h; cases slot <;> cases h; rfl

theorem gathered_eq_ok {c : Gathered} (h : s.gathered id = .ok c) :
    s.slot? id = some (.gathered c) := by
  unfold State.gathered State.slot at h
  cases hs : s.slot? id with
  | none => rw [hs] at h; cases h
  | some slot => rw [hs] at h; cases slot <;> cases h; rfl

theorem slot?_lt {slot : Slot} (h : s.slot? id = some slot) : id < s.size := by
  unfold State.slot? at h
  cases hx : s.slots[id]? with
  | none => rw [hx] at h; cases h
  | some x => exact (Array.getElem?_eq_some_iff.mp hx).1

theorem slot?_put_self {old : Slot} (h : s.slot? id = some old) (new : Slot) :
    (s.put id new).slot? id = some new :=
  (slot?_put s id id new (slot?_lt h)).trans (if_pos rfl)

end State

/-- What a view can see of a slot: the elements, without their history. -/
def Slot.bare : Slot → Slot
  | .contents c => .contents (.values (.ofArray c.elements.values))
  | .gathered g => .gathered ⟨.ofArray g.values.values, default, []⟩
  | _ => .constant

namespace State

variable {s s' : State} {id : NodeId}

/-- The elements of a variable are in its bare slot. -/
theorem elements_contents (s : State) (id : NodeId) :
    (·.elements.values) <$> s.contents id =
      match (s.slot? id).map Slot.bare with
      | some (.contents c) => .ok c.elements.values
      | _ => .error (Fault.noSlot id) := by
  unfold State.contents State.slot
  cases s.slot? id with
  | none => rfl
  | some slot => cases slot <;> rfl

theorem values_gathered (s : State) (id : NodeId) :
    (·.values.values) <$> s.gathered id =
      match (s.slot? id).map Slot.bare with
      | some (.gathered c) => .ok c.values.values
      | _ => .error (Fault.noSlot id) := by
  unfold State.gathered State.slot
  cases s.slot? id with
  | none => rfl
  | some slot => cases slot <;> rfl

theorem contents_congr (h : (s.slot? id).map Slot.bare = (s'.slot? id).map Slot.bare) :
    (·.elements.values) <$> s.contents id = (·.elements.values) <$> s'.contents id := by
  rw [elements_contents, elements_contents, h]

theorem gathered_congr (h : (s.slot? id).map Slot.bare = (s'.slot? id).map Slot.bare) :
    (·.values.values) <$> s.gathered id = (·.values.values) <$> s'.gathered id := by
  rw [values_gathered, values_gathered, h]

end State

namespace Graph

variable {g : Graph} {s s' : State} {id : NodeId} {node : Node} {d : Description}

theorem nodeAt_eq (hn : g.nodes[id]? = some node) : g.nodeAt id = .ok node := by
  simp only [nodeAt, hn]

theorem nodeAt_eq_ok (h : g.nodeAt id = .ok node) : g.nodes[id]? = some node := by
  unfold nodeAt at h
  cases hn : g.nodes[id]? with
  | none => rw [hn] at h; cases h
  | some node' => rw [hn] at h; rw [Except.ok.inj h]

theorem descriptionAt_eq (hd : g.describe id = .ok d) : g.descriptionAt id = .ok d := by
  obtain ⟨node, hn, hnd⟩ := describe_eq_ok.mp hd
  refine Outcome.bind_eq_ok.mpr ⟨node, nodeAt_eq hn, ?_⟩
  rw [hnd]
  rfl

theorem descriptionAt_eq_ok (h : g.descriptionAt id = .ok d) : g.describe id = .ok d := by
  obtain ⟨node, hn, h⟩ := Outcome.bind_eq_ok.mp h
  split at h
  · next d' hnd =>
    obtain rfl := Except.ok.inj h
    exact describe_eq_ok.mpr ⟨node, nodeAt_eq_ok hn, hnd⟩
  · cases h

/-! ### Views -/

theorem viewWithin_none (hn : g.nodes[id]? = none) (links : Nat) :
    g.viewWithin s (links + 1) id = .error .noPosition := by
  rw [viewWithin, nodeAt, hn]
  rfl

/-- One link of the walk. -/
theorem viewWithin_succ (hn : g.nodes[id]? = some node) (links : Nat) :
    g.viewWithin s (links + 1) id = match node with
      | .constant c => View.layOut c.values c.extents
      | .leaf v => (·.elements.values) <$> s.contents id >>= bufferView v.shape
      | .basic b => g.viewWithin s links b.source >>= b.view
      | .advanced a => (·.values.values) <$> s.gathered id >>= bufferView a.shape
      | .validation _ => .error (.notAnArray id) := by
  rw [viewWithin, nodeAt_eq hn]
  cases node with
  | constant c => rfl
  | leaf v =>
    show (do bufferView (v.description id).shape (← s.contents id).elements.values) = _
    rw [Variable.description_shape id v]
    cases s.contents id <;> rfl
  | basic b => rfl
  | advanced a =>
    show (do bufferView a.shape (← s.gathered id).values.values) = _
    cases s.gathered id <;> rfl
  | validation w => rfl

/-- More links than needed do no harm. -/
theorem viewWithin_eq {links : Nat} (h : id < links) :
    g.viewWithin s links id = g.viewAt s id := by
  induction id using Nat.strong_induction_on generalizing links with
  | _ id ih =>
    cases links with
    | zero => exact absurd h (Nat.not_lt_zero _)
    | succ links =>
      unfold viewAt
      cases hn : g.nodes[id]? with
      | none => rw [viewWithin_none hn, viewWithin_none hn]
      | some node =>
        rw [viewWithin_succ hn, viewWithin_succ hn]
        cases node with
        | basic b =>
          have hlt := lt_of_basic hn
          have hlinks := @ih b.source hlt links (Nat.lt_of_lt_of_le hlt (Nat.le_of_lt_succ h))
          have hid := @ih b.source hlt id hlt
          exact congrArg (· >>= b.view) (hlinks.trans hid.symm)
        | _ => rfl

theorem viewAt_constant {c : Constant} (hn : g.nodes[id]? = some (.constant c)) :
    g.viewAt s id = View.layOut c.values c.extents := viewWithin_succ hn id

theorem viewAt_leaf {v : Variable} (hn : g.nodes[id]? = some (.leaf v)) :
    g.viewAt s id = ((·.elements.values) <$> s.contents id >>= bufferView v.shape) :=
  viewWithin_succ hn id

theorem viewAt_basic {b : BasicIndexing} (hn : g.nodes[id]? = some (.basic b)) :
    g.viewAt s id = (g.viewAt s b.source >>= b.view) := by
  rw [← viewWithin_eq (lt_of_basic hn)]
  exact viewWithin_succ hn id

theorem viewAt_advanced {a : AdvancedIndexing} (hn : g.nodes[id]? = some (.advanced a)) :
    g.viewAt s id = ((·.values.values) <$> s.gathered id >>= bufferView a.shape) :=
  viewWithin_succ hn id

theorem viewAt_validation {w : NodeId} (hn : g.nodes[id]? = some (.validation w)) :
    g.viewAt s id = .error (.notAnArray id) := viewWithin_succ hn id

theorem viewAt_none (hn : g.nodes[id]? = none) : g.viewAt s id = .error .noPosition :=
  viewWithin_none hn id

/-- Views see the elements of the slots along a chain of basic selections and
nothing else. -/
theorem viewAt_congr_on {P : NodeId → Prop}
    (hP : ∀ (i : NodeId) (b : BasicIndexing), g.nodes[i]? = some (.basic b) → P i → P b.source)
    (h : ∀ (i : NodeId) (node : Node), g.nodes[i]? = some node → P i →
      (s.slot? i).map Slot.bare = (s'.slot? i).map Slot.bare) (hid : P id) :
    g.viewAt s id = g.viewAt s' id := by
  induction id using Nat.strong_induction_on with
  | _ id ih =>
    cases hn : g.nodes[id]? with
    | none => rw [viewAt_none hn, viewAt_none hn]
    | some node =>
      have hbare := h id node hn hid
      cases node with
      | constant c => rw [viewAt_constant hn, viewAt_constant hn]
      | validation w => rw [viewAt_validation hn, viewAt_validation hn]
      | basic b => rw [viewAt_basic hn, viewAt_basic hn, ih _ (lt_of_basic hn) (hP id b hn hid)]
      | leaf v => rw [viewAt_leaf hn, viewAt_leaf hn, State.contents_congr hbare]
      | advanced a => rw [viewAt_advanced hn, viewAt_advanced hn, State.gathered_congr hbare]

theorem viewAt_congr (h : ∀ i ≤ id, (s.slot? i).map Slot.bare = (s'.slot? i).map Slot.bare) :
    g.viewAt s id = g.viewAt s' id :=
  viewAt_congr_on (P := (· ≤ id))
    (fun _ _ hn hi => Nat.le_trans (Nat.le_of_lt (lt_of_basic hn)) hi)
    (fun i _ _ hi => h i hi) (Nat.le_refl id)

/-! ### Diffs and sizes -/

theorem diffAt_constant {c : Constant} (hn : g.nodes[id]? = some (.constant c)) :
    g.diffAt s id = .ok [] := by
  rw [diffAt, nodeAt_eq hn]
  rfl

theorem diffAt_leaf {v : Variable} (hn : g.nodes[id]? = some (.leaf v)) :
    g.diffAt s id = (·.elements.diff) <$> s.contents id := by
  rw [diffAt, nodeAt_eq hn]
  rfl

theorem diffAt_basic {b : BasicIndexing} (hn : g.nodes[id]? = some (.basic b)) :
    g.diffAt s id = s.translated id := by
  rw [diffAt, nodeAt_eq hn]
  rfl

theorem diffAt_advanced {a : AdvancedIndexing} (hn : g.nodes[id]? = some (.advanced a)) :
    g.diffAt s id = (·.values.diff) <$> s.gathered id := by
  rw [diffAt, nodeAt_eq hn]
  rfl

/-- The diff of a node is in its own slot. -/
theorem diffAt_congr (h : s.slot? id = s'.slot? id) : g.diffAt s id = g.diffAt s' id := by
  unfold diffAt State.contents State.translated State.gathered State.slot
  rw [h]

theorem sizeDiffWithin_none (hn : g.nodes[id]? = none) (links : Nat) :
    g.sizeDiffWithin s (links + 1) id = .error .noPosition := by
  rw [sizeDiffWithin, nodeAt, hn]
  rfl

theorem sizeDiffWithin_succ (hn : g.nodes[id]? = some node) (links : Nat) :
    g.sizeDiffWithin s (links + 1) id = match node with
      | .constant _ => .ok 0
      | .leaf v => (v.sizeDiff ·) <$> s.contents id
      | .basic b => if b.resizes then g.sizeDiffWithin s links b.source >>= b.sizeDiff else .ok 0
      | .advanced _ => (·.values.sizeDiff) <$> s.gathered id
      | .validation _ => .error (.notAnArray id) := by
  rw [sizeDiffWithin, nodeAt_eq hn]
  cases node with
  | _ => rfl

theorem sizeDiffWithin_eq {links : Nat} (h : id < links) :
    g.sizeDiffWithin s links id = g.sizeDiffAt s id := by
  induction id using Nat.strong_induction_on generalizing links with
  | _ id ih =>
    cases links with
    | zero => exact absurd h (Nat.not_lt_zero _)
    | succ links =>
      unfold sizeDiffAt
      cases hn : g.nodes[id]? with
      | none => rw [sizeDiffWithin_none hn, sizeDiffWithin_none hn]
      | some node =>
        rw [sizeDiffWithin_succ hn, sizeDiffWithin_succ hn]
        cases node with
        | basic b =>
          have hlt := lt_of_basic hn
          have hlinks := @ih b.source hlt links (Nat.lt_of_lt_of_le hlt (Nat.le_of_lt_succ h))
          have hid := @ih b.source hlt id hlt
          exact congrArg (fun n => if b.resizes then n >>= b.sizeDiff else .ok 0)
            (hlinks.trans hid.symm)
        | _ => rfl

theorem sizeDiffAt_constant {c : Constant} (hn : g.nodes[id]? = some (.constant c)) :
    g.sizeDiffAt s id = .ok 0 := sizeDiffWithin_succ hn id

theorem sizeDiffAt_leaf {v : Variable} (hn : g.nodes[id]? = some (.leaf v)) :
    g.sizeDiffAt s id = (v.sizeDiff ·) <$> s.contents id := sizeDiffWithin_succ hn id

theorem sizeDiffAt_basic {b : BasicIndexing} (hn : g.nodes[id]? = some (.basic b)) :
    g.sizeDiffAt s id =
      if b.resizes then g.sizeDiffAt s b.source >>= b.sizeDiff else .ok 0 := by
  rw [← sizeDiffWithin_eq (lt_of_basic hn)]
  exact sizeDiffWithin_succ hn id

theorem sizeDiffAt_advanced {a : AdvancedIndexing} (hn : g.nodes[id]? = some (.advanced a)) :
    g.sizeDiffAt s id = (·.values.sizeDiff) <$> s.gathered id := sizeDiffWithin_succ hn id

theorem sizeDiffAt_validation {w : NodeId} (hn : g.nodes[id]? = some (.validation w)) :
    g.sizeDiffAt s id = .error (.notAnArray id) := sizeDiffWithin_succ hn id

theorem sizeDiffAt_none (hn : g.nodes[id]? = none) : g.sizeDiffAt s id = .error .noPosition :=
  sizeDiffWithin_none hn id

theorem sizeDiffAt_congr (h : ∀ i ≤ id, s.slot? i = s'.slot? i) :
    g.sizeDiffAt s id = g.sizeDiffAt s' id := by
  induction id using Nat.strong_induction_on with
  | _ id ih =>
    have hid := h id (Nat.le_refl _)
    cases hn : g.nodes[id]? with
    | none => rw [sizeDiffAt_none hn, sizeDiffAt_none hn]
    | some node =>
      cases node with
      | constant c => rw [sizeDiffAt_constant hn, sizeDiffAt_constant hn]
      | validation w => rw [sizeDiffAt_validation hn, sizeDiffAt_validation hn]
      | basic b =>
        have hlt := lt_of_basic hn
        rw [sizeDiffAt_basic hn, sizeDiffAt_basic hn,
          ih _ hlt fun i hi => h i (Nat.le_trans hi (Nat.le_of_lt hlt))]
      | leaf v =>
        rw [sizeDiffAt_leaf hn, sizeDiffAt_leaf hn]
        unfold State.contents State.slot
        rw [hid]
      | advanced a =>
        rw [sizeDiffAt_advanced hn, sizeDiffAt_advanced hn]
        unfold State.gathered State.slot
        rw [hid]

theorem sizeAt_eq (hd : g.describe id = .ok d) :
    g.sizeAt s id = d.shape.count >>= fun
      | some n => .ok n
      | none => g.viewAt s id >>= View.count := by
  rw [sizeAt, descriptionAt_eq hd]
  rfl

theorem sizeAt_congr (h : g.viewAt s id = g.viewAt s' id) : g.sizeAt s id = g.sizeAt s' id := by
  unfold sizeAt
  rw [h]

theorem extentsAt_congr (h : g.viewAt s id = g.viewAt s' id) :
    g.extentsAt s id = g.extentsAt s' id := by
  unfold extentsAt
  rw [sizeAt_congr h]

/-! ### Queries -/

/-- A state of the graph in which every node has a slot. -/
structure Full (g : Graph) (s : State) : Prop where
  graph : s.graph = g.identity
  size : s.size = g.size
  slots : ∀ i < g.size, ∃ slot, s.slot? i = some slot

theorem Full.checkReady (h : g.Full s) (hid : id < g.size) : g.checkReady s id = .ok () := by
  obtain ⟨slot, hslot⟩ := h.slots id hid
  have hstate : g.checkState s = .ok () := if_pos ⟨h.graph, h.size⟩
  have hknown : ¬ g.size ≤ id := Nat.not_le.mpr hid
  have hready : s.isInitialized id = true := by rw [State.isInitialized, hslot]; rfl
  unfold Graph.checkReady
  rw [hstate]
  simp only [hknown, hready, if_false]
  rfl

theorem Full.checkReadable (h : g.Full s) (hd : g.describe id = .ok d) :
    g.checkReadable s id = .ok () := by
  obtain ⟨node, hn, -⟩ := describe_eq_ok.mp hd
  unfold Graph.checkReadable
  rw [hd]
  exact h.checkReady (lt_size hn)

section Queries

variable (h : g.Full s) (hd : g.describe id = .ok d)
include h hd

theorem view_eq : g.view s id = liftM (g.viewAt s id) := by
  unfold Graph.view
  rw [h.checkReadable hd]
  rfl

theorem diff_eq : g.diff s id = liftM (g.diffAt s id) := by
  unfold Graph.diff
  rw [h.checkReadable hd]
  rfl

theorem sizeIn_eq : g.sizeIn s id = liftM (g.sizeAt s id) := by
  unfold Graph.sizeIn
  rw [h.checkReadable hd]
  rfl

theorem extentsIn_eq : g.extentsIn s id = liftM (g.extentsAt s id) := by
  unfold Graph.extentsIn
  rw [h.checkReadable hd]
  rfl

theorem sizeDiff_eq : g.sizeDiff s id = liftM (g.sizeDiffAt s id) := by
  unfold Graph.sizeDiff
  rw [h.checkReadable hd]
  rfl

end Queries

end Graph
end ArrayFlow
