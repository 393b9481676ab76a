import ArrayFlow.Graph.Run
import ArrayFlow.Proofs.Reading

/-!
# What a bulk call leaves behind

A bulk call walks over some nodes in the order of their ids and gives each of
them a new slot.  What a slot is made from lies before it (`Local`), and is
in its final form by then; so the outcome of the walk can be described without
any state on the way: every slot of the set is made from the old slot **in
the final state**, and every other slot is the old one (`Stepped`).

* `stepAll_stepped`, `stepAll_ok` — this for the three steps of a bulk call;
* `forM_initializeNode_stepped`, `forM_initializeNode_ok`,
  `forM_initializeNode_error` — and for the slots that are made by default, up
  to the node where the walk fails, if it does;
* `local_propagateSlot`, … — each step reads only what lies before its node.
-/

namespace ArrayFlow

namespace State

/-- Putting a slot where it is changes nothing. -/
theorem put_slot? {s : State} {id : NodeId} {slot : Slot} (h : s.slot? id = some slot) :
    s.put id slot = s := by
  unfold State.slot? at h
  have hx : s.slots[id]? = some (some slot) := by
    cases hx : s.slots[id]? with
    | none => rw [hx] at h; cases h
    | some x => rw [hx] at h; rw [show x = some slot from h]
  obtain ⟨hlt, hget⟩ := Array.getElem?_eq_some_iff.mp hx
  have hsame : s.slots.setIfInBounds id (some slot) = s.slots := by
    rw [Array.setIfInBounds, dif_pos hlt, ← hget]
    exact Array.set_getElem_self hlt
  rw [State.put, hsame]

end State

namespace Graph

variable {g : Graph} {made : State → Node → Option Slot → Slot → Prop}
  {step : State → Node → Slot → Except Fault Slot} {walk : NodeId → Change Unit}
  {s s' t t' : State} {ids : List NodeId} {k : Nat}

/-- What a slot is made from lies before it. -/
def Local (g : Graph) (made : State → Node → Option Slot → Slot → Prop) : Prop :=
  ∀ (i : Nat) (node : Node) (old : Option Slot) (new : Slot) (t t' : State),
    g.nodes[i]? = some node → (∀ j < i, t.slot? j = t'.slot? j) →
      made t node old new → made t' node old new

/-- A computation for one node that gives it a new slot. -/
def Renews (g : Graph) (made : State → Node → Option Slot → Slot → Prop)
    (walk : NodeId → Change Unit) : Prop :=
  ∀ (i : Nat) (t t' : State), t.size = g.size → (walk i t = .ok () t' ↔
    ∃ node new, g.nodes[i]? = some node ∧ made t node (t.slot? i) new ∧ t' = t.put i new)

/-- The slots of `ids` below `k` are new, and no others. -/
structure Stepped (g : Graph) (made : State → Node → Option Slot → Slot → Prop)
    (ids : List NodeId) (s : State) (k : Nat) (t : State) : Prop where
  graph : t.graph = s.graph
  size : t.size = s.size
  done : ∀ i : Nat, i ∈ ids → i < k → ∃ node new, g.nodes[i]? = some node ∧
    made t node (s.slot? i) new ∧ t.slot? i = some new
  rest : ∀ i : Nat, (i ∈ ids → k ≤ i) → t.slot? i = s.slot? i

namespace Stepped

theorem start (g : Graph) (made : State → Node → Option Slot → Slot → Prop)
    (ids : List NodeId) (s : State) : g.Stepped made ids s 0 s :=
  ⟨rfl, rfl, fun _ _ h => absurd h (Nat.not_lt_zero _), fun _ _ => rfl⟩

/-- Nodes that are not in the set are passed over. -/
theorem skip (h : g.Stepped made ids s k t) {n : Nat} (hkn : k ≤ n)
    (hids : ∀ i : Nat, k ≤ i → i < n → i ∉ ids) : g.Stepped made ids s n t where
  graph := h.graph
  size := h.size
  done i hi hin := h.done i hi (Nat.lt_of_not_le fun hki => hids i hki hin hi)
  rest i hi := h.rest i fun hmem => Nat.le_trans hkn (hi hmem)

/-- One more slot is new. -/
theorem next (hl : g.Local made) (h : g.Stepped made ids s k t) (hk : k ∈ ids)
    (hsize : k < s.size) {node : Node} {new : Slot} (hn : g.nodes[k]? = some node)
    (hnew : made t node (s.slot? k) new) : g.Stepped made ids s (k + 1) (t.put k new) := by
  have hput : ∀ i : Nat, (t.put k new).slot? i = if i = k then some new else t.slot? i := by
    intro i
    refine State.slot?_put t k i new ?_
    rw [h.size]
    exact hsize
  have hbelow : ∀ i : Nat, i ≤ k → ∀ j < i, t.slot? j = (t.put k new).slot? j := by
    intro i hi j hj
    rw [hput, if_neg (by omega)]
  refine ⟨h.graph, by rw [State.size_put, h.size], fun i hi hik => ?_, fun i hi => ?_⟩
  · by_cases heq : i = k
    · subst heq
      refine ⟨node, new, hn, ?_, by rw [hput, if_pos rfl]⟩
      exact hl i node _ new t _ hn (hbelow i (Nat.le_refl _)) hnew
    · obtain ⟨node', new', hn', hnew', ht⟩ := h.done i hi (by omega)
      refine ⟨node', new', hn', ?_, by rw [hput, if_neg heq]; exact ht⟩
      exact hl i node' _ new' t _ hn' (hbelow i (by omega)) hnew'
  · have hne : i ≠ k := by
      rintro rfl
      have := hi hk
      omega
    rw [hput, if_neg hne]
    exact h.rest i fun hmem => Nat.le_of_succ_le (hi hmem)

/-- A node of the set has a new slot in the end. -/
theorem slot_of_mem (h : g.Stepped made ids s g.size t) {i : Nat} {node : Node}
    (hn : g.nodes[i]? = some node) (hi : i ∈ ids) :
    ∃ new, made t node (s.slot? i) new ∧ t.slot? i = some new := by
  obtain ⟨node', new, hn', hnew, ht⟩ := h.done i hi (lt_size hn)
  rw [hn] at hn'
  obtain rfl := Option.some.inj hn'
  exact ⟨new, hnew, ht⟩

/-- Every slot is the one it was, or has been made from it. -/
theorem slot_cases (h : g.Stepped made ids s k t) (i : Nat) :
    (¬ (i ∈ ids ∧ i < k) ∧ t.slot? i = s.slot? i) ∨ (i ∈ ids ∧ i < k) ∧ ∃ node new,
      g.nodes[i]? = some node ∧ made t node (s.slot? i) new ∧ t.slot? i = some new := by
  by_cases hi : i ∈ ids ∧ i < k
  · exact .inr ⟨hi, h.done i hi.1 hi.2⟩
  · exact .inl ⟨hi, h.rest i fun hmem => Nat.le_of_not_lt fun hlt => hi ⟨hmem, hlt⟩⟩

/-- A node outside the set has the slot it had. -/
theorem slot_of_not_mem (h : g.Stepped made ids s k t) {i : Nat} (hi : i ∉ ids) :
    t.slot? i = s.slot? i :=
  h.rest i fun hmem => absurd hmem hi

end Stepped

/-- What is left of the set after a node of it. -/
private theorem mem_after {x : NodeId} {l : List NodeId}
    (hmem : ∀ i : Nat, k ≤ i → (i ∈ ids ↔ i ∈ x :: l)) (hkx : k ≤ x) (i : Nat) (hi : x + 1 ≤ i) :
    i ∈ ids ↔ i ∈ l := by
  rw [hmem i (Nat.le_trans hkx (Nat.le_of_succ_le hi)), List.mem_cons]
  constructor
  · rintro (rfl | hil)
    · exact absurd hi (Nat.not_succ_le_self _)
    · exact hil
  · exact .inr

/-- What lies before the next node of the set is passed. -/
private theorem stepped_before {x : NodeId} {l : List NodeId}
    (hmem : ∀ i : Nat, k ≤ i → (i ∈ ids ↔ i ∈ x :: l)) (hkx : k ≤ x) (hxl : ∀ i ∈ l, x < i)
    (h : g.Stepped made ids s k t) : g.Stepped made ids s x t := by
  refine h.skip hkx fun i hki hix hi => ?_
  rcases List.mem_cons.mp ((hmem i hki).mp hi) with rfl | hil
  · exact Nat.lt_irrefl _ hix
  · exact Nat.lt_asymm hix (hxl i hil)

/-- The walk over what is left of the set. -/
theorem forM_stepped (hl : g.Local made) (hw : g.Renews made walk) (hsize : ∀ i ∈ ids, i < s.size ∧ s.size = g.size)
    {l : List NodeId} (hsorted : l.Pairwise (· < ·)) (hlow : ∀ i ∈ l, k ≤ i)
    (hmem : ∀ i : Nat, k ≤ i → (i ∈ ids ↔ i ∈ l)) (h : g.Stepped made ids s k t)
    (hrun : l.forM walk t = .ok () t') :
    ∀ n : Nat, k ≤ n → (∀ i ∈ l, i < n) → g.Stepped made ids s n t' := by
  induction l generalizing k t with
  | nil =>
    intro n hkn _
    cases hrun
    exact h.skip hkn fun i hki _ hi => by simpa using (hmem i hki).mp hi
  | cons x l ih =>
    intro n hkn hn
    obtain ⟨_, u, hx, hrun⟩ := Outcome.run_bind_eq_ok.mp hrun
    obtain ⟨hxl, hsorted⟩ := List.pairwise_cons.mp hsorted
    have hkx := hlow x List.mem_cons_self
    have hpassed := stepped_before hmem hkx hxl h
    have hxids : x ∈ ids := (hmem x hkx).mpr List.mem_cons_self
    obtain ⟨hxs, hsg⟩ := hsize x hxids
    obtain ⟨node, new, hnode, hnew, rfl⟩ := (hw x t u (h.size.trans hsg)).mp hx
    rw [hpassed.rest x fun _ => Nat.le_refl _] at hnew
    have hnext := hpassed.next hl hxids hxs hnode hnew
    exact ih hsorted (fun i hi => hxl i hi) (mem_after hmem hkx) hnext hrun n
      (hn x List.mem_cons_self) fun i hi => hn i (List.mem_cons_of_mem _ hi)

/-- The walk gets to its end if no node of it fails. -/
theorem forM_ok (hl : g.Local made) (hw : g.Renews made walk) (hsize : ∀ i ∈ ids, i < s.size ∧ s.size = g.size)
    {l : List NodeId} (hsorted : l.Pairwise (· < ·)) (hlow : ∀ i ∈ l, k ≤ i)
    (hmem : ∀ i : Nat, k ≤ i → (i ∈ ids ↔ i ∈ l)) (h : g.Stepped made ids s k t)
    (hstep : ∀ (k : Nat) (t : State), k ∈ ids → g.Stepped made ids s k t →
      ∃ node new, g.nodes[k]? = some node ∧ made t node (s.slot? k) new) :
    ∃ t', l.forM walk t = .ok () t' := by
  induction l generalizing k t with
  | nil => exact ⟨t, rfl⟩
  | cons x l ih =>
    obtain ⟨hxl, hsorted⟩ := List.pairwise_cons.mp hsorted
    have hkx := hlow x List.mem_cons_self
    have hpassed := stepped_before hmem hkx hxl h
    have hxids : x ∈ ids := (hmem x hkx).mpr List.mem_cons_self
    obtain ⟨hxs, hsg⟩ := hsize x hxids
    obtain ⟨node, new, hnode, hnew⟩ := hstep x t hxids hpassed
    have hnext := hpassed.next hl hxids hxs hnode hnew
    obtain ⟨t', hrun⟩ := @ih (t.put x new) (x + 1) hsorted (fun i hi => hxl i hi)
      (mem_after hmem hkx) hnext
    refine ⟨t', Outcome.run_bind_eq_ok.mpr ⟨(), t.put x new, ?_, hrun⟩⟩
    refine (hw x t _ (h.size.trans hsg)).mpr ⟨node, new, hnode, ?_, rfl⟩
    rw [hpassed.rest x fun _ => Nat.le_refl _]
    exact hnew

/-- A walk that fails does so at one of its nodes, with everything before it in
its place. -/
theorem forM_error (hl : g.Local made) (hw : g.Renews made walk)
    (hsize : ∀ i ∈ ids, i < s.size ∧ s.size = g.size) {l : List NodeId}
    (hsorted : l.Pairwise (· < ·)) (hlow : ∀ i ∈ l, k ≤ i)
    (hmem : ∀ i : Nat, k ≤ i → (i ∈ ids ↔ i ∈ l)) (h : g.Stepped made ids s k t) {e : Failure}
    (hrun : l.forM walk t = .error e t') :
    ∃ (x : Nat) (u : State), x ∈ ids ∧ g.Stepped made ids s x u ∧ walk x u = .error e t' := by
  induction l generalizing k t with
  | nil => cases hrun
  | cons x l ih =>
    obtain ⟨hxl, hsorted⟩ := List.pairwise_cons.mp hsorted
    have hkx := hlow x List.mem_cons_self
    have hpassed := stepped_before hmem hkx hxl h
    have hxids : x ∈ ids := (hmem x hkx).mpr List.mem_cons_self
    rcases Outcome.run_bind_eq_error.mp hrun with hx | ⟨_, u, hx, hrun⟩
    · exact ⟨x, t, hxids, hpassed, hx⟩
    · obtain ⟨hxs, hsg⟩ := hsize x hxids
      obtain ⟨node, new, hnode, hnew, rfl⟩ := (hw x t u (h.size.trans hsg)).mp hx
      rw [hpassed.rest x fun _ => Nat.le_refl _] at hnew
      have hnext := hpassed.next hl hxids hxs hnode hnew
      exact ih hsorted (fun i hi => hxl i hi) (mem_after hmem hkx) hnext hrun

/-! ### Bulk steps -/

/-- A slot that a step makes from the old one. -/
def Takes (step : State → Node → Slot → Except Fault Slot) (t : State) (node : Node)
    (old : Option Slot) (new : Slot) : Prop :=
  ∃ slot, old = some slot ∧ step t node slot = .ok new

theorem renews_stepNode : g.Renews (Takes step) (g.stepNode step) := by
  intro id s s' _
  unfold stepNode
  rw [Outcome.run_bind_eq_ok]
  constructor
  · rintro ⟨_, _, hget, h⟩
    cases hget
    obtain ⟨node, _, hnode, h⟩ := Outcome.run_bind_eq_ok.mp h
    obtain ⟨hn, rfl⟩ := Outcome.run_fault_eq_ok.mp hnode
    obtain ⟨slot, _, hslot, h⟩ := Outcome.run_bind_eq_ok.mp h
    obtain ⟨hs, rfl⟩ := Outcome.run_fault_eq_ok.mp hslot
    obtain ⟨slot', _, hstep, h⟩ := Outcome.run_bind_eq_ok.mp h
    obtain ⟨hok, rfl⟩ := Outcome.run_fault_eq_ok.mp hstep
    cases h
    exact ⟨node, slot', nodeAt_eq_ok hn, ⟨slot, State.slot_eq_ok hs, hok⟩, rfl⟩
  · rintro ⟨node, slot', hn, ⟨slot, hs, hstep⟩, rfl⟩
    refine ⟨s, s, rfl, ?_⟩
    refine Outcome.run_bind_eq_ok.mpr ⟨node, s, Outcome.run_fault_eq_ok.mpr ⟨nodeAt_eq hn, rfl⟩, ?_⟩
    refine Outcome.run_bind_eq_ok.mpr ⟨slot, s,
      Outcome.run_fault_eq_ok.mpr ⟨State.slot_eq hs, rfl⟩, ?_⟩
    exact Outcome.run_bind_eq_ok.mpr ⟨slot', s, Outcome.run_fault_eq_ok.mpr ⟨hstep, rfl⟩, rfl⟩

theorem prepare_eq_ok {sorted : List NodeId} :
    g.prepare s ids = .ok sorted ↔
      sorted = Ascending.sorted ids ∧ ∀ i ∈ ids, g.checkReady s i = .ok () := by
  unfold prepare
  rw [Outcome.bind_eq_ok]
  constructor
  · rintro ⟨_, hall, h⟩
    refine ⟨(Except.ok.inj h).symm, fun i hi => ?_⟩
    exact Outcome.forM_eq_ok.mp hall i (Ascending.mem_sorted.mpr hi)
  · rintro ⟨rfl, hall⟩
    exact ⟨(), Outcome.forM_eq_ok.mpr fun i hi => hall i (Ascending.mem_sorted.mp hi), rfl⟩

theorem checkState_eq_ok :
    g.checkState s = .ok () ↔ s.graph = g.identity ∧ s.size = g.size := by
  unfold Graph.checkState
  split
  · next hs => exact ⟨fun _ => hs, fun _ => rfl⟩
  · next hs => exact ⟨fun h => (nomatch h), fun h => absurd h hs⟩

theorem checkReady_eq_ok {i : NodeId} (h : g.checkReady s i = .ok ()) :
    (s.graph = g.identity ∧ s.size = g.size) ∧ i < g.size := by
  unfold Graph.checkReady at h
  obtain ⟨_, hstate, h⟩ := Outcome.bind_eq_ok.mp h
  obtain ⟨hknown, -⟩ := Outcome.guard_eq_ok.mp h
  exact ⟨checkState_eq_ok.mp hstate, Nat.lt_of_not_le hknown⟩

theorem lt_of_checkReady (hready : ∀ i ∈ ids, g.checkReady s i = .ok ()) (i : NodeId)
    (hi : i ∈ ids) : i < s.size ∧ s.size = g.size := by
  obtain ⟨⟨-, hsize⟩, hlt⟩ := checkReady_eq_ok (hready i hi)
  exact ⟨hsize ▸ hlt, hsize⟩

/-- **The outcome of a bulk call.** -/
theorem stepAll_stepped (hl : g.Local (Takes step)) (h : g.stepAll step ids s = .ok () s') :
    g.Stepped (Takes step) ids s g.size s' ∧ ∀ i ∈ ids, g.checkReady s i = .ok () := by
  unfold stepAll at h
  obtain ⟨_, _, hget, h⟩ := Outcome.run_bind_eq_ok.mp h
  cases hget
  obtain ⟨sorted, _, hprepare, h⟩ := Outcome.run_bind_eq_ok.mp h
  obtain ⟨hsorted, rfl⟩ := Outcome.run_refusal_eq_ok.mp hprepare
  obtain ⟨rfl, hready⟩ := prepare_eq_ok.mp hsorted
  refine ⟨?_, hready⟩
  refine forM_stepped hl renews_stepNode (lt_of_checkReady hready) (Ascending.pairwise_sorted ids)
    (fun _ _ => Nat.zero_le _) (fun _ _ => Ascending.mem_sorted.symm) (.start g _ ids s) h g.size
    (Nat.zero_le _) ?_
  intro i hi
  exact (checkReady_eq_ok (hready i (Ascending.mem_sorted.mp hi))).2

/-- **A bulk call succeeds** if all of its nodes are ready and no step
fails. -/
theorem stepAll_ok (hl : g.Local (Takes step)) (hready : ∀ i ∈ ids, g.checkReady s i = .ok ())
    (hstep : ∀ (k : Nat) (t : State), k ∈ ids → g.Stepped (Takes step) ids s k t →
      ∃ node new, g.nodes[k]? = some node ∧ Takes step t node (s.slot? k) new) :
    ∃ s', g.stepAll step ids s = .ok () s' := by
  obtain ⟨s', hrun⟩ := forM_ok hl renews_stepNode (lt_of_checkReady hready)
    (Ascending.pairwise_sorted ids) (fun _ _ => Nat.zero_le _)
    (fun _ _ => Ascending.mem_sorted.symm) (.start g _ ids s) hstep
  refine ⟨s', ?_⟩
  unfold stepAll
  refine Outcome.run_bind_eq_ok.mpr ⟨s, s, rfl, ?_⟩
  exact Outcome.run_bind_eq_ok.mpr ⟨_, s,
    Outcome.run_refusal_eq_ok.mpr ⟨prepare_eq_ok.mpr ⟨rfl, hready⟩, rfl⟩, hrun⟩

/-! ### Slots made by default -/

/-- A slot that is kept, or the default one where there is none. -/
def Fills (g : Graph) (t : State) (node : Node) (old : Option Slot) (new : Slot) : Prop :=
  old = some new ∨ old = none ∧ g.defaultSlot t node = .ok new

theorem renews_initializeNode : g.Renews g.Fills g.initializeNode := by
  intro i s s' hsize
  unfold initializeNode
  rw [Outcome.run_bind_eq_ok]
  cases hslot : s.slot? i with
  | some slot =>
    have hready : s.isInitialized i = true := by rw [State.isInitialized, hslot]; rfl
    constructor
    · rintro ⟨_, _, hget, h⟩
      cases hget
      rw [hready] at h
      cases h
      have hlt : i < g.nodes.size := Nat.lt_of_lt_of_eq (State.slot?_lt hslot) hsize
      exact ⟨g.nodes[i], slot, Array.getElem?_eq_getElem hlt, .inl rfl, (State.put_slot? hslot).symm⟩
    · rintro ⟨node, new, -, hnew | ⟨hnone, -⟩, rfl⟩
      · obtain rfl := Option.some.inj hnew
        refine ⟨s, s, rfl, ?_⟩
        rw [hready, State.put_slot? hslot]
        rfl
      · cases hnone
  | none =>
    have hready : s.isInitialized i = false := by rw [State.isInitialized, hslot]; rfl
    constructor
    · rintro ⟨_, _, hget, h⟩
      cases hget
      rw [hready] at h
      obtain ⟨node, _, hnode, h⟩ := Outcome.run_bind_eq_ok.mp h
      obtain ⟨hn, rfl⟩ := Outcome.run_fault_eq_ok.mp hnode
      obtain ⟨new, _, hnew, h⟩ := Outcome.run_bind_eq_ok.mp h
      obtain ⟨hok, rfl⟩ := Outcome.run_fault_eq_ok.mp hnew
      cases h
      exact ⟨node, new, nodeAt_eq_ok hn, .inr ⟨rfl, hok⟩, rfl⟩
    · rintro ⟨node, new, hn, hnew | ⟨-, hok⟩, rfl⟩
      · cases hnew
      · refine ⟨s, s, rfl, ?_⟩
        rw [hready]
        refine Outcome.run_bind_eq_ok.mpr ⟨node, s,
          Outcome.run_fault_eq_ok.mpr ⟨nodeAt_eq hn, rfl⟩, ?_⟩
        exact Outcome.run_bind_eq_ok.mpr ⟨new, s, Outcome.run_fault_eq_ok.mpr ⟨hok, rfl⟩, rfl⟩

/-- All nodes, made by default where they have no slot. -/
theorem forM_initializeNode_stepped (hl : g.Local g.Fills) (hsize : s.size = g.size)
    (h : (List.range g.size).forM g.initializeNode s = .ok () s') :
    g.Stepped g.Fills (List.range g.size) s g.size s' := by
  refine forM_stepped hl renews_initializeNode (fun i hi => ?_) List.pairwise_lt_range
    (fun _ _ => Nat.zero_le _) (fun _ _ => Iff.rfl) (.start g _ _ s) h g.size (Nat.zero_le _)
    fun i hi => List.mem_range.mp hi
  exact ⟨hsize ▸ List.mem_range.mp hi, hsize⟩

theorem forM_initializeNode_ok (hl : g.Local g.Fills) (hsize : s.size = g.size)
    (hstep : ∀ (k : Nat) (t : State), k < g.size →
      g.Stepped g.Fills (List.range g.size) s k t →
        ∃ node new, g.nodes[k]? = some node ∧ g.Fills t node (s.slot? k) new) :
    ∃ s', (List.range g.size).forM g.initializeNode s = .ok () s' := by
  refine forM_ok hl renews_initializeNode (fun i hi => ?_) List.pairwise_lt_range
    (fun _ _ => Nat.zero_le _) (fun _ _ => Iff.rfl) (.start g _ _ s)
    fun k t hk => hstep k t (List.mem_range.mp hk)
  exact ⟨hsize ▸ List.mem_range.mp hi, hsize⟩

theorem forM_initializeNode_error (hl : g.Local g.Fills) (hsize : s.size = g.size) {e : Failure}
    (h : (List.range g.size).forM g.initializeNode s = .error e s') :
    ∃ (k : Nat) (t : State), k < g.size ∧ g.Stepped g.Fills (List.range g.size) s k t ∧
      g.initializeNode k t = .error e s' := by
  obtain ⟨k, t, hk, hstepped, hstop⟩ := forM_error hl renews_initializeNode (fun i hi =>
    ⟨hsize ▸ List.mem_range.mp hi, hsize⟩) List.pairwise_lt_range (fun _ _ => Nat.zero_le _)
    (fun _ _ => Iff.rfl) (.start g _ _ s) h
  exact ⟨k, t, List.mem_range.mp hk, hstepped, hstop⟩

/-- A node that gets no slot is one that has none by default. -/
theorem initializeNode_eq_error {i : Nat} {node : Node} (hn : g.nodes[i]? = some node) {e : Failure}
    (h : g.initializeNode i s = .error e s') :
    s.slot? i = none ∧ ∃ f, g.defaultSlot s node = .error f ∧ e = .fault f := by
  unfold initializeNode at h
  rw [Outcome.run_bind_of_ok (show (get : Change State) s = .ok s s from rfl)] at h
  cases hslot : s.slot? i with
  | some slot =>
    have hready : s.isInitialized i = true := by rw [State.isInitialized, hslot]; rfl
    rw [hready] at h
    cases h
  | none =>
    have hready : s.isInitialized i = false := by rw [State.isInitialized, hslot]; rfl
    rw [hready] at h
    have hnode : (liftM (g.nodeAt i) : Change Node) s = .ok node s :=
      Outcome.run_fault_eq_ok.mpr ⟨nodeAt_eq hn, rfl⟩
    replace h := (Outcome.run_bind_of_ok hnode).symm.trans h
    rcases Outcome.run_bind_eq_error.mp h with hnew | ⟨new, t, -, hput⟩
    · obtain ⟨f, hf, he, -⟩ := Outcome.run_fault_eq_error.mp hnew
      exact ⟨rfl, f, hf, he⟩
    · cases hput

theorem initializeRemaining_eq_ok : g.initializeRemaining s = .ok () s' ↔
    (s.graph = g.identity ∧ s.size = g.size) ∧
      (List.range g.size).forM g.initializeNode s = .ok () s' := by
  unfold initializeRemaining
  rw [Outcome.run_bind_eq_ok]
  constructor
  · rintro ⟨_, _, hget, h⟩
    cases hget
    obtain ⟨_, _, hstate, h⟩ := Outcome.run_bind_eq_ok.mp h
    obtain ⟨hok, rfl⟩ := Outcome.run_refusal_eq_ok.mp hstate
    exact ⟨checkState_eq_ok.mp hok, h⟩
  · rintro ⟨hown, h⟩
    refine ⟨s, s, rfl, Outcome.run_bind_eq_ok.mpr ⟨(), s, ?_, h⟩⟩
    exact Outcome.run_refusal_eq_ok.mpr ⟨checkState_eq_ok.mpr hown, rfl⟩

/-! ### What the steps read -/

section Reads

variable {id : NodeId} {a : AdvancedIndexing}

theorem blocksOf_congr (hsource : g.sizeAt t a.source = g.sizeAt t' a.source)
    (hindexers : ∀ ix ∈ a.indexers, g.sizeAt t ix.node = g.sizeAt t' ix.node) :
    g.blocksOf t a = g.blocksOf t' a := by
  have hrows : g.sourceRows t a = g.sourceRows t' a := by
    unfold sourceRows
    rw [hsource]
  have hvalues : g.indexValues t a = g.indexValues t' a := by
    unfold indexValues
    refine congrArg _ (funext fun counted => ?_)
    cases hfind : a.indexers.find? (!·.scalar) with
    | none => cases counted <;> rfl
    | some ix =>
      cases counted with
      | some n => rfl
      | none => exact hindexers ix (List.mem_of_find?_eq_some hfind)
  unfold blocksOf
  rw [hrows, hvalues]

theorem indexerViews_congr (h : ∀ ix ∈ a.indexers, g.viewAt t ix.node = g.viewAt t' ix.node) :
    g.indexerViews t a = g.indexerViews t' a := by
  unfold indexerViews
  exact Outcome.mapM_congr h

variable (h : ∀ j < id, t.slot? j = t'.slot? j) {p : Nat} (hp : p < id)
include h hp

theorem viewAt_below : g.viewAt t p = g.viewAt t' p := by
  refine viewAt_congr fun i hi => ?_
  rw [h i (Nat.lt_of_le_of_lt hi hp)]

theorem diffAt_below : g.diffAt t p = g.diffAt t' p :=
  diffAt_congr (h p hp)

theorem sizeDiffAt_below : g.sizeDiffAt t p = g.sizeDiffAt t' p :=
  sizeDiffAt_congr fun i hi => h i (Nat.lt_of_le_of_lt hi hp)

theorem sizeAt_below : g.sizeAt t p = g.sizeAt t' p :=
  sizeAt_congr (viewAt_below h hp)

theorem extentsAt_below : g.extentsAt t p = g.extentsAt t' p :=
  extentsAt_congr (viewAt_below h hp)

end Reads

/-- The steps of an advanced selection read its source and its index arrays. -/
theorem blocksOf_below {id : NodeId} {a : AdvancedIndexing}
    (hn : g.nodes[id]? = some (.advanced a)) (h : ∀ j < id, t.slot? j = t'.slot? j) :
    g.blocksOf t a = g.blocksOf t' a ∧ g.indexerViews t a = g.indexerViews t' a := by
  obtain ⟨hsource, hindexers⟩ := lt_of_advanced hn
  exact ⟨blocksOf_congr (sizeAt_below h hsource) fun ix hix => sizeAt_below h (hindexers ix hix),
    indexerViews_congr fun ix hix => viewAt_below h (hindexers ix hix)⟩

theorem lt_of_validation {id w : NodeId} (hn : g.nodes[id]? = some (.validation w)) : w < id :=
  g.ordered id _ hn w (by simp [Node.predecessors])

theorem propagateSlot_below {id : NodeId} {node : Node} (hn : g.nodes[id]? = some node)
    (h : ∀ j < id, t.slot? j = t'.slot? j) (slot : Slot) :
    g.propagateSlot t node slot = g.propagateSlot t' node slot := by
  cases node with
  | constant c => rfl
  | leaf v => rfl
  | basic b =>
    cases slot with
    | translated diff => simp only [propagateSlot, diffAt_below h (lt_of_basic hn)]
    | _ => rfl
  | advanced a =>
    obtain ⟨hsource, hindexers⟩ := lt_of_advanced hn
    obtain ⟨hblocks, hviews⟩ := blocksOf_below hn h
    have hdiffs : a.indexers.mapM (g.diffAt t ·.node) = a.indexers.mapM (g.diffAt t' ·.node) :=
      Outcome.mapM_congr fun ix hix => diffAt_below h (hindexers ix hix)
    cases slot with
    | gathered c =>
      simp only [propagateSlot, hblocks, hviews, hdiffs, diffAt_below h hsource,
        viewAt_below h hsource]
    | _ => rfl
  | validation w =>
    have hw := lt_of_validation hn
    cases slot with
    | watched committed =>
      simp only [propagateSlot, checkPropagated, viewAt_below h hw, sizeAt_below h hw,
        extentsAt_below h hw, sizeDiffAt_below h hw, diffAt_below h hw]
    | _ => rfl

theorem commitSlot_below {id : NodeId} {node : Node} (hn : g.nodes[id]? = some node)
    (h : ∀ j < id, t.slot? j = t'.slot? j) (slot : Slot) :
    g.commitSlot t node slot = g.commitSlot t' node slot := by
  cases node with
  | validation w =>
    cases slot with
    | watched committed => simp only [commitSlot, viewAt_below h (lt_of_validation hn)]
    | _ => rfl
  | _ => cases slot <;> rfl

theorem revertSlot_below {id : NodeId} {node : Node} (hn : g.nodes[id]? = some node)
    (h : ∀ j < id, t.slot? j = t'.slot? j) (slot : Slot) :
    g.revertSlot t node slot = g.revertSlot t' node slot := by
  cases node with
  | validation w =>
    have hw := lt_of_validation hn
    cases slot with
    | watched committed =>
      simp only [revertSlot, checkReverted, viewAt_below h hw, diffAt_below h hw]
    | _ => rfl
  | _ => cases slot <;> rfl

theorem defaultSlot_below {id : NodeId} {node : Node} (hn : g.nodes[id]? = some node)
    (h : ∀ j < id, t.slot? j = t'.slot? j) :
    g.defaultSlot t node = g.defaultSlot t' node := by
  cases node with
  | advanced a =>
    obtain ⟨hblocks, hviews⟩ := blocksOf_below hn h
    simp only [defaultSlot, hblocks, hviews, viewAt_below h (lt_of_advanced hn).1]
  | validation w =>
    have hw := lt_of_validation hn
    simp only [defaultSlot, watchFrom, viewAt_below h hw, sizeDiffAt_below h hw]
  | _ => rfl

theorem local_propagateSlot : g.Local (Takes g.propagateSlot) := by
  rintro i node old new t t' hn h ⟨slot, hold, hnew⟩
  exact ⟨slot, hold, (propagateSlot_below hn h slot).symm.trans hnew⟩

theorem local_commitSlot : g.Local (Takes g.commitSlot) := by
  rintro i node old new t t' hn h ⟨slot, hold, hnew⟩
  exact ⟨slot, hold, (commitSlot_below hn h slot).symm.trans hnew⟩

theorem local_revertSlot : g.Local (Takes g.revertSlot) := by
  rintro i node old new t t' hn h ⟨slot, hold, hnew⟩
  exact ⟨slot, hold, (revertSlot_below hn h slot).symm.trans hnew⟩

theorem local_fills : g.Local g.Fills := by
  rintro i node old new t t' hn h (hold | ⟨hold, hnew⟩)
  · exact .inl hold
  · exact .inr ⟨hold, (defaultSlot_below hn h).symm.trans hnew⟩

end Graph
end ArrayFlow
