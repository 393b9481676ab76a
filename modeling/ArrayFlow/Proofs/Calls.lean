import ArrayFlow.Graph.Edit
import ArrayFlow.Proofs.Slots

/-!
# Calls

All that can be done with the state of a graph is a sequence of **calls**.  A
call may be refused, and then nothing has happened (`call_refused`).  The
calls that are accepted keep the slots `Sound`: each is of the kind of its
node, and it has a committed state to go back to.

No order of calls is asked for here.  Nodes can be brought up to date while
the nodes they read are not, and pending changes can be committed in part.

Of all that, a variable notices little: it gets contents once, by a seed or by
default, and after that they are replaced by its own edits and by the commits
and reverts of sets to which it belongs (`call_leaf`).
-/

namespace ArrayFlow

/-- A call that changes a state. -/
inductive Call where
  | seed (h : Handle) (values : List Binary64)
  | edit (id : NodeId) (e : Variable.Edit)
  | initializeRemaining
  | propagate (ids : List NodeId)
  | commit (ids : List NodeId)
  | revert (ids : List NodeId)

/-- What a call does. -/
def Graph.call (g : Graph) : Call → Change Unit
  | .seed h values => g.seed h values
  | .edit id e => g.edit id e
  | .initializeRemaining => g.initializeRemaining
  | .propagate ids => g.propagate ids
  | .commit ids => g.commit ids
  | .revert ids => g.revert ids

/-- What a sequence of calls does, up to the first that is not accepted. -/
def Graph.calls (g : Graph) (cs : List Call) : Change Unit := cs.forM g.call

/-! ### Refusals -/

namespace Change

variable {α β : Type} {x : Change α} {f : α → Change β}

/-- The computation does not change the state. -/
def Reads (x : Change α) : Prop := ∀ s, (∃ a, x s = .ok a s) ∨ ∃ e, x s = .error e s

/-- A refusal leaves the state as it was. -/
def Stays (x : Change α) : Prop := ∀ s s' r, x s = .error (.refused r) s' → s' = s

/-- The computation is never refused. -/
def Accepts (x : Change α) : Prop := ∀ s s' r, x s ≠ .error (.refused r) s'

theorem Accepts.stays (h : Accepts x) : Stays x :=
  fun s s' r hr => absurd hr (h s s' r)

theorem reads_get : Reads (get : Change State) := fun s => .inl ⟨s, rfl⟩

theorem accepts_get : Accepts (get : Change State) := by
  intro s s' r h
  cases h

theorem accepts_pure (a : α) : Accepts (pure a : Change α) := by
  intro s s' r h
  cases h

theorem accepts_set (s : State) : Accepts (set s : Change PUnit) := by
  intro t s' r h
  cases h

theorem reads_refusal (e : Except Refusal α) : Reads (liftM e : Change α) := by
  intro s
  cases e with
  | ok a => exact .inl ⟨a, rfl⟩
  | error r => exact .inr ⟨.refused r, rfl⟩

theorem accepts_fault (e : Except Fault α) : Accepts (liftM e : Change α) := by
  intro s s' r
  cases e with
  | ok a => intro h; cases h
  | error f => intro h; cases h

theorem Stays.bind (hx : Reads x) (hf : ∀ a, Stays (f a)) : Stays (x >>= f) := by
  intro s s' r hr
  change EStateM.bind x f s = _ at hr
  unfold EStateM.bind at hr
  obtain ⟨a, ha⟩ | ⟨e, he⟩ := hx s
  · rw [ha] at hr
    exact hf a s s' r hr
  · rw [he] at hr
    cases hr
    rfl

theorem Accepts.bind (hx : Accepts x) (hf : ∀ a, Accepts (f a)) : Accepts (x >>= f) := by
  intro s s' r hr
  change EStateM.bind x f s = _ at hr
  unfold EStateM.bind at hr
  split at hr
  · next a t ha => exact hf a t s' r hr
  · next e t he =>
    cases hr
    exact hx s s' r he

theorem accepts_forM {ids : List NodeId} {walk : NodeId → Change Unit}
    (h : ∀ id, Accepts (walk id)) : Accepts (ids.forM walk) := by
  induction ids with
  | nil => exact accepts_pure ()
  | cons id ids ih => exact .bind (h id) fun _ => ih

end Change

namespace Graph

open Change

variable {g : Graph} {s s' t : State} {id : NodeId} {c : Call}

theorem accepts_stepNode (step : State → Node → Slot → Except Fault Slot) (id : NodeId) :
    Accepts (g.stepNode step id) :=
  .bind accepts_get fun _ => .bind (accepts_fault _) fun _ => .bind (accepts_fault _) fun _ =>
    .bind (accepts_fault _) fun _ => accepts_set _

theorem stays_stepAll (step : State → Node → Slot → Except Fault Slot) (ids : List NodeId) :
    Stays (g.stepAll step ids) :=
  .bind reads_get fun _ => .bind (reads_refusal _) fun _ =>
    (accepts_forM (accepts_stepNode step)).stays

theorem accepts_initializeNode (id : NodeId) : Accepts (g.initializeNode id) := by
  refine .bind accepts_get fun s => ?_
  split
  · exact .bind (accepts_fault _) fun _ => .bind (accepts_fault _) fun _ => accepts_set _
  · exact accepts_pure ()

/-! ### Accepted edits and seeds -/

theorem variableOf_eq_ok {h : Handle} {v : Variable} :
    g.variableOf h = .ok v ↔ g.nodes[h.id]? = some (.leaf v) ∧ v.kind = h.kind := by
  unfold variableOf resolve?
  cases hn : g.nodes[h.id]? with
  | none =>
    constructor
    · intro hv
      cases hv
    · intro hv
      cases hv.1
  | some node =>
    dsimp only
    by_cases hk : node.kind = h.kind
    · rw [if_pos hk]
      cases node with
      | leaf w =>
        constructor
        · intro hv
          obtain rfl := Except.ok.inj hv
          exact ⟨rfl, hk⟩
        · intro hv
          obtain rfl := Node.leaf.inj (Option.some.inj hv.1)
          rfl
      | _ =>
        constructor
        · intro hv
          cases hv
        · intro hv
          cases hv.1
    · rw [if_neg hk]
      constructor
      · intro hv
        cases hv
      · intro hv
        obtain rfl := Option.some.inj hv.1
        exact absurd hv.2 hk

theorem checkOwn_eq_ok : g.checkOwn s = .ok () ↔ s.graph = g.identity := Outcome.check_eq_ok

/-- A seed is put in its slot, or nothing happens. -/
theorem seed_outcome (h : Handle) (values : List Binary64) (s : State) :
    (∃ v c, (g.nodes[h.id]? = some (.leaf v) ∧ v.kind = h.kind) ∧ s.graph = g.identity ∧
      s.slot? h.id = none ∧ v.Seeds values c ∧
        g.seed h values s = .ok () (s.put h.id (.contents c))) ∨
      ∃ f, g.seed h values s = .error f s := by
  unfold seed
  cases hvar : g.variableOf h with
  | error f => exact .inr ⟨.fault f, rfl⟩
  | ok v =>
    simp only [Outcome.lift_fault_ok, pure_bind, Outcome.run_get_bind]
    cases hown : g.checkOwn s with
    | error r => exact .inr ⟨.refused r, rfl⟩
    | ok _ =>
      simp only [Outcome.lift_refusal_ok, pure_bind]
      cases hslot : s.isInitialized h.id with
      | true => exact .inr ⟨_, rfl⟩
      | false =>
        obtain ⟨c, hseeds, hrun⟩ | ⟨f, hrun⟩ := v.seed_outcome values
          (fun c => modify (·.put h.id (.contents c))) s
        · exact .inl ⟨v, c, variableOf_eq_ok.mp hvar, checkOwn_eq_ok.mp hown,
            Option.isSome_eq_false_iff.mp hslot |> Option.isNone_iff_eq_none.mp, hseeds, hrun⟩
        · exact .inr ⟨f, hrun⟩

theorem seed_eq_ok {h : Handle} {values : List Binary64} (hr : g.seed h values s = .ok () s') :
    ∃ v x, g.nodes[h.id]? = some (.leaf v) ∧ s.slot? h.id = none ∧ v.Seeds values x ∧
      s' = s.put h.id (.contents x) := by
  obtain ⟨v, c, ⟨hn, -⟩, -, hnone, hseeds, hrun⟩ | ⟨f, hrun⟩ := g.seed_outcome h values s
  · rw [hrun] at hr
    cases hr
    exact ⟨v, c, hn, hnone, hseeds, rfl⟩
  · rw [hrun] at hr
    cases hr

/-- An edit is made in the slot of its variable.  What it does there when it
fails is what the variable does. -/
theorem edit_eq (id : NodeId) (e : Variable.Edit) (s : State) :
    (∃ v c, (g.nodes[id]? = some (.leaf v) ∧ v.kind = e.kind) ∧ s.graph = g.identity ∧
      s.slot? id = some (.contents c) ∧
        g.edit id e s = putBack (s.put id <| .contents ·) (v.edit id e c)) ∨
      ((∀ v c, g.nodes[id]? = some (.leaf v) → v.kind = e.kind → s.graph = g.identity →
        s.slot? id ≠ some (.contents c)) ∧ ∃ f, g.edit id e s = .error f s) := by
  unfold edit
  cases hvar : g.variableOf ⟨id, e.kind⟩ with
  | error f =>
    refine .inr ⟨fun v c hn hkind _ _ => ?_, .fault f, rfl⟩
    rw [variableOf_eq_ok.mpr ⟨hn, hkind⟩] at hvar
    cases hvar
  | ok v =>
    simp only [Outcome.lift_fault_ok, pure_bind, Outcome.run_get_bind]
    cases hown : g.checkOwn s with
    | error r =>
      refine .inr ⟨fun v c _ _ hgraph _ => ?_, .refused r, rfl⟩
      rw [checkOwn_eq_ok.mpr hgraph] at hown
      cases hown
    | ok _ =>
      simp only [Outcome.lift_refusal_ok, pure_bind]
      cases hslot : s.isInitialized id with
      | false =>
        refine .inr ⟨fun v c _ _ _ hc => ?_, _, rfl⟩
        rw [State.isInitialized, hc] at hslot
        cases hslot
      | true =>
        cases hcontents : s.contents id with
        | error f =>
          refine .inr ⟨fun v c _ _ _ hc => ?_, .fault f, ?_⟩
          · rw [State.contents_eq hc] at hcontents
            cases hcontents
          · show onContents id (v.edit id e) s = _
            rw [onContents, hcontents]
        | ok c =>
          refine .inl ⟨v, c, variableOf_eq_ok.mp hvar, checkOwn_eq_ok.mp hown,
            State.contents_eq_ok hcontents, ?_⟩
          show onContents id (v.edit id e) s = _
          rw [onContents, hcontents]

/-- An edit is carried out, or nothing happens: a variable makes all its checks
before it changes anything. -/
theorem edit_outcome (id : NodeId) (e : Variable.Edit) (s : State) :
    (∃ v x x', (g.nodes[id]? = some (.leaf v) ∧ v.kind = e.kind) ∧ s.graph = g.identity ∧
      s.slot? id = some (.contents x) ∧ v.edit id e x = .ok () x' ∧
        g.edit id e s = .ok () (s.put id (.contents x'))) ∨
      ∃ f, g.edit id e s = .error f s := by
  obtain ⟨v, x, hvar, hgraph, hslot, heq⟩ | ⟨-, hf⟩ := g.edit_eq id e s
  · obtain ⟨x', hedit, -⟩ | ⟨f, hedit, -⟩ := v.edit_outcome id e x
    · rw [hedit] at heq
      exact .inl ⟨v, x, x', hvar, hgraph, hslot, hedit, heq⟩
    · rw [hedit] at heq
      refine .inr ⟨f, heq.trans ?_⟩
      rw [putBack, State.put_slot? hslot]
  · exact .inr hf

theorem edit_eq_ok {e : Variable.Edit} : g.edit id e s = .ok () s' ↔ ∃ v x x',
    (g.nodes[id]? = some (.leaf v) ∧ v.kind = e.kind) ∧ s.graph = g.identity ∧
      s.slot? id = some (.contents x) ∧ v.edit id e x = .ok () x' ∧
        s' = s.put id (.contents x') := by
  constructor
  · intro hr
    obtain ⟨v, x, x', hvar, hgraph, hslot, hedit, hrun⟩ | ⟨f, hrun⟩ := g.edit_outcome id e s
    · rw [hrun] at hr
      cases hr
      exact ⟨v, x, x', hvar, hgraph, hslot, hedit, rfl⟩
    · rw [hrun] at hr
      cases hr
  · rintro ⟨v, x, x', ⟨hn, hkind⟩, hgraph, hslot, hedit, rfl⟩
    obtain ⟨w, y, ⟨hw, -⟩, -, hy, heq⟩ | ⟨hnone, -⟩ := g.edit_eq id e s
    · obtain rfl := Node.leaf.inj (Option.some.inj (hn.symm.trans hw))
      obtain rfl := Slot.contents.inj (Option.some.inj (hslot.symm.trans hy))
      rw [heq, hedit]
      rfl
    · exact absurd hslot (hnone v x hn hkind hgraph)

/-- **A refused call leaves the state as it was.**  An edit and a seed make
their checks before they write, and a bulk call makes all of its checks before
the first slot is changed. -/
theorem call_refused {r : Refusal} (h : g.call c s = .error (.refused r) s') : s' = s := by
  cases c with
  | seed hd values =>
    obtain ⟨_, _, -, -, -, -, hrun⟩ | ⟨f, hrun⟩ := g.seed_outcome hd values s
    · cases hrun.symm.trans h
    · cases hrun.symm.trans h
      rfl
  | edit id e =>
    obtain ⟨_, _, _, -, -, -, -, hrun⟩ | ⟨f, hrun⟩ := g.edit_outcome id e s
    · cases hrun.symm.trans h
    · cases hrun.symm.trans h
      rfl
  | initializeRemaining =>
    have hstays : Stays g.initializeRemaining := .bind reads_get fun _ =>
      .bind (reads_refusal _) fun _ => (accepts_forM accepts_initializeNode).stays
    exact hstays s s' r h
  | propagate ids => exact stays_stepAll _ ids s s' r h
  | commit ids => exact stays_stepAll _ ids s s' r h
  | revert ids => exact stays_stepAll _ ids s s' r h

/-! ### States that calls lead to -/

/-- The states that calls lead to from the one without slots. -/
inductive Reached (g : Graph) : State → Prop
  | start : Reached g g.emptyState.1
  | accepted {s s' : State} {c : Call} (h : Reached g s) (hc : g.call c s = .ok () s') : Reached g s'
  | refused {s s' : State} {c : Call} {r : Refusal} (h : Reached g s)
      (hc : g.call c s = .error (.refused r) s') : Reached g s'

theorem Reached.calls {cs : List Call} (h : g.Reached s) (hc : g.calls cs s = .ok () t) :
    g.Reached t := by
  induction cs generalizing s with
  | nil =>
    cases hc
    exact h
  | cons c cs ih =>
    obtain ⟨_, u, hu, hc⟩ := Outcome.run_bind_eq_ok.mp hc
    exact ih (h.accepted hu) hc

theorem calls_append {cs ds : List Call} :
    g.calls (cs ++ ds) s = .ok () t ↔ ∃ u, g.calls cs s = .ok () u ∧ g.calls ds u = .ok () t := by
  induction cs generalizing s with
  | nil =>
    constructor
    · intro h
      exact ⟨s, rfl, h⟩
    · rintro ⟨u, hu, h⟩
      cases hu
      exact h
  | cons c cs ih =>
    constructor
    · intro h
      obtain ⟨_, w, hw, h⟩ := Outcome.run_bind_eq_ok.mp h
      obtain ⟨u, hu, h⟩ := ih.mp h
      exact ⟨u, Outcome.run_bind_eq_ok.mpr ⟨(), w, hw, hu⟩, h⟩
    · rintro ⟨u, hu, h⟩
      obtain ⟨_, w, hw, hu⟩ := Outcome.run_bind_eq_ok.mp hu
      exact Outcome.run_bind_eq_ok.mpr ⟨(), w, hw, ih.mpr ⟨u, hu, h⟩⟩

/-- The state after some calls. -/
def after (g : Graph) (cs : List Call) (s : State) : State := Outcome.final (g.calls cs s)

theorem reached_after {cs : List Call} (h : g.Reached s)
    (hc : Outcome.succeeds (g.calls cs s) = true) : g.Reached (g.after cs s) :=
  h.calls (Outcome.eq_ok_of_succeeds hc)

theorem call_eq_ok_after (h : Outcome.succeeds (g.call c s) = true) :
    g.call c s = .ok () (g.after [c] s) := by
  have heq := Outcome.eq_ok_of_succeeds h
  have hcalls : g.calls [c] s = .ok () (Outcome.final (g.call c s)) :=
    Outcome.run_bind_eq_ok.mpr ⟨(), _, heq, rfl⟩
  rw [after, hcalls]
  exact heq

/-- Every slot is of the kind of its node and can be reverted. -/
structure Sound (g : Graph) (s : State) : Prop where
  graph : s.graph = g.identity
  size : s.size = g.size
  slots : ∀ (i : Nat) (slot : Slot), s.slot? i = some slot →
    ∃ node, g.nodes[i]? = some node ∧ node.Owns slot ∧ slot.Tracked

theorem slot?_emptyState (g : Graph) (i : NodeId) : g.emptyState.1.slot? i = none := by
  simp only [Graph.emptyState, State.empty, State.slot?, Array.getElem?_replicate]
  split
  · rfl
  · rfl

namespace Sound

theorem emptyState (g : Graph) : g.Sound g.emptyState.1 where
  graph := rfl
  size := Array.size_replicate
  slots i slot h := by
    rw [slot?_emptyState] at h
    cases h

theorem owns (h : g.Sound s) {node : Node} {slot : Slot} (hn : g.nodes[id]? = some node)
    (hs : s.slot? id = some slot) : node.Owns slot ∧ slot.Tracked := by
  obtain ⟨node', hn', hown⟩ := h.slots id slot hs
  rw [hn] at hn'
  obtain rfl := Option.some.inj hn'
  exact hown

theorem put (h : g.Sound s) {node : Node} {slot : Slot} (hn : g.nodes[id]? = some node)
    (ho : node.Owns slot) (ht : slot.Tracked) : g.Sound (s.put id slot) where
  graph := h.graph
  size := (State.size_put s id slot).trans h.size
  slots i other hi := by
    have hlt : id < s.size := by
      rw [h.size]
      exact lt_size hn
    rw [State.slot?_put s id i slot hlt] at hi
    split at hi
    · next heq =>
      obtain rfl := Option.some.inj hi
      exact ⟨node, heq ▸ hn, ho, ht⟩
    · exact h.slots i other hi

/-- Slots may be replaced by slots of the same kind. -/
theorem stepped (h : g.Sound s) {made : State → Node → Option Slot → Slot → Prop}
    {ids : List NodeId} (hs : g.Stepped made ids s g.size t)
    (hmade : ∀ (node : Node) (old : Option Slot) (new : Slot), made t node old new →
      (∀ slot, old = some slot → node.Owns slot ∧ slot.Tracked) → node.Owns new ∧ new.Tracked) :
    g.Sound t where
  graph := hs.graph.trans h.graph
  size := hs.size.trans h.size
  slots i slot hi := by
    by_cases hmem : i ∈ ids
    · have hlt : i < g.size := by
        rw [← h.size, ← hs.size]
        exact State.slot?_lt hi
      obtain ⟨node, new, hn, hnew, ht⟩ := hs.done i hmem hlt
      rw [hi] at ht
      obtain rfl := Option.some.inj ht
      exact ⟨node, hn, hmade node _ slot hnew fun old hold => h.owns hn hold⟩
    · rw [hs.slot_of_not_mem hmem] at hi
      exact h.slots i slot hi

section Takes

variable {step : State → Node → Slot → Except Fault Slot} {ids : List NodeId} {k : Nat} {i : Nat}

/-- What becomes of a slot on the walk of a bulk call. -/
theorem slot_stepped (h : g.Sound s) (hs : g.Stepped (Takes step) ids s k t) {slot : Slot}
    (hi : i ∈ ids → i < k) (hslot : s.slot? i = some slot) :
    (i ∉ ids ∧ t.slot? i = some slot) ∨ i ∈ ids ∧ ∃ node new, node.Owns slot ∧ slot.Tracked ∧
      step t node slot = .ok new ∧ t.slot? i = some new := by
  by_cases hmem : i ∈ ids
  · obtain ⟨node, new, hn, ⟨old, hold, hnew⟩, ht⟩ := hs.done i hmem (hi hmem)
    rw [hslot] at hold
    obtain rfl := Option.some.inj hold
    obtain ⟨ho, htracked⟩ := h.owns hn hslot
    exact .inr ⟨hmem, node, new, ho, htracked, hnew, ht⟩
  · exact .inl ⟨hmem, (hs.slot_of_not_mem hmem).trans hslot⟩

/-- Where the slot of a node comes from after a bulk call. -/
theorem of_stepped (h : g.Sound s) (hs : g.Stepped (Takes step) ids s g.size t) {node : Node}
    {new : Slot} (hn : g.nodes[i]? = some node) (hnew : t.slot? i = some new) :
    (i ∉ ids ∧ s.slot? i = some new) ∨ i ∈ ids ∧ ∃ slot, s.slot? i = some slot ∧
      node.Owns slot ∧ step t node slot = .ok new := by
  by_cases hmem : i ∈ ids
  · obtain ⟨made, ⟨slot, hslot, hmade⟩, ht⟩ := hs.slot_of_mem hn hmem
    rw [hnew] at ht
    obtain rfl := Option.some.inj ht
    exact .inr ⟨hmem, slot, hslot, (h.owns hn hslot).1, hmade⟩
  · exact .inl ⟨hmem, (hs.slot_of_not_mem hmem).symm.trans hnew⟩

end Takes

theorem call (h : g.Sound s) (hc : g.call c s = .ok () s') : g.Sound s' := by
  cases c with
  | seed hd values =>
    obtain ⟨v, x, hn, -, hseed, rfl⟩ := seed_eq_ok hc
    exact h.put hn (.leaf v x) (Slot.Clean.tracked hseed.clean)
  | edit id e =>
    obtain ⟨v, x, x', ⟨hn, -⟩, -, hslot, hedit, rfl⟩ := edit_eq_ok.mp hc
    obtain ⟨-, htracked⟩ := h.owns hn hslot
    exact h.put hn (.leaf v x') (htracked.extends (.contents (.edit hedit))
      (Variable.Contents.Linked.edit htracked.linked hedit))
  | initializeRemaining =>
    obtain ⟨⟨-, hsize⟩, hrun⟩ := initializeRemaining_eq_ok.mp hc
    refine h.stepped (forM_initializeNode_stepped local_fills hsize hrun) ?_
    rintro node old new (hold | ⟨-, hnew⟩) hown
    · exact hown new hold
    · obtain ⟨ho, hclean⟩ := defaultSlot_clean hnew
      exact ⟨ho, hclean.tracked⟩
  | propagate ids =>
    refine h.stepped (stepAll_stepped local_propagateSlot hc).1 ?_
    rintro node old new ⟨slot, hold, hnew⟩ hown
    obtain ⟨ho, ht⟩ := hown slot hold
    obtain ⟨hext, hlinked⟩ := propagateSlot_extends ho hnew
    exact ⟨hext.owns ho, ht.extends hext (hlinked ht.linked)⟩
  | commit ids =>
    refine h.stepped (stepAll_stepped local_commitSlot hc).1 ?_
    rintro node old new ⟨slot, hold, hnew⟩ hown
    obtain ⟨ho, ht⟩ := hown slot hold
    obtain ⟨ho', -, hclean⟩ := commitSlot_spec ho hnew
    exact ⟨ho', (hclean ht).tracked⟩
  | revert ids =>
    refine h.stepped (stepAll_stepped local_revertSlot hc).1 ?_
    rintro node old new ⟨slot, hold, hnew⟩ hown
    obtain ⟨ho, ht⟩ := hown slot hold
    obtain ⟨ho', rfl⟩ := revertSlot_eq ho hnew
    exact ⟨ho', ht.clean_revert.tracked⟩

end Sound

theorem Reached.sound (h : g.Reached s) : g.Sound s := by
  induction h with
  | start => exact .emptyState g
  | accepted _ hc ih => exact ih.call hc
  | refused _ hc ih => rw [call_refused hc]; exact ih

end Graph

/-! ### What a variable notices of a call -/

namespace Variable

variable {v : Variable}

/-- Contents that a variable begins with. -/
inductive Begins (v : Variable) : Contents → Prop
  | defaults {c : Contents} (h : v.defaults = .ok c) : Begins v c
  | seed {values : List Binary64} {c : Contents} (h : v.Seeds values c) : Begins v c

theorem Begins.clean {c : Contents} (h : v.Begins c) : c.Clean := by
  cases h with
  | defaults h =>
    obtain ⟨-, -, rfl⟩ := defaults_eq_ok.mp h
    exact v.clean_initial
  | seed h => exact h.clean

theorem Begins.holds {c : Contents} (h : v.Begins c) : v.Holds c := by
  cases h with
  | defaults h => exact .defaults h
  | seed h => exact .seed h

/-- What a call makes of the slot of the variable `id`: the first contents, if
it has none; the contents after an edit of the variable, or after a commit or
a revert of a set to which it belongs; or what it was. -/
inductive Turns (v : Variable) (id : NodeId) : Call → Option Slot → Option Slot → Prop
  | absent {k : Call} : Turns v id k none none
  | begins {k : Call} {c : Contents} (h : v.Begins c) : Turns v id k none (some (.contents c))
  | edit {e : Edit} {c c' : Contents} (h : v.edit id e c = .ok () c') :
      Turns v id (.edit id e) (some (.contents c)) (some (.contents c'))
  | commit {ids : List NodeId} {c : Contents} (h : id ∈ ids) :
      Turns v id (.commit ids) (some (.contents c)) (some (.contents c.commit))
  | revert {ids : List NodeId} {c : Contents} (h : id ∈ ids) :
      Turns v id (.revert ids) (some (.contents c)) (some (.contents c.revert))
  | kept {k : Call} {c : Contents} (h : ∀ ids, k = .commit ids → id ∉ ids) :
      Turns v id k (some (.contents c)) (some (.contents c))

end Variable

namespace Graph

variable {g : Graph} {s s' t : State} {id : NodeId} {v : Variable} {c : Call}

theorem Sound.turns_refl (hs : g.Sound s) (hn : g.nodes[id]? = some (.leaf v))
    (hc : ∀ ids, c = .commit ids → id ∉ ids) : v.Turns id c (s.slot? id) (s.slot? id) := by
  cases hslot : s.slot? id with
  | none => exact .absent
  | some slot =>
    obtain ⟨ho, -⟩ := hs.owns hn hslot
    cases ho with
    | leaf _ x => exact .kept hc

/-- What a bulk call makes of the contents of a variable. -/
theorem Sound.leaf_stepped (hs : g.Sound s) {step : State → Node → Slot → Except Fault Slot}
    {ids : List NodeId} (h : g.Stepped (Takes step) ids s g.size t)
    (hn : g.nodes[id]? = some (.leaf v)) :
    (id ∉ ids ∧ t.slot? id = s.slot? id) ∨ id ∈ ids ∧ ∃ x new,
      s.slot? id = some (.contents x) ∧ step t (.leaf v) (.contents x) = .ok new ∧
        t.slot? id = some new := by
  by_cases hid : id ∈ ids
  · obtain ⟨new, ⟨slot, hold, hnew⟩, ht⟩ := h.slot_of_mem hn hid
    obtain ⟨ho, -⟩ := hs.owns hn hold
    cases ho with
    | leaf _ x => exact .inr ⟨hid, x, new, hold, hnew, ht⟩
  · exact .inl ⟨hid, h.slot_of_not_mem hid⟩

/-- **What a variable notices of a call.** -/
theorem call_leaf (hs : g.Sound s) (hc : g.call c s = .ok () s')
    (hn : g.nodes[id]? = some (.leaf v)) : v.Turns id c (s.slot? id) (s'.slot? id) := by
  cases c with
  | seed h values =>
    obtain ⟨w, x, hw, hnone, hseed, rfl⟩ := seed_eq_ok hc
    rw [State.slot?_put s h.id id _ (hs.size ▸ lt_size hw)]
    split
    · next heq =>
      subst heq
      obtain rfl := Node.leaf.inj (Option.some.inj (hw.symm.trans hn))
      rw [hnone]
      exact .begins (.seed hseed)
    · exact hs.turns_refl hn nofun
  | edit i e =>
    obtain ⟨w, x, x', ⟨hw, -⟩, -, hold, hedit, rfl⟩ := edit_eq_ok.mp hc
    rw [State.slot?_put s i id _ (State.slot?_lt hold)]
    split
    · next heq =>
      subst heq
      obtain rfl := Node.leaf.inj (Option.some.inj (hw.symm.trans hn))
      rw [hold]
      exact .edit hedit
    · exact hs.turns_refl hn nofun
  | initializeRemaining =>
    obtain ⟨⟨-, hsize⟩, hrun⟩ := initializeRemaining_eq_ok.mp hc
    obtain ⟨new, hnew, ht⟩ := (forM_initializeNode_stepped local_fills hsize hrun).slot_of_mem hn
      (List.mem_range.mpr (lt_size hn))
    rcases hnew with hold | ⟨hnone, hnew⟩
    · rw [ht, ← hold]
      exact hs.turns_refl hn nofun
    · obtain ⟨x, hx, rfl⟩ := Outcome.map_eq_ok.mp hnew
      rw [ht, hnone]
      exact .begins (.defaults hx)
  | propagate ids =>
    rcases hs.leaf_stepped (stepAll_stepped local_propagateSlot hc).1 hn with
      ⟨-, heq⟩ | ⟨-, x, new, hold, hnew, ht⟩
    · rw [heq]
      exact hs.turns_refl hn nofun
    · obtain rfl := Except.ok.inj hnew
      rw [hold, ht]
      exact .kept nofun
  | commit ids =>
    rcases hs.leaf_stepped (stepAll_stepped local_commitSlot hc).1 hn with
      ⟨hid, heq⟩ | ⟨hid, x, new, hold, hnew, ht⟩
    · rw [heq]
      refine hs.turns_refl hn fun ids' h => ?_
      obtain rfl := Call.commit.inj h
      exact hid
    · obtain rfl := Except.ok.inj hnew
      rw [hold, ht]
      exact .commit hid
  | revert ids =>
    rcases hs.leaf_stepped (stepAll_stepped local_revertSlot hc).1 hn with
      ⟨-, heq⟩ | ⟨hid, x, new, hold, hnew, ht⟩
    · rw [heq]
      exact hs.turns_refl hn nofun
    · obtain rfl := Except.ok.inj hnew
      rw [hold, ht]
      exact .revert hid

end Graph
end ArrayFlow
