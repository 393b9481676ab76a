import ArrayFlow.Proofs.Initialization

/-!
# What lasts through all calls

The elements of a variable and of an advanced selection stand in a journal.
A property of these journals **lasts** if the journals of defaults, seeds and
gathered arrays have it, and if edits, refreshes, commits and reverts keep it
(`Lasting`).  Then every journal has it in every state that calls lead to
(`Lasting.reached`), whatever nodes the calls were made for and in whatever
order, so that nothing has to be up to date.

A property of arrays lasts in the form that the current values have it and
the committed ones have it too (`Journal.Throughout`).
-/

namespace ArrayFlow

namespace Journal

variable {α : Type}

/-- The current values have a property, and the committed ones have it too. -/
def Throughout (P : Array α → Prop) (j : Journal α) : Prop :=
  ∃ base : Journal α, base.Clean ∧ base.Extends j ∧ P base.values ∧ P j.values

namespace Throughout

variable {P : Array α → Prop} {j j' : Journal α}

theorem of_clean (hc : j.Clean) (h : P j.values) : j.Throughout P := ⟨j, hc, .refl j, h, h⟩

theorem current (h : j.Throughout P) : P j.values := h.choose_spec.2.2.2

theorem extend (h : j.Throughout P) (he : j.Extends j') (h' : P j'.values) : j'.Throughout P := by
  obtain ⟨base, hclean, hbase, hP, -⟩ := h
  exact ⟨base, hclean, hbase.trans he, hP, h'⟩

theorem commit (h : j.Throughout P) : j.commit.Throughout P :=
  .of_clean j.clean_commit h.current

theorem revert (h : j.Throughout P) : j.revert.Throughout P := by
  obtain ⟨base, hclean, hbase, hP, -⟩ := h
  rw [hbase.revert_eq hclean]
  exact .of_clean hclean hP

end Throughout

end Journal

/-- The journal of the elements that a slot holds, if it holds any. -/
def Slot.journal? : Slot → Option (Journal Binary64)
  | .contents c => some c.elements
  | .gathered x => some x.values
  | _ => none

theorem Slot.journal?_commit (slot : Slot) :
    slot.commit.journal? = slot.journal?.map Journal.commit := by
  cases slot with
  | contents c => exact congrArg some (Variable.Contents.elements_commit c)
  | _ => rfl

theorem Slot.journal?_revert (slot : Slot) :
    slot.revert.journal? = slot.journal?.map Journal.revert := by
  cases slot with
  | contents c => cases c <;> rfl
  | _ => rfl

namespace Graph

variable {g : Graph} {P : NodeId → Journal Binary64 → Prop} {s s' t : State} {id : NodeId}
  {c : Call}

/-- What is looked at: a constant, the elements of a journal under the shape of
their array, or a selection of what the source shows. -/
theorem viewAt_cases {d : Description} {v : View} (hd : g.describe id = .ok d)
    (hv : g.viewAt s id = .ok v) :
    (∃ c, g.nodes[id]? = some (.constant c) ∧ v = .ofArray c.values c.extents) ∨
      (∃ slot j, s.slot? id = some slot ∧ slot.journal? = some j ∧
        bufferView d.shape j.values = .ok v) ∨
        ∃ b w, g.nodes[id]? = some (.basic b) ∧ g.viewAt s b.source = .ok w ∧ b.view w = .ok v := by
  obtain ⟨node, hn, hnd⟩ := describe_eq_ok.mp hd
  cases node with
  | constant c =>
    rw [viewAt_constant hn] at hv
    exact .inl ⟨c, hn, (View.layOut_eq_ok.mp hv).2.symm⟩
  | leaf x =>
    rw [viewAt_leaf hn] at hv
    obtain ⟨_, hvalues, hv⟩ := Outcome.bind_eq_ok.mp hv
    obtain ⟨c, hc, rfl⟩ := Outcome.map_eq_ok.mp hvalues
    obtain rfl := description_leaf hn hd
    refine .inr (.inl ⟨_, _, State.contents_eq_ok hc, rfl, ?_⟩)
    rw [Variable.description_shape]
    exact hv
  | advanced a =>
    rw [viewAt_advanced hn] at hv
    obtain ⟨_, hvalues, hv⟩ := Outcome.bind_eq_ok.mp hv
    obtain ⟨x, hx, rfl⟩ := Outcome.map_eq_ok.mp hvalues
    obtain rfl := description_advanced hn hd
    exact .inr (.inl ⟨_, _, State.gathered_eq_ok hx, rfl, hv⟩)
  | basic b =>
    rw [viewAt_basic hn] at hv
    obtain ⟨w, hw, hv⟩ := Outcome.bind_eq_ok.mp hv
    exact .inr (.inr ⟨b, w, hn, hw, hv⟩)
  | validation w => cases hnd

/-- The journals of the nodes below `n` have a property. -/
def LastsBelow (P : NodeId → Journal Binary64 → Prop) (t : State) (n : NodeId) : Prop :=
  ∀ (i : NodeId) (slot : Slot) (j : Journal Binary64), i < n → t.slot? i = some slot →
    slot.journal? = some j → P i j

/-- The property lasts: every way to make a journal gives it, and every way
to change one keeps it. -/
structure Lasting (g : Graph) (P : NodeId → Journal Binary64 → Prop) : Prop where
  defaults : ∀ {id : NodeId} {v : Variable} {c : Variable.Contents},
    g.nodes[id]? = some (.leaf v) → v.defaults = .ok c → P id c.elements
  seed : ∀ {id : NodeId} {v : Variable} {values : List Binary64} {c : Variable.Contents},
    g.nodes[id]? = some (.leaf v) → v.Seeds values c → P id c.elements
  edit : ∀ {id : NodeId} {v : Variable} {c c' : Variable.Contents} {e : Variable.Edit},
    g.nodes[id]? = some (.leaf v) → v.Holds c → v.edit id e c = .ok () c' → P id c.elements →
      P id c'.elements
  gather : ∀ {id : NodeId} {a : AdvancedIndexing} {t : State} {x : Gathered},
    g.nodes[id]? = some (.advanced a) → LastsBelow P t id →
      g.defaultSlot t (.advanced a) = .ok (.gathered x) → P id x.values
  refresh : ∀ {id : NodeId} {a : AdvancedIndexing} {t : State} {x x' : Gathered},
    g.nodes[id]? = some (.advanced a) → LastsBelow P t id →
      g.propagateSlot t (.advanced a) (.gathered x) = .ok (.gathered x') → P id x.values →
        P id x'.values
  commit : ∀ {id : NodeId} {j : Journal Binary64}, P id j → P id j.commit
  revert : ∀ {id : NodeId} {j : Journal Binary64}, P id j → P id j.revert

/-- Every journal of a state has the property. -/
def Lasts (P : NodeId → Journal Binary64 → Prop) (s : State) : Prop :=
  ∀ (i : NodeId) (slot : Slot) (j : Journal Binary64), s.slot? i = some slot →
    slot.journal? = some j → P i j

namespace Lasts

theorem put (h : Lasts P s) {slot : Slot} (hlt : id < s.size)
    (hslot : ∀ j, slot.journal? = some j → P id j) : Lasts P (s.put id slot) := by
  intro i other j hi hj
  rw [State.slot?_put s id i _ hlt] at hi
  split at hi
  · next heq =>
    subst heq
    obtain rfl := Option.some.inj hi
    exact hslot j hj
  · exact h i other j hi hj

/-- The walk of a bulk call makes each slot from slots that have the property
already. -/
theorem stepped (hs : g.Sound s) (h : Lasts P s)
    {made : State → Node → Option Slot → Slot → Prop} {ids : List NodeId}
    (hstepped : g.Stepped made ids s g.size t)
    (hmade : ∀ (i : Nat) (node : Node) (old : Option Slot) (new : Slot) (j : Journal Binary64),
      g.nodes[i]? = some node → LastsBelow P t i → made t node old new →
        (∀ slot, old = some slot → node.Owns slot ∧ ∀ j, slot.journal? = some j → P i j) →
          new.journal? = some j → P i j) : Lasts P t := by
  intro i
  induction i using Nat.strong_induction_on with
  | _ i ih =>
    intro slot j hslot hj
    by_cases hmem : i ∈ ids
    · have hlt : i < g.size := by
        rw [← hs.size, ← hstepped.size]
        exact State.slot?_lt hslot
      obtain ⟨node, new, hn, hnew, ht⟩ := hstepped.done i hmem hlt
      rw [hslot] at ht
      obtain rfl := Option.some.inj ht
      exact hmade i node _ slot j hn (fun k slot' j' hk => ih k hk slot' j') hnew
        (fun old hold => ⟨(hs.owns hn hold).1, fun j' => h i old j' hold⟩) hj
    · rw [hstepped.slot_of_not_mem hmem] at hslot
      exact h i slot j hslot hj

end Lasts

namespace Lasting

variable (hl : g.Lasting P)
include hl

theorem defaultSlot {node : Node} {new : Slot} {j : Journal Binary64}
    (hn : g.nodes[id]? = some node) (hbelow : LastsBelow P t id)
    (h : g.defaultSlot t node = .ok new) (hj : new.journal? = some j) : P id j := by
  obtain ⟨ho, -⟩ := defaultSlot_clean h
  cases ho with
  | leaf v c =>
    obtain ⟨c, hdefaults, h⟩ := Outcome.bind_eq_ok.mp h
    obtain rfl := Slot.contents.inj (Except.ok.inj h)
    obtain rfl := Option.some.inj hj
    exact hl.defaults hn hdefaults
  | advanced a x =>
    obtain rfl := Option.some.inj hj
    exact hl.gather hn hbelow h
  | _ => cases hj

theorem propagateSlot {node : Node} {slot new : Slot} {j : Journal Binary64}
    (hn : g.nodes[id]? = some node) (hbelow : LastsBelow P t id) (ho : node.Owns slot)
    (hold : ∀ j, slot.journal? = some j → P id j) (h : g.propagateSlot t node slot = .ok new)
    (hj : new.journal? = some j) : P id j := by
  obtain ⟨hext, -⟩ := propagateSlot_extends ho h
  cases ho with
  | leaf v c =>
    obtain rfl := Except.ok.inj h
    exact hold j hj
  | advanced a x =>
    cases hext with
    | gathered _ _ =>
      obtain rfl := Option.some.inj hj
      exact hl.refresh hn hbelow h (hold x.values rfl)
  | _ =>
    cases hext
    cases hj

/-- One call. -/
theorem call (hs : g.Sound s) (ha : g.Abides s) (h : Lasts P s) (hc : g.call c s = .ok () s') :
    Lasts P s' := by
  cases c with
  | seed hd values =>
    obtain ⟨v, x, hn, -, hseed, rfl⟩ := seed_eq_ok hc
    refine h.put (hs.size ▸ lt_size hn) fun j hj => ?_
    obtain rfl := Option.some.inj hj
    exact hl.seed hn hseed
  | edit id e =>
    obtain ⟨v, x, x', ⟨hn, -⟩, -, hslot, hedit, rfl⟩ := edit_eq_ok.mp hc
    refine h.put (State.slot?_lt hslot) fun j hj => ?_
    obtain rfl := Option.some.inj hj
    exact hl.edit hn (ha id v x hn hslot).1 hedit (h id _ _ hslot rfl)
  | initializeRemaining =>
    obtain ⟨⟨-, hsize⟩, hrun⟩ := initializeRemaining_eq_ok.mp hc
    refine h.stepped hs (forM_initializeNode_stepped local_fills hsize hrun) ?_
    rintro i node old new j hn hbelow (hold | ⟨-, hnew⟩) hown hj
    · exact (hown new hold).2 j hj
    · exact hl.defaultSlot hn hbelow hnew hj
  | propagate ids =>
    refine h.stepped hs (stepAll_stepped local_propagateSlot hc).1 ?_
    rintro i node old new j hn hbelow ⟨slot, hold, hnew⟩ hown hj
    obtain ⟨ho, hslot⟩ := hown slot hold
    exact hl.propagateSlot hn hbelow ho hslot hnew hj
  | commit ids =>
    refine h.stepped hs (stepAll_stepped local_commitSlot hc).1 ?_
    rintro i node old new j hn - ⟨slot, hold, hnew⟩ hown hj
    obtain ⟨ho, hslot⟩ := hown slot hold
    rcases commitSlot_eq ho hnew with rfl | ⟨xs, ys, rfl, rfl⟩
    · rw [Slot.journal?_commit] at hj
      obtain ⟨j', hj', rfl⟩ := Option.map_eq_some_iff.mp hj
      exact hl.commit (hslot j' hj')
    · cases hj
  | revert ids =>
    refine h.stepped hs (stepAll_stepped local_revertSlot hc).1 ?_
    rintro i node old new j hn - ⟨slot, hold, hnew⟩ hown hj
    obtain ⟨ho, hslot⟩ := hown slot hold
    obtain ⟨-, rfl⟩ := revertSlot_eq ho hnew
    rw [Slot.journal?_revert] at hj
    obtain ⟨j', hj', rfl⟩ := Option.map_eq_some_iff.mp hj
    exact hl.revert (hslot j' hj')

/-- **What lasts holds in every state.** -/
theorem reached (h : g.Reached s) : Lasts P s := by
  induction h with
  | start =>
    intro i slot j hslot
    rw [slot?_emptyState] at hslot
    cases hslot
  | accepted hr hc ih => exact hl.call hr.sound hr.abides ih hc
  | refused _ hc ih => rw [call_refused hc]; exact ih

end Lasting

end Graph
end ArrayFlow
