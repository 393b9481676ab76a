import ArrayFlow.Proofs.Resting

/-!
# The variables determine everything

Two states that are up to date and whose variables have the same elements
show the same arrays (`SameElements.cells`).  Elements are compared as
numbers: an advanced selection may keep a zero of the other sign.

A new state can be made from the variables of any state in which all of them
are there (`Planted.rebuilt`).  So a state that has been kept up to date shows
what a new one would show, made from its variables alone (`alike_rebuilt`).
-/

namespace ArrayFlow
namespace Graph

variable {g : Graph} {s t : State} {id : NodeId} {d : Description}

/-- The variables have the same elements. -/
def SameElements (g : Graph) (s t : State) : Prop :=
  ∀ (id : NodeId) (v : Variable) (c : Variable.Contents), g.nodes[id]? = some (.leaf v) →
    s.slot? id = some (.contents c) →
      ∃ c', t.slot? id = some (.contents c') ∧ c'.elements.values = c.elements.values

namespace SameElements

variable (h : g.SameElements s t) (hs : g.Settled s)
include h hs

theorem rowsIn_eq (id : NodeId) : g.rowsIn t id = g.rowsIn s id := by
  unfold rowsIn
  split
  · next v hn =>
    obtain ⟨slot, hslot, hcur⟩ := hs.current id _ hn
    cases hcur with
    | @leaf _ c _ =>
      obtain ⟨c', hslot', hvalues⟩ := h id v c hn hslot
      rw [hslot, hslot']
      exact v.rowsIn_congr (congrArg Array.size hvalues)
  · rfl

theorem sizeBy_eq (d : Description) : g.sizeBy t d = g.sizeBy s d := by
  rw [sizeBy, h.rowsIn_eq hs]
  rfl

theorem blocksIn_eq (id : NodeId) (a : AdvancedIndexing) :
    g.blocksIn t id a = g.blocksIn s id a := by
  unfold blocksIn
  rw [h.rowsIn_eq hs, h.rowsIn_eq hs]

variable (hb : g.Built) (ht : g.Settled t)
include hb ht

/-- **The variables determine every element.** -/
theorem cells (hd : g.describe id = .ok d) (hf : g.Framed id) {k : Nat} (hk : k < g.sizeBy s d) :
    ((g.shown t id).cell k).place? = ((g.shown s id).cell k).place? := by
  induction id using Nat.strong_induction_on generalizing d k with
  | _ id ih =>
    have hself := hs.seen hb hd hf
    have hself' := ht.seen hb hd hf
    obtain ⟨node, hn, hnd⟩ := describe_eq_ok.mp hd
    obtain ⟨slot, hslot, hcur⟩ := hs.current id node hn
    obtain ⟨slot', hslot', hcur'⟩ := ht.current id node hn
    cases hcur with
    | constant c => rw [shown, shown, viewAt_constant hn, viewAt_constant hn]
    | @leaf v c _ =>
      obtain ⟨c', hc', hvalues⟩ := h id v c hn hslot
      rw [hself.shown_leaf hn hslot, hself'.shown_leaf hn hc', hvalues]
    | @basic b diff _ =>
      obtain rfl := Option.some.inj hnd
      obtain ⟨hsource, hfits⟩ := hb.promises hn
      have hfsource := hf.source hn
      obtain ⟨-, hcells⟩ :=
        Seen.of_basic hn hb hf (hs.seen hb hsource hfsource) (hs.inRoom _ _ hsource)
      obtain ⟨-, hcells'⟩ :=
        Seen.of_basic hn hb hf (ht.seen hb hsource hfsource) (ht.inRoom _ _ hsource)
      rw [hcells k hk, hcells' k (by rw [h.sizeBy_eq hs]; exact hk)]
      exact ih b.source (lt_of_basic hn) hsource hfsource
        (sourceOf_lt_source hfits (hs.inRoom _ _ hsource) hk)
    | @advanced a x hx =>
      obtain rfl := Option.some.inj hnd
      obtain ⟨picked, hfits⟩ := hb.promises hn
      cases hcur' with
      | @advanced _ x' hx' =>
        rw [h.sizeBy_eq hs, h.blocksIn_eq hs] at hx'
        have hwords := hs.gathers.at hn
        have hseen : g.SeenBelow s id := fun p d _ hd hf => hs.seen hb hd hf
        have hkb : k < (g.blocksIn s id a).size := size_blocksIn hfits s id ▸ hk
        have hoffset : a.offset (g.blocksIn s id a) (g.shown t) k =
            a.offset (g.blocksIn s id a) (g.shown s) k := by
          refine AdvancedIndexing.offset_congr fun ix hix => ?_
          have hq := (canRead hn hfits hwords hseen ix hix).2 _ (Blocks.position_eq hkb).2.1
          have hlt := (lt_of_advanced hn).2 ix hix
          have hfix := hwords.indexers ix hix
          rw [hfits.indexers] at hix
          obtain ⟨e, he, rfl⟩ := List.mem_map.mp hix
          have hd := hfits.described e he
          rw [(hs.seen hb hd hfix).size_eq] at hq
          exact ih e.2.1 hlt hd hfix hq
        have hlt := offset_lt_source hn hfits hwords hseen hb hs.ruled hkb
        rw [(seen_source hn hfits hwords hseen).size_eq] at hlt
        rw [hself'.place?_advanced hn hslot' hx' hk, hself.place?_advanced hn hslot hx hk, hoffset]
        exact ih a.source (lt_of_advanced hn).1 hfits.source hwords.source hlt
    | validation w xs => cases hnd

end SameElements

/-- No element is NaN, unless there is one in a constant. -/
theorem Settled.cell_ne_nan (h : g.Settled s) (hb : g.Built) (hd : g.describe id = .ok d)
    (hf : g.Framed id) (hnan : ¬ g.HoldsNaN) {k : Nat} (hk : k < g.sizeBy s d) :
    (g.shown s id).cell k ≠ .nan := by
  have hseen := h.seen hb hd hf
  exact (hseen.cells k (hseen.size_eq ▸ hk)).ne_nan hnan

/-- Both states show the array, with the same extents and with elements that
are equal as numbers. -/
def Alike (g : Graph) (s t : State) (id : NodeId) : Prop :=
  ∃ xs ys extents, g.elementsOf s id = some xs ∧ g.elementsOf t id = some ys ∧
    List.Forall₂ (fun x y => (x == y) = true) xs ys ∧
      g.extentsIn s id = .ok extents ∧ g.extentsIn t id = .ok extents

theorem SameElements.alike (h : g.SameElements s t) (hs : g.Settled s) (ht : g.Settled t)
    (hb : g.Built) (hnan : ¬ g.HoldsNaN) (hd : g.describe id = .ok d) (hplain : g.Plain id d) :
    g.Alike s t id := by
  have hsize := h.sizeBy_eq hs d
  have hseen := hs.seen hb hd hplain.framed
  have hseen' := ht.seen hb hd hplain.framed
  have hextents := hseen'.extentsIn_eq ht.full hd hplain.counts hplain.row
  rw [hsize] at hextents
  refine ⟨_, _, _, hseen.elementsOf_eq hs.full hd hplain.counts,
    hseen'.elementsOf_eq ht.full hd hplain.counts, ?_,
    hseen.extentsIn_eq hs.full hd hplain.counts hplain.row, hextents⟩
  rw [View.cells, View.cells, hseen.size_eq, hseen'.size_eq, hsize,
    List.forall₂_map_left_iff, List.forall₂_map_right_iff, List.forall₂_same]
  intro k hk
  have hlt := List.mem_range.mp hk
  exact Binary64.beq_of_place?_eq (h.cells hs hb ht hd hplain.framed hlt).symm
    (hs.cell_ne_nan hb hd hplain.framed hnan hlt)

/-- The array shows the same in both states, or it overflows in both of them. -/
def SeenAlike (g : Graph) (s t : State) (id : NodeId) : Prop :=
  (g.Overflows s id ∧ g.Overflows t id) ∨ g.Alike s t id

theorem SeenAlike.alike (h : g.SeenAlike s t id) (hs : ¬ g.Overflows s id) : g.Alike s t id :=
  Or.resolve_left h fun ho => hs ho.1

theorem SameElements.seenAlike (h : g.SameElements s t) (hs : g.Settled s) (ht : g.Settled t)
    (hb : g.Built) (hnan : ¬ g.HoldsNaN) (hd : g.describe id = .ok d) : g.SeenAlike s t id := by
  by_cases hplain : g.Plain id d
  · exact .inr (h.alike hs ht hb hnan hd hplain)
  · exact .inl ⟨(hs.overflows_or_plain hb hd).resolve_right hplain,
      (ht.overflows_or_plain hb hd).resolve_right hplain⟩

/-! ### A new state from the variables -/

/-- A state that has only the variables of another one, with what they hold
as their committed elements. -/
def leavesOf (g : Graph) (s : State) : State where
  graph := s.graph
  slots := s.slots.mapIdx fun i slot =>
    match g.nodes[i]? with
    | some (.leaf _) => slot.map Slot.commit
    | _ => none

theorem slot?_leavesOf (g : Graph) (s : State) (i : Nat) :
    (g.leavesOf s).slot? i =
      match g.nodes[i]? with
      | some (.leaf _) => (s.slot? i).map Slot.commit
      | _ => none := by
  unfold State.slot? leavesOf
  rw [Array.getElem?_mapIdx]
  cases s.slots[i]? with
  | none =>
    split
    · rfl
    · rfl
  | some slot =>
    dsimp only [Option.map_some, Option.join_some]

theorem rowsIn_leavesOf (g : Graph) (s : State) (id : NodeId) :
    g.rowsIn (g.leavesOf s) id = g.rowsIn s id := by
  unfold rowsIn
  rw [slot?_leavesOf]
  cases g.nodes[id]? with
  | none => rfl
  | some node =>
    cases node with
    | leaf v =>
      cases s.slot? id with
      | none => rfl
      | some slot =>
        cases slot with
        | contents c => exact v.rowsIn_commit c
        | _ => rfl
    | _ => rfl

theorem inRoom_leavesOf (h : g.InRoom s) : g.InRoom (g.leavesOf s) := by
  intro id d hd
  rw [sizeBy, rowsIn_leavesOf]
  exact h id d hd

/-- Every variable has contents that keep its rules. -/
structure Planted (g : Graph) (s : State) : Prop where
  graph : s.graph = g.identity
  size : s.size = g.size
  leaves : ∀ (i : NodeId) (v : Variable), g.nodes[i]? = some (.leaf v) →
    ∃ c, s.slot? i = some (.contents c) ∧ v.Holds c

namespace Planted

variable (h : g.Planted s)
include h

theorem seeded_leavesOf : g.Seeded (g.leavesOf s) where
  graph := h.graph
  size := by
    rw [← h.size]
    exact Array.size_mapIdx
  leaves i slot hslot := by
    rw [slot?_leavesOf] at hslot
    split at hslot
    · next v hn =>
      obtain ⟨c, hc, hv⟩ := h.leaves i v hn
      rw [hc] at hslot
      obtain rfl := Option.some.inj hslot
      exact ⟨v, c.commit, hn, rfl, hv.commit, Variable.Contents.clean_commit c⟩
    · cases hslot

/-- A new state can be made from the variables, if there is room and what is
gathered fits into words.  It is up to date, and has their elements. -/
theorem rebuilt (hb : g.Built) (hroom : g.InRoom s) (hwords : g.Gathers)
    (hw : g.WatchesReadable) :
    ∃ t, g.initializeRemaining (g.leavesOf s) = .ok () t ∧
      g.Stepped g.Fills (List.range g.size) (g.leavesOf s) g.size t ∧ g.Settled t ∧
        ∀ (i : NodeId) (v : Variable) (c : Variable.Contents), g.nodes[i]? = some (.leaf v) →
          s.slot? i = some (.contents c) → t.slot? i = some (.contents c.commit) := by
  have hseeded := h.seeded_leavesOf
  have hroom' := inRoom_leavesOf hroom
  have hslot : ∀ (i : NodeId) (v : Variable) (c : Variable.Contents),
      g.nodes[i]? = some (.leaf v) → s.slot? i = some (.contents c) →
        (g.leavesOf s).slot? i = some (.contents c.commit) := by
    intro i v c hn hc
    rw [slot?_leavesOf, hn, hc]
    rfl
  obtain ⟨t, hrun⟩ := hseeded.filled hb hroom' (fun i v hn hnone => by
    obtain ⟨c, hc, -⟩ := h.leaves i v hn
    rw [hslot i v c hn hc] at hnone
    cases hnone) hwords hw
  have hstepped := forM_initializeNode_stepped local_fills hseeded.size hrun
  refine ⟨t, initializeRemaining_eq_ok.mpr ⟨⟨hseeded.graph, hseeded.size⟩, hrun⟩, hstepped,
    settled_of_filled hseeded hstepped hb hroom', fun i v c hn hc => ?_⟩
  obtain ⟨new, hnew, ht⟩ := hstepped.slot_of_mem hn (List.mem_range.mpr (lt_size hn))
  rw [hslot i v c hn hc] at hnew
  rw [ht]
  exact (hnew.resolve_right fun hnone => by cases hnone.1).symm

end Planted

namespace Settled

variable (h : g.Settled s)
include h

theorem planted : g.Planted s where
  graph := h.graph
  size := h.size
  leaves i v hn := by
    obtain ⟨slot, hslot, hcur⟩ := h.current i _ hn
    cases hcur with
    | @leaf _ c hv => exact ⟨c, hslot, hv⟩

/-- **A state that is up to date shows what a new one shows**, made from its
variables alone. -/
theorem alike_rebuilt (hb : g.Built) (hnan : ¬ g.HoldsNaN) (hw : g.WatchesReadable) :
    ∃ t, g.initializeRemaining (g.leavesOf s) = .ok () t ∧
      ∀ id d, g.describe id = .ok d → g.SeenAlike s t id := by
  obtain ⟨t, hfill, -, hsettled, hslots⟩ := h.planted.rebuilt hb h.inRoom h.gathers hw
  refine ⟨t, hfill, fun id d hd =>
    SameElements.seenAlike (fun i v c hn hc => ?_) h hsettled hb hnan hd⟩
  refine ⟨c.commit, hslots i v c hn hc, ?_⟩
  rw [Variable.Contents.elements_commit]
  rfl

end Settled

end Graph
end ArrayFlow
