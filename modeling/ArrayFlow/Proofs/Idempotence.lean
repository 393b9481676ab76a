import ArrayFlow.Proofs.Progress
import ArrayFlow.Proofs.Search

/-!
# Propagating once is enough

A node whose slot is current reads again what it has read before.  The pending
records of the nodes that it reads are those since the last commit, so they
may name any number of positions, but every one of them already holds the
offset and the value that it would be given, and a write of an equal value
records nothing (`refresh_eq_of_mirrors`).  So in a state that is up to date a
step leaves the slot as it is (`Settled.propagateSlot_eq`), and therefore

* `run_propagate_again` — propagating once more changes nothing at all,
  wherever it goes;
* `run_descendants_enough` — propagating to all nodes leads to the same state
  as propagating to the variables that were edited and what depends on them.

A NaN is unequal to itself and would be recorded each time it is read, so
there must not be any.
-/

namespace ArrayFlow

/-- Writing what stands there changes nothing, unless it is a NaN. -/
theorem Journal.set_eq_self {j : Journal Binary64} {p : Nat} {old v : Binary64}
    (hp : j.values[p]? = some old) (hv : v.place? = old.place?) (hnan : v ≠ .nan) :
    j.set p v = j := by
  have hold : old ≠ .nan := fun h =>
    hnan (Binary64.place?_eq_none.mp (hv.trans (Binary64.place?_eq_none.mpr h)))
  unfold Journal.set
  rw [hp]
  dsimp only
  rw [if_pos (Binary64.beq_of_place?_eq hv.symm hold)]

/-- Reading the same again changes nothing, unless it is a NaN. -/
theorem Gathered.update_eq_self {x : Gathered} {p f : Nat} {v : Binary64}
    (h : x.reading p = some (f, v.place?)) (hnan : v ≠ .nan) : x.update p f v = x := by
  obtain ⟨old, hold, hrest⟩ := Option.bind_eq_some_iff.mp h
  obtain ⟨place, hplace, hpair⟩ := Option.map_eq_some_iff.mp hrest
  obtain ⟨w, hw, rfl⟩ := Option.map_eq_some_iff.mp hplace
  obtain ⟨rfl, heq⟩ := Prod.mk.inj hpair
  unfold Gathered.update
  rw [Journal.set_eq_self hw heq.symm hnan, hold]
  dsimp only
  rw [if_pos rfl]

namespace AdvancedIndexing

variable {a : AdvancedIndexing} {b : Blocks} {view : NodeId → View} {source : View} {x : Gathered}

theorem updateAll_eq_self {entry : Nat → Except Fault (Nat × Binary64)} {off : Nat → Nat}
    {cell : Nat → Binary64} {ps : List Nat}
    (hps : ∀ p ∈ ps, p < x.size) (hentry : ∀ p ∈ ps, entry p = .ok (off p, cell (off p)))
    (hself : ∀ p ∈ ps, x.update p (off p) (cell (off p)) = x) :
    ps.foldlM (fun x p => do
      let (f, v) ← entry p
      x.store p f v) x = .ok x := by
  induction ps with
  | nil => rfl
  | cons p ps ih =>
    obtain ⟨hlt, hps⟩ := List.forall_mem_cons.mp hps
    obtain ⟨hp, hentry⟩ := List.forall_mem_cons.mp hentry
    obtain ⟨hx, hself⟩ := List.forall_mem_cons.mp hself
    rw [List.foldlM_cons, hp]
    exact Outcome.bind_eq_ok.mpr ⟨x, Gathered.store_eq_ok.mpr ⟨hlt, hx⟩, ih hps hentry hself⟩

/-- A selection that holds what it would read does not change when it is
brought up to date, whatever the pending records name. -/
theorem refresh_eq_of_mirrors {indexerDiffs : List (List (Update Binary64))}
    {sourceDiff : List (Update Binary64)} (hcount : b.count = .ok b.size)
    (hx : x.Mirrors b.size (a.offset b view) source.cell) (h : a.CanRead view b.broadcast)
    (hs : source.Readable) (hf : ∀ p < b.size, a.offset b view p < source.size)
    (hnan : ∀ k < source.size, source.cell k ≠ .nan) :
    a.refresh b (a.indexers.map (view ·.node)) source indexerDiffs sourceDiff x = .ok x := by
  have hdirty : ∀ p ∈ a.dirtyPositions b indexerDiffs sourceDiff x.readers b.size, p < b.size :=
    fun p hp => lt_of_mem_dirtyPositions hp
  have hupdates := updateAll_eq_self (x := x) (fun p hp => hx.size ▸ hdirty p hp)
    (fun p hp => entry_eq h hs (hdirty p hp) (hf p (hdirty p hp)))
    fun p hp => Gathered.update_eq_self (hx.reading p (hdirty p hp)) (hnan _ (hf p (hdirty p hp)))
  unfold refresh
  rw [hcount, Outcome.ok_bind]
  simp only [hx.size, Nat.min_self, Nat.sub_self]
  rw [show Nat.repeat Gathered.pop 0 x = x from rfl, hupdates]
  rfl

end AdvancedIndexing

namespace Graph

variable {g : Graph} {s t t' committed now : State} {id : NodeId} {node : Node} {d : Description}
  {ids edited waiting sources : List NodeId}

/-! ### One step in a state that is up to date -/

namespace Settled

variable (h : g.Settled t)
include h

variable (hb : g.Built) (hnan : ¬ g.HoldsNaN)
include hb hnan

/-- The step for an array leaves its slot alone. -/
theorem propagateSlot_array (hd : g.describe id = .ok d) (hn : g.nodes[id]? = some node)
    {slot : Slot} (hslot : t.slot? id = some slot) :
    g.propagateSlot t node slot = .ok slot := by
  obtain ⟨slot', hslot', hcur⟩ := h.current id node hn
  rw [hslot] at hslot'
  obtain rfl := Option.some.inj hslot'
  cases hcur with
  | constant c => rfl
  | leaf _ => rfl
  | @basic b diff hdiff =>
    obtain ⟨hsource, -⟩ := hb.promises hn
    exact propagateSlot_basic.mpr ⟨_, _, (h.current b.source).diffAt_eq hsource, hdiff, rfl⟩
  | @advanced a x hx =>
    obtain ⟨picked, hfits⟩ := hb.promises hn
    have hwords := h.gathers.at hn
    have hsource := h.seen hb hfits.source hwords.source
    obtain ⟨b, hfinds⟩ := exists_finds hn hfits hwords (fun p d _ hd hf => h.seen hb hd hf) hb
      h.inRoom h.ruled (describe_eq_ok.mpr ⟨_, hn, rfl⟩)
    have hcells : ∀ k < (g.shown t a.source).size, (g.shown t a.source).cell k ≠ .nan :=
      fun k hk => (hsource.cells k hk).ne_nan hnan
    exact (hfinds.propagateSlot_eq_ok hn hfits fun j _ => h.current j).mpr
      ⟨x, AdvancedIndexing.refresh_eq_of_mirrors hfinds.count (hfinds.mirrors_iff.mpr hx)
        hfinds.canRead hfinds.readable hfinds.offset_lt hcells, rfl⟩
  | validation w xs => cases description?_eq hn hd

/-- **A step in a state that is up to date** leaves the slot alone, unless it
fails. -/
theorem propagateSlot_eq (hn : g.nodes[id]? = some node) {slot new : Slot}
    (hslot : t.slot? id = some slot) (hnew : g.propagateSlot t node slot = .ok new) :
    new = slot := by
  cases hnode : node.description? id with
  | some d =>
    have hsame := h.propagateSlot_array hb hnan (describe_eq_ok.mpr ⟨node, hn, hnode⟩) hn hslot
    exact Except.ok.inj (hnew.symm.trans hsame)
  | none =>
    -- only a check has no description, and it stores nothing
    obtain ⟨slot', hslot', hcur⟩ := h.current id node hn
    rw [hslot] at hslot'
    obtain rfl := Option.some.inj hslot'
    cases hcur with
    | validation w xs =>
      obtain ⟨_, -, hnew⟩ := Outcome.bind_eq_ok.mp hnew
      exact (Except.ok.inj hnew).symm
    | _ => cases hnode

/-- No slot changes on a walk over some nodes. -/
theorem slot?_stepped {k : Nat} (hs : g.Stepped (Takes g.propagateSlot) ids t k t') (i : Nat) :
    t'.slot? i = t.slot? i := by
  induction i using Nat.strong_induction_on with
  | _ i ih =>
    rcases hs.slot_cases i with ⟨-, heq⟩ | ⟨-, node, new, hn, ⟨slot, hslot, hnew⟩, hput⟩
    · exact heq
    · rw [propagateSlot_below hn ih] at hnew
      rw [hput, hslot, h.propagateSlot_eq hb hnan hn hslot hnew]

/-- Propagating once more changes nothing. -/
theorem propagate_eq (hp : g.propagate ids t = .ok () t') : t' = t := by
  have hs := (stepAll_stepped local_propagateSlot hp).1
  exact State.ext_slot? hs.graph hs.size (h.slot?_stepped hb hnan hs)

/-- Propagating once more to arrays does not fail. -/
theorem propagate_arrays (harrays : ∀ i ∈ ids, ∃ d, g.describe i = .ok d) :
    g.propagate ids t = .ok () t := by
  have hready : ∀ i ∈ ids, g.checkReady t i = .ok () := fun i hi => by
    obtain ⟨d, hd⟩ := harrays i hi
    obtain ⟨node, hn, -⟩ := describe_eq_ok.mp hd
    exact h.full.checkReady (lt_size hn)
  obtain ⟨t', hrun⟩ := stepAll_ok local_propagateSlot hready fun k u hk hs => by
    obtain ⟨d, hd⟩ := harrays k hk
    obtain ⟨node, hn, -⟩ := describe_eq_ok.mp hd
    obtain ⟨slot, hslot, -⟩ := h.current k node hn
    refine ⟨node, slot, hn, slot, hslot, ?_⟩
    rw [propagateSlot_below hn fun j _ => h.slot?_stepped hb hnan hs j]
    exact h.propagateSlot_array hb hnan hd hn hslot
  have hrun : g.propagate ids t = .ok () t' := hrun
  rw [hrun, h.propagate_eq hb hnan hrun]

end Settled

/-! ### More nodes than needed -/

theorem descendants_eq (hf : g.Full s) (hsources : ∀ i ∈ sources, i < g.size) :
    g.descendants s sources = .ok (g.closure sources) :=
  descendants_of_checkState hsources (checkState_eq_ok.mpr ⟨hf.graph, hf.size⟩)

/-- A propagation that leaves everything up to date does what a propagation
to more nodes does. -/
theorem Settled.propagate_more {others : List NodeId} (h : g.Settled t) (hb : g.Built)
    (hnan : ¬ g.HoldsNaN) (hmore : ids ⊆ others) (hp : g.propagate ids s = .ok () t)
    (hp' : g.propagate others s = .ok () t') : t = t' := by
  have hstepped := (stepAll_stepped local_propagateSlot hp).1
  have hstepped' := (stepAll_stepped local_propagateSlot hp').1
  refine State.ext_slot? (hstepped.graph.trans hstepped'.graph.symm)
    (hstepped.size.trans hstepped'.size.symm) fun i => ?_
  induction i using Nat.strong_induction_on with
  | _ i ih =>
    rcases hstepped'.slot_cases i with
      ⟨hmem, heq⟩ | ⟨-, node, new', hn, ⟨slot, hslot, hnew'⟩, hput'⟩
    · rw [heq]
      exact hstepped.rest i fun hi => Nat.le_of_not_lt fun hlt => hmem ⟨hmore hi, hlt⟩
    · rw [← propagateSlot_below hn ih] at hnew'
      by_cases hi : i ∈ ids
      · obtain ⟨new, ⟨slot₁, hslot₁, hnew⟩, hput⟩ := hstepped.slot_of_mem hn hi
        rw [hslot] at hslot₁
        obtain rfl := Option.some.inj hslot₁
        rw [hput, hput', Except.ok.inj (hnew.symm.trans hnew')]
      · -- the step that is left out would have changed nothing
        have hkept := hstepped.slot_of_not_mem hi
        rw [hput', h.propagateSlot_eq hb hnan hn (hkept.trans hslot) hnew', hkept, hslot]

/-! ### During a run -/

/-- **Propagation is idempotent.**  Where no edit is waiting, propagating to
any nodes, in any order and repeated at will, leaves the whole state as it
was; to arrays it does not even fail. -/
theorem run_propagate_again (hb : g.Built) (hnan : ¬ g.HoldsNaN)
    (h : g.Run committed now edited []) (ids : List NodeId) :
    (∀ now', g.propagate ids now = .ok () now' → now' = now) ∧
      ((∀ i ∈ ids, ∃ d, g.describe i = .ok d) → g.propagate ids now = .ok () now) := by
  obtain ⟨base, past, hepoch⟩ := h.epoch hb
  have hsettled := hepoch.settled rfl
  exact ⟨fun now' hp => hsettled.propagate_eq hb hnan hp, hsettled.propagate_arrays hb hnan⟩

open Table in
/-- Both edits of the table are propagated once more, to some of its nodes. -/
theorem table_propagate_again :
    (table.Built ∧ ¬ table.HoldsNaN ∧ table.Run opened current [1, 0] []) ∧
      table.propagate [3, 0, 2, 3] current = .ok () current := by
  have hnan : ¬ table.HoldsNaN := by decide +kernel
  refine ⟨⟨built_table, hnan, run_current⟩, ?_⟩
  refine (run_propagate_again built_table hnan run_current [3, 0, 2, 3]).2 fun i hi => ?_
  have hall : ∀ i ∈ [3, 0, 2, 3], (table.describe i).isOk = true := by decide +kernel
  exact Outcome.exists_ok (hall i hi)

/-- **Descendants are enough.**  Propagating to the variables that have been
edited since the last propagation and to all that depends on them leads to
exactly the state to which propagating to all nodes leads.  As for every
propagation of a run there has to be room for the arrays, since no call can
make one that is too long. -/
theorem run_descendants_enough (hb : g.Built) (hnan : ¬ g.HoldsNaN)
    (h : g.Run committed now edited waiting) (room : g.InRoom now) {mutated : List NodeId}
    (hmutated : waiting ⊆ mutated) (hknown : ∀ i ∈ mutated, i < g.size) :
    ∃ ids, g.descendants now mutated = .ok ids ∧
      ∀ t t', g.propagate ids now = .ok () t →
        g.propagate (List.range g.size) now = .ok () t' → t = t' := by
  obtain ⟨base, past, hepoch⟩ := h.epoch hb
  have hclosed := closed_closure hknown
  refine ⟨g.closure mutated, descendants_eq hepoch.full hknown, fun t t' hp hp' => ?_⟩
  have hreached : waiting ⊆ g.closure mutated := fun i hi =>
    mem_closure_of_mem hknown (hmutated hi)
  have hsettled := hepoch.propagated.propagate hepoch.edits hb hclosed hreached room hp
  exact hsettled.propagate_more hb hnan (fun i hi => List.mem_range.mpr (hclosed.1 i hi)) hp hp'

namespace Table

/-- The first column is to stand first again. -/
def turned : State := table.after [.edit 1 (.integer (.set 0 (.ofInt 0)))] current

theorem run_turned : table.Run opened turned [1, 1, 0] [1] :=
  run_current.edit (call_eq_ok_after (c := .edit 1 _) (by decide +kernel)) (by decide +kernel)

end Table

open Table in
/-- The rows of the table need not be looked at when their order has
changed. -/
theorem table_descendants_enough :
    (table.Built ∧ ¬ table.HoldsNaN ∧ table.Run opened turned [1, 1, 0] [1] ∧
      table.InRoom turned) ∧
      table.propagate [1, 2, 3, 4] turned = table.propagate [0, 1, 2, 3, 4] turned := by
  have hnan : ¬ table.HoldsNaN := by decide +kernel
  have room : table.InRoom turned := by decide +kernel
  refine ⟨⟨built_table, hnan, run_turned, room⟩, ?_⟩
  obtain ⟨ids, hids, hsame⟩ :=
    run_descendants_enough built_table hnan run_turned room (List.Subset.refl [1]) (by decide +kernel)
  have hdescendants : table.descendants turned [1] = .ok [1, 2, 3, 4] := by decide +kernel
  obtain rfl := Except.ok.inj (hids.symm.trans hdescendants)
  have hall : List.range table.size = [0, 1, 2, 3, 4] := by decide +kernel
  rw [hall] at hsame
  obtain ⟨t, hsome⟩ : ∃ t, table.propagate [1, 2, 3, 4] turned = .ok () t :=
    ⟨_, call_eq_ok_after (c := .propagate [1, 2, 3, 4]) (by decide +kernel)⟩
  obtain ⟨t', hevery⟩ : ∃ t', table.propagate [0, 1, 2, 3, 4] turned = .ok () t' :=
    ⟨_, call_eq_ok_after (c := .propagate [0, 1, 2, 3, 4]) (by decide +kernel)⟩
  rw [hsome, hevery, hsame t t' hsome hevery]

end Graph
end ArrayFlow
