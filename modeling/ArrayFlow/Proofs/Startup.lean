import ArrayFlow.Proofs.Protocol

/-!
# Which graphs begin

The constructors of selections look at the arrays that they read, and `add` asks
that every node that is read is there.  A check is made without a look at what
it watches, and `add` does not ask whether that is an array.  So a graph whose
nodes were all accepted can have a check that watches a check, and this is the
only reason why it may not begin, if there is room and what the nodes compute fits
into words.

* `defaultSlot_watches`, `defaultSlot_astray` — a check gets its slot if it
  watches an array, and is a fault otherwise;
* `Built.initializeNode_error` — in a walk over the nodes nothing else fails;
* `Built.initialState_outcome` — which graphs begin, and where the others stop;
* `accepted_check_fails` — a graph that was accepted and does not begin.
-/

namespace ArrayFlow
namespace Graph

variable {g : Graph} {t u : State} {k : Nat} {w : NodeId}

/-- A check that watches a check, behind checks that watch arrays. -/
structure FirstAstray (g : Graph) (id w : NodeId) : Prop where
  check : g.nodes[id]? = some (.validation w)
  watched : ∃ v, g.nodes[w]? = some (.validation v)
  first : ∀ j < id, ∀ x, g.nodes[j]? = some (.validation x) → ∃ d, g.describe x = .ok d

/-! ### Checks -/

/-- What a check that has a slot watches is an array. -/
theorem defaultSlot_watches {new : Slot} (h : g.defaultSlot t (.validation w) = .ok new) :
    ∃ d, g.describe w = .ok d := by
  obtain ⟨xs, hxs, -⟩ := Outcome.bind_eq_ok.mp h
  obtain ⟨d, hd, -⟩ := Outcome.bind_eq_ok.mp hxs
  exact ⟨d, descriptionAt_eq_ok hd⟩

/-- A check of a check is a fault. -/
theorem defaultSlot_astray {v : NodeId} (hn : g.nodes[w]? = some (.validation v)) :
    g.defaultSlot t (.validation w) = .error (.notAnArray w) := by
  have hdescription : g.descriptionAt w = .error (.notAnArray w) :=
    Outcome.bind_eq_error.mpr (.inr ⟨_, nodeAt_eq hn, rfl⟩)
  refine Outcome.bind_eq_error.mpr (.inl ?_)
  exact Outcome.bind_eq_error.mpr (.inl hdescription)

/-- Only checks are no arrays. -/
theorem exists_validation (hlt : w < g.size) (h : ¬ ∃ d, g.describe w = .ok d) :
    ∃ v, g.nodes[w]? = some (.validation v) := by
  have hn : g.nodes[w]? = some g.nodes[w] := Array.getElem?_eq_getElem hlt
  cases hnode : g.nodes[w] with
  | validation v => exact ⟨v, hnode ▸ hn⟩
  | _ => exact absurd ⟨_, describe_eq_ok.mpr ⟨_, hnode ▸ hn, rfl⟩⟩ h

/-- Checks that were given slots watch arrays. -/
theorem watches_of_fills (h : g.Stepped g.Fills (List.range g.size) g.emptyState.1 k t) {j : Nat}
    (hj : j < k) (hn : g.nodes[j]? = some (.validation w)) : ∃ d, g.describe w = .ok d := by
  obtain ⟨node, new, hn', hnew, -⟩ := h.done j (List.mem_range.mpr (lt_size hn)) hj
  rw [hn] at hn'
  obtain rfl := Option.some.inj hn'
  rw [slot?_emptyState] at hnew
  rcases hnew with hold | ⟨-, hnew⟩
  · cases hold
  · exact defaultSlot_watches hnew

/-! ### The walk over the nodes -/

/-- **Only a check of a check gets no slot**, if there is room and nothing
overflows. -/
theorem Built.initializeNode_error (hb : g.Built) (hwords : g.InWords) (hfit : g.DefaultsFit)
    (hroom : g.InRoom g.emptyState.1) (hk : k < g.size)
    (h : g.Stepped g.Fills (List.range g.size) g.emptyState.1 k t) {e : Failure}
    (herror : g.initializeNode k t = .error e u) :
    ∃ w, g.FirstAstray k w ∧ e = .fault (.notAnArray w) := by
  have hn : g.nodes[k]? = some g.nodes[k] := Array.getElem?_eq_getElem hk
  obtain ⟨-, f, hf, rfl⟩ := initializeNode_eq_error hn herror
  have hs := seeded_emptyState g
  have hcurrent : ∀ j : Nat, j < k → g.CurrentAt t j := filled_current hs h hb hroom
  have hastray : ∃ w, g.nodes[k] = .validation w ∧ ¬ ∃ d, g.describe w = .ok d := by
    by_contra hnone
    obtain ⟨new, hnew⟩ := defaultSlot_ok hs h hb hroom (Nat.le_refl k) hcurrent hn
      (fun v hv => ⟨hwords k (.leaf v) (hv ▸ hn), hfit k v (hv ▸ hn)⟩)
      (fun a ha => hwords k (.advanced a) (ha ▸ hn))
      fun w hw => by
        obtain ⟨d, hd⟩ := not_not.mp fun hnot => hnone ⟨w, hw, hnot⟩
        have hplain := hwords.plain (hw ▸ hn) hd
        exact ⟨d, hd, hplain.framed, hplain.counts⟩
    rw [hf] at hnew
    cases hnew
  obtain ⟨w, hw, hnot⟩ := hastray
  rw [hw] at hn hf
  have hlt : w < g.size := Nat.lt_trans (lt_of_validation hn) hk
  obtain ⟨v, hv⟩ := exists_validation hlt hnot
  rw [defaultSlot_astray hv] at hf
  obtain rfl := Except.error.inj hf
  exact ⟨w, ⟨hn, ⟨v, hv⟩, fun j hj x hx => watches_of_fills h hj hx⟩, rfl⟩

/-- **Which graphs begin.**  All nodes were accepted, there is room, and what the
nodes compute fits into words.  If every check watches an array, a state is made in which every node has a slot.
Otherwise the first check that watches a check ends the computation. -/
theorem Built.initialState_outcome (hb : g.Built) (hwords : g.InWords) (hfit : g.DefaultsFit)
    (hroom : g.InRoom g.emptyState.1) :
    (g.WatchesArrays → ∃ s, g.initialState = .ok (s, g.freeze) ∧
      ∀ id < g.size, s.isInitialized id = true) ∧
    (¬ g.WatchesArrays → ∃ id w, g.FirstAstray id w ∧
      g.initialState = .error (.fault (.notAnArray w))) := by
  have hsize : g.emptyState.1.size = g.size := (seeded_emptyState g).size
  unfold initialState
  cases hrun : (List.range g.size).forM g.initializeNode g.emptyState.1 with
  | ok _ s =>
    have hstepped := forM_initializeNode_stepped local_fills hsize hrun
    constructor
    · intro _
      refine ⟨s, rfl, fun id hid => ?_⟩
      obtain ⟨_, new, -, -, hslot⟩ := hstepped.done id (List.mem_range.mpr hid) hid
      rw [State.isInitialized, hslot]
      rfl
    · intro hastray
      exact absurd (fun id w hn => watches_of_fills hstepped (lt_size hn) hn) hastray
  | error e s =>
    obtain ⟨k, t, hk, hstepped, herror⟩ := forM_initializeNode_error local_fills hsize hrun
    obtain ⟨w, hfirst, rfl⟩ := hb.initializeNode_error hwords hfit hroom hk hstepped herror
    constructor
    · intro hwatches
      obtain ⟨v, hv⟩ := hfirst.watched
      obtain ⟨d, hd⟩ := hwatches k w hfirst.check
      cases description?_eq hv hd
    · intro _
      exact ⟨k, w, hfirst, rfl⟩

/-- Three integers with a check, a check of the check, and a check of that. -/
def tower : Graph :=
  ((((Graph.empty 0).extend
    fun _ => Node.leaf <$> Variable.integer <$> IntegerVariable.ofBounds [3] 0 9).extend
      fun _ => .ok (.validation 0)).extend fun _ => .ok (.validation 1)).extend
        fun _ => .ok (.validation 2)

theorem built_tower : tower.Built := by
  refine .extend (.extend (.extend (.extend_leaf (.empty 0) _) ?_) ?_) ?_
  all_goals
    intro n hn
    obtain rfl := Except.ok.inj hn
    exact .validation _

/-- The table begins.  The tower stops at the lower one of two checks that watch
checks. -/
theorem table_begins_tower_stops :
    ((table.Built ∧ table.InWords ∧ table.DefaultsFit ∧ table.InRoom table.emptyState.1 ∧
        table.WatchesArrays) ∧
      ∃ s, table.initialState = .ok (s, table.freeze) ∧
        ∀ id < table.size, s.isInitialized id = true) ∧
    ((tower.Built ∧ tower.InWords ∧ tower.DefaultsFit ∧ tower.InRoom tower.emptyState.1 ∧
        ¬ tower.WatchesArrays) ∧
      ∃ id w, tower.FirstAstray id w ∧ tower.initialState = .error (.fault (.notAnArray w))) := by
  have hwords : table.InWords := by decide +kernel
  have hfit : table.DefaultsFit := by decide +kernel
  have hroom : table.InRoom table.emptyState.1 := by decide +kernel
  have hwatches : table.WatchesArrays := by decide +kernel
  have hwords' : tower.InWords := by decide +kernel
  have hfit' : tower.DefaultsFit := by decide +kernel
  have hroom' : tower.InRoom tower.emptyState.1 := by decide +kernel
  have hastray : ¬ tower.WatchesArrays := by decide +kernel
  exact ⟨⟨⟨built_table, hwords, hfit, hroom, hwatches⟩,
      (built_table.initialState_outcome hwords hfit hroom).1 hwatches⟩,
    ⟨built_tower, hwords', hfit', hroom', hastray⟩,
      (built_tower.initialState_outcome hwords' hfit' hroom').2 hastray⟩

/-- **A graph that was accepted and does not begin.** -/
theorem accepted_check_fails :
    tower.Built ∧ tower.size = 4 ∧ tower.InWords ∧ tower.DefaultsFit ∧
      tower.InRoom tower.emptyState.1 ∧ tower.initialState = .error (.fault (.notAnArray 1)) :=
  ⟨built_tower, rfl, by decide +kernel, by decide +kernel, by decide +kernel, rfl⟩

end Graph
end ArrayFlow
