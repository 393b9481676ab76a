import ArrayFlow.Proofs.Protocol

/-!
# Refusals change nothing

A request is a call, or one of the two requests that are made of two bulk
calls.  All checks of a bulk call come before its first new slot, and after
a bulk call that was accepted its nodes are still ready; so the second of two
bulk calls is never refused (`accepts_stepAll_after`).

* `request_refused` — a refused request leaves the state as it was;
* `request_foreign` — every request that gets to look at a state of another
  graph is refused;
* `add_refused` — a refused node leaves the graph as it was.
-/

namespace ArrayFlow

/-- A call that changes a state, or two bulk calls in one. -/
inductive Request where
  | call (c : Call)
  | propagateAndCommit (sources : List NodeId)
  | propagateAndRevert (sources : List NodeId)

/-- What a request does. -/
def Graph.request (g : Graph) : Request → Change Unit
  | .call c => g.call c
  | .propagateAndCommit sources => g.propagateAndCommit sources
  | .propagateAndRevert sources => g.propagateAndRevert sources

/-- The request gets to look at the state: the handle of a seed or an edit is
one of the graph, and a bulk call has nodes to ask for. -/
def Request.Looks (g : Graph) : Request → Prop
  | .call (.seed h _) => ∃ v, g.variableOf h = .ok v
  | .call (.edit id e) => ∃ v, g.variableOf ⟨id, e.kind⟩ = .ok v
  | .call .initializeRemaining => True
  | .call (.propagate ids) => ids ≠ []
  | .call (.commit ids) => ids ≠ []
  | .call (.revert ids) => ids ≠ []
  | .propagateAndCommit _ => True
  | .propagateAndRevert _ => True

/-- Why a run was refused, if it was. -/
def Outcome.refusal? {σ α : Type} : EStateM.Result Failure σ α → Option Refusal
  | .error (.refused r) _ => some r
  | _ => none

/-- A run that can be evaluated was refused. -/
theorem Outcome.refused_of_refusal? {σ α : Type} {x : EStateM.Result Failure σ α} {r : Refusal}
    (h : Outcome.refusal? x = some r) : ∃ s, x = .error (.refused r) s := by
  cases x with
  | ok a s => cases h
  | error e s =>
    cases e with
    | refused r' =>
      obtain rfl := Option.some.inj h
      exact ⟨s, rfl⟩
    | fault f => cases h

/-- A computation ends at the first check that refuses. -/
theorem Change.bind_of_refused {α β : Type} {check : Except Refusal α} {f : α → Change β}
    {r : Refusal} (h : check = .error r) (s : State) :
    ((liftM check : Change α) >>= f) s = .error (.refused r) s := by
  rw [h]
  rfl

namespace Graph

open Change

variable {g : Graph} {s s' t : State} {ids : List NodeId} {q : Request} {r : Refusal}
  {step step' : State → Node → Slot → Except Fault Slot}

/-! ### Two bulk calls in one -/

/-- The nodes of a bulk call are ready for the next one. -/
theorem ready_after_stepAll (hl : g.Local (Takes step)) (h : g.stepAll step ids s = .ok () t) :
    ∀ i ∈ ids, g.checkReady t i = .ok () := by
  obtain ⟨hstepped, hready⟩ := stepAll_stepped hl h
  intro i hi
  obtain ⟨⟨hgraph, hsize⟩, hlt⟩ := checkReady_eq_ok (hready i hi)
  obtain ⟨node, new, -, -, ht⟩ := hstepped.done i hi hlt
  have hstate : g.checkState t = .ok () :=
    checkState_eq_ok.mpr ⟨hstepped.graph.trans hgraph, hstepped.size.trans hsize⟩
  refine Outcome.bind_eq_ok.mpr ⟨(), hstate, ?_⟩
  refine Outcome.guard_eq_ok.mpr ⟨Nat.not_le_of_lt hlt, ?_⟩
  rw [State.isInitialized, ht]
  rfl

/-- A bulk call on ready nodes is not refused. -/
theorem accepts_stepAll_of_ready (hready : ∀ i ∈ ids, g.checkReady s i = .ok ()) :
    g.stepAll step ids s ≠ .error (.refused r) s' := by
  intro h
  have hprepared : (liftM (g.prepare s ids) : Change (List NodeId)) s =
      .ok (Ascending.sorted ids) s :=
    Outcome.run_refusal_eq_ok.mpr ⟨prepare_eq_ok.mpr ⟨rfl, hready⟩, rfl⟩
  have hwalk : (Ascending.sorted ids).forM (g.stepNode step) s = .error (.refused r) s' :=
    (Outcome.run_bind_of_ok hprepared).symm.trans h
  exact accepts_forM (accepts_stepNode step) s s' r hwalk

/-- A bulk call is not refused right after another one with its nodes. -/
theorem accepts_stepAll_after (hl : g.Local (Takes step)) (h : g.stepAll step ids s = .ok () t) :
    g.stepAll step' ids t ≠ .error (.refused r) s' :=
  accepts_stepAll_of_ready (ready_after_stepAll hl h)

/-- Two bulk calls on what depends on some nodes leave the state as it was if
they are refused. -/
theorem stays_twoSteps (hl : g.Local (Takes step)) (sources : List NodeId) :
    Stays (do
      let ids ← g.descendants (← get) sources
      g.stepAll step ids
      g.stepAll step' ids : Change Unit) := by
  refine .bind reads_get fun s => .bind (reads_refusal _) fun ids => ?_
  intro s s' r h
  change EStateM.bind (g.stepAll step ids) (fun _ => g.stepAll step' ids) s = _ at h
  unfold EStateM.bind at h
  split at h
  · next t hfirst => exact absurd h (accepts_stepAll_after hl hfirst)
  · next e t hfirst =>
    cases h
    exact stays_stepAll step ids s s' r hfirst

/-- **A refused request leaves the state as it was.** -/
theorem request_refused (h : g.request q s = .error (.refused r) s') : s' = s := by
  cases q with
  | call c => exact call_refused h
  | propagateAndCommit sources => exact stays_twoSteps local_propagateSlot sources s s' r h
  | propagateAndRevert sources => exact stays_twoSteps local_propagateSlot sources s s' r h

/-! ### States of other graphs -/

section Foreign

variable (hforeign : s.graph ≠ g.identity)
include hforeign

theorem checkOwn_foreign : g.checkOwn s = .error .stateMismatch := if_neg hforeign

theorem checkState_foreign : g.checkState s = .error .stateMismatch :=
  if_neg fun h => hforeign h.1

theorem prepare_foreign (hids : ids ≠ []) : g.prepare s ids = .error .stateMismatch := by
  obtain ⟨i, rest, hsorted⟩ : ∃ i rest, Ascending.sorted ids = i :: rest := by
    obtain ⟨i, hi⟩ := List.exists_mem_of_ne_nil ids hids
    exact List.exists_cons_of_ne_nil (List.ne_nil_of_mem (Ascending.mem_sorted.mpr hi))
  have hfirst : g.checkReady s i = .error .stateMismatch := by
    rw [checkReady, checkState_foreign hforeign]
    rfl
  have hwalk : (Ascending.sorted ids).forM (g.checkReady s) = .error .stateMismatch := by
    rw [hsorted]
    exact Outcome.bind_eq_error.mpr (.inl hfirst)
  exact Outcome.bind_eq_error.mpr (.inl hwalk)

theorem stepAll_foreign (hids : ids ≠ []) :
    g.stepAll step ids s = .error (.refused .stateMismatch) s :=
  (Outcome.run_bind_of_ok rfl).trans (bind_of_refused (prepare_foreign hforeign hids) s)

theorem descendants_foreign (sources : List NodeId) :
    g.descendants s sources = .error .stateMismatch := by
  rw [descendants, checkState_foreign hforeign]
  rfl

/-- **A request that looks at a state of another graph is refused.** -/
theorem request_foreign (hq : q.Looks g) :
    g.request q s = .error (.refused .stateMismatch) s := by
  have hread : (get : Change State) s = .ok s s := rfl
  cases q with
  | call c =>
    cases c with
    | seed h values =>
      obtain ⟨v, hv⟩ := hq
      refine (Outcome.run_bind_of_ok (Outcome.run_fault_eq_ok.mpr ⟨hv, rfl⟩)).trans ?_
      exact (Outcome.run_bind_of_ok hread).trans (bind_of_refused (checkOwn_foreign hforeign) s)
    | edit id e =>
      obtain ⟨v, hv⟩ := hq
      refine (Outcome.run_bind_of_ok (Outcome.run_fault_eq_ok.mpr ⟨hv, rfl⟩)).trans ?_
      exact (Outcome.run_bind_of_ok hread).trans (bind_of_refused (checkOwn_foreign hforeign) s)
    | initializeRemaining =>
      exact (Outcome.run_bind_of_ok hread).trans (bind_of_refused (checkState_foreign hforeign) s)
    | propagate ids => exact stepAll_foreign hforeign hq
    | commit ids => exact stepAll_foreign hforeign hq
    | revert ids => exact stepAll_foreign hforeign hq
  | propagateAndCommit sources =>
    exact (Outcome.run_bind_of_ok hread).trans
      (bind_of_refused (descendants_foreign hforeign sources) s)
  | propagateAndRevert sources =>
    exact (Outcome.run_bind_of_ok hread).trans
      (bind_of_refused (descendants_foreign hforeign sources) s)

end Foreign

/-! ### Nodes that are refused -/

/-- **A refused node leaves the graph as it was.** -/
theorem add_refused {node : Node} {g' : Graph} (h : Graph.add node g = .error r g') : g' = g := by
  unfold Graph.add at h
  rw [Outcome.run_bind_of_ok (show (get : EStateM Refusal Graph Graph) g = .ok g g from rfl)] at h
  rcases Outcome.run_guard_eq_error.mp h with ⟨-, -, heq⟩ | ⟨-, h⟩
  · exact heq.symm
  rcases Outcome.run_guard_eq_error.mp h with ⟨-, -, heq⟩ | ⟨-, h⟩
  · exact heq.symm
  obtain ⟨c, hc, hdef⟩ : ∃ c : EStateM Refusal Graph NodeId, c g = .error r g' ∧ c = _ :=
    ⟨_, h, rfl⟩
  split at hdef
  · subst hdef
    cases hc
    rfl
  · subst hdef
    cases hc

/-- **Refusals change nothing.**  Whatever the graph and the state, a refused
request leaves all slots as they were, a request that looks at a state of
another graph is refused, and a refused node leaves the graph as it was. -/
theorem refusals_change_nothing (g : Graph) :
    (∀ q s s' r, g.request q s = .error (.refused r) s' → s' = s) ∧
      (∀ q s, s.graph ≠ g.identity → q.Looks g →
        g.request q s = .error (.refused .stateMismatch) s) ∧
      ∀ node r g', Graph.add node g = .error r g' → g' = g :=
  ⟨fun _ _ _ _ => request_refused, fun _ _ => request_foreign, fun _ _ _ => add_refused⟩

open Table in
/-- The second of two rows breaks a bound, the last node of a bulk call is not
there, a state is one of another graph, and the table is frozen. -/
theorem table_refusals_change_nothing :
    table.request
          (.call (.edit 0 (.rows (.grow [.ofInt 1, .ofInt 2, .ofInt 3, .ofInt 10])))) grown =
        .error (.refused (.valueOutOfBounds (.ofInt 10) (.ofInt 0) (.ofInt 9))) grown ∧
      table.request (.call (.commit [0, 1, 7])) grown = .error (.refused (.unknownNode 7)) grown ∧
      table.request (.propagateAndRevert [0]) { grown with graph := 1 } =
        .error (.refused .stateMismatch) { grown with graph := 1 } ∧
      Graph.add (.validation 2) table.freeze = .error .graphFrozen table.freeze := by
  obtain ⟨hrequests, hforeign, -⟩ := refusals_change_nothing table
  obtain ⟨-, -, hnodes⟩ := refusals_change_nothing table.freeze
  refine ⟨?_, ?_, hforeign (.propagateAndRevert [0]) _ (by decide +kernel) trivial, ?_⟩
  · obtain ⟨s', h⟩ := Outcome.refused_of_refusal?
      (x := table.request (.call (.edit 0 (.rows (.grow
        [.ofInt 1, .ofInt 2, .ofInt 3, .ofInt 10])))) grown)
      (r := .valueOutOfBounds (.ofInt 10) (.ofInt 0) (.ofInt 9)) (by decide +kernel)
    exact h.trans (congrArg _ (hrequests _ _ _ _ h))
  · obtain ⟨s', h⟩ := Outcome.refused_of_refusal?
      (x := table.request (.call (.commit [0, 1, 7])) grown) (r := .unknownNode 7)
      (by decide +kernel)
    exact h.trans (congrArg _ (hrequests _ _ _ _ h))
  · obtain ⟨g', h⟩ : ∃ g', Graph.add (.validation 2) table.freeze = .error .graphFrozen g' :=
      ⟨_, rfl⟩
    exact h.trans (congrArg _ (hnodes _ _ _ h))

end Graph
end ArrayFlow
