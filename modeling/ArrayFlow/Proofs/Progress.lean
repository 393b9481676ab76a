import ArrayFlow.Proofs.Protocol

/-!
# No step of a run fails

A fault would be a view read past its end, a division by zero, a slot that is
missing or of the wrong kind, or a check that finds something inconsistent.
None of them comes up in a run of the protocol: a call is carried out, or it
is refused and nothing happens (`protocol_never_fails`).

The steps for arrays only need what they read to be up to date.  The checks
need more, namely that all diffs account for the changes since the beginning
of the epoch (`checkPropagated_eq_ok`) and that a revert goes back to it
(`checkReverted_eq_ok`).  They compare numbers, so there must be no NaN.
-/

namespace ArrayFlow

/-- A list without NaN is equal to itself. -/
theorem beq_self_of_ne_nan {xs : List Binary64} (h : ∀ x ∈ xs, x ≠ .nan) : (xs == xs) = true := by
  induction xs with
  | nil => rfl
  | cons x xs ih =>
    have hx := Binary64.beq_of_place?_eq (a := x) rfl (h x List.mem_cons_self)
    rw [List.cons_beq_cons, hx, ih fun y hy => h y (List.mem_cons_of_mem x hy)]
    rfl

theorem View.mem_cells {v : View} {x : Binary64} : x ∈ v.cells ↔ ∃ k < v.size, v.cell k = x := by
  rw [View.cells, List.mem_map]
  simp only [List.mem_range]

namespace Graph

variable {g : Graph} {committed now now' base past s t : State} {edited waiting ids : List NodeId}
  {id w : NodeId} {d : Description} {k n : Nat}

/-! ### Checks -/

theorem expect_eq_ok {found : Inconsistency} {holds : Bool} (h : holds = true) :
    expect id found holds = .ok () := if_pos h

theorem Seen.ne_nan (h : g.Seen t id d) (hnan : ¬ g.HoldsNaN) :
    ∀ x ∈ (g.shown t id).cells, x ≠ .nan := by
  intro x hx
  obtain ⟨k, hk, rfl⟩ := View.mem_cells.mp hx
  exact (h.cells k hk).ne_nan hnan

theorem Seen.between (h : g.Seen t id d) (hnan : ¬ g.HoldsNaN) :
    ∀ x ∈ (g.shown t id).cells, Between d.min d.max x := by
  intro x hx
  obtain ⟨k, hk, rfl⟩ := View.mem_cells.mp hx
  rcases h.cells k hk with ⟨-, hnans, -⟩ | ⟨hbetween, -⟩
  · exact absurd hnans hnan
  · exact hbetween

/-- A word is found to be as large as the list of the values it counts. -/
theorem signed_sub_length {n k : Nat} (hn : n ≤ maxElements) (hk : k ≤ maxElements) :
    signed (signedWord n - k) = .ok (n - k : Int) := by
  have hmax : maxElements < 2 ^ 60 := by decide
  rw [signedWord_of_lt (by omega)]
  exact signed_eq_ok.mpr ⟨by omega, rfl⟩

/-- **A check after a propagation finds nothing**, if the diff accounts for the
changes. -/
theorem checkPropagated_eq_ok (hd : g.describe w = .ok d) (hplain : g.Plain w d)
    (hseen : g.Seen base w d) (hseen' : g.Seen t w d) (hroom : g.sizeBy base d ≤ maxElements)
    (hroom' : g.sizeBy t d ≤ maxElements) (hdiff : g.diffAt t w = .ok (g.pending t w))
    (haccounted : g.Accounted base t w d) (hnan : ¬ g.HoldsNaN) :
    g.checkPropagated t w (g.shown base w).cells = .ok () := by
  have hcounts := hplain.counts
  refine Outcome.bind_eq_ok.mpr ⟨d, descriptionAt_eq hd, ?_⟩
  refine Outcome.bind_eq_ok.mpr ⟨_, hseen'.view, ?_⟩
  refine Outcome.bind_eq_ok.mpr ⟨_, hseen'.sizeAt_eq hcounts hd, ?_⟩
  refine Outcome.bind_eq_ok.mpr ⟨_, hseen'.count_eq hcounts, ?_⟩
  refine Outcome.bind_eq_ok.mpr ⟨(), expect_eq_ok (beq_iff_eq.mpr hseen'.size_eq), ?_⟩
  refine Outcome.bind_eq_ok.mpr ⟨_, hseen'.extentsAt_eq hcounts hplain.row hd, ?_⟩
  have hextents := (Shape.shows_extentsOf d.shape (g.rowsIn t d.rows.origin)).size_eq
  have hlt : g.sizeBy t d < 2 ^ 64 := Nat.lt_of_le_of_lt hroom' (by decide)
  refine Outcome.bind_eq_ok.mpr
    ⟨_, RowMajor.count_eq_ok.mpr ⟨Shape.counts_extentsOf hcounts (hextents.trans_lt hlt), rfl⟩, ?_⟩
  refine Outcome.bind_eq_ok.mpr ⟨(), expect_eq_ok (beq_iff_eq.mpr hextents), ?_⟩
  have hlength : (g.shown base w).cells.length = g.sizeBy base d := by
    rw [View.length_cells, hseen.size_eq]
  refine Outcome.bind_eq_ok.mpr ⟨_, signed_sub_length hroom' (hlength ▸ hroom), ?_⟩
  refine Outcome.bind_eq_ok.mpr ⟨_, haccounted.sizeDiff, ?_⟩
  refine Outcome.bind_eq_ok.mpr ⟨(), expect_eq_ok (by rw [hlength, beq_self_eq_true]), ?_⟩
  refine Outcome.bind_eq_ok.mpr ⟨_, hdiff, ?_⟩
  refine Outcome.bind_eq_ok.mpr ⟨_, hseen'.toList_eq hcounts, ?_⟩
  refine Outcome.bind_eq_ok.mpr ⟨(), expect_eq_ok ?_, ?_⟩
  · rw [haccounted.replay]
    exact beq_self_of_ne_nan (hseen'.ne_nan hnan)
  · refine Outcome.bind_eq_ok.mpr
      ⟨_, View.elements_eq hseen'.regular.readable (hseen'.count_eq hcounts), ?_⟩
    apply Outcome.forM_eq_ok.mpr
    intro x hx
    obtain ⟨hlo, hhi⟩ := hseen'.between hnan x hx
    exact expect_eq_ok (by rw [decide_eq_true hlo, decide_eq_true hhi]; rfl)

/-- **A check after a revert finds nothing**, if what it watches is back and
has nothing pending. -/
theorem checkReverted_eq_ok (hd : g.describe w = .ok d) (hc : d.shape.Counts)
    (hseen : g.Seen base w d) (hview : g.viewAt t w = g.viewAt base w)
    (hdiff : g.diffAt t w = .ok []) (hnan : ¬ g.HoldsNaN) :
    g.checkReverted t w (g.shown base w).cells = .ok () := by
  refine Outcome.bind_eq_ok.mpr ⟨d, descriptionAt_eq hd, ?_⟩
  refine Outcome.bind_eq_ok.mpr ⟨_, hview.trans hseen.view, ?_⟩
  refine Outcome.bind_eq_ok.mpr ⟨_, hseen.toList_eq hc, ?_⟩
  refine Outcome.bind_eq_ok.mpr ⟨(), expect_eq_ok (beq_self_of_ne_nan (hseen.ne_nan hnan)), ?_⟩
  exact Outcome.bind_eq_ok.mpr ⟨_, hdiff, rfl⟩

/-! ### Bulk calls -/

/-- A slot that a commit has passed shows what it showed. -/
theorem bare_of_commit (hs : g.Sound s) (h : g.Stepped (Takes g.commitSlot) ids s k t) (i : Nat) :
    (t.slot? i).map Slot.bare = (s.slot? i).map Slot.bare := by
  rcases h.slot_cases i with ⟨-, heq⟩ | ⟨-, node, new, hn, ⟨slot, hslot, hnew⟩, ht⟩
  · rw [heq]
  · obtain ⟨-, hbare, -⟩ := commitSlot_spec (hs.owns hn hslot).1 hnew
    rw [ht, hslot]
    exact congrArg some hbare

namespace Epoch

variable (h : g.Epoch committed now edited waiting base past)
include h

theorem ready (hc : g.Closed ids) : ∀ i ∈ ids, g.checkReady now i = .ok () :=
  fun i hi => h.full.checkReady (hc.1 i hi)

/-- A node of a closed set and its slot. -/
theorem slot_of_closed (hc : g.Closed ids) {i : Nat} (hi : i ∈ ids) :
    ∃ node slot, g.nodes[i]? = some node ∧ now.slot? i = some slot ∧ node.Owns slot := by
  have hlt := hc.1 i hi
  have hn : g.nodes[i]? = some g.nodes[i] := Array.getElem?_eq_getElem hlt
  obtain ⟨slot, hslot⟩ := h.full.slots i hlt
  exact ⟨_, slot, hn, hslot, (h.sound.owns hn hslot).1⟩

/-- **A propagation succeeds.** -/
theorem propagate_ok (hb : g.Built) (hwords : g.InWords) (hnan : ¬ g.HoldsNaN)
    (hcount : g.Counted) (hc : g.Closed ids) (hids : waiting ⊆ ids) (room : g.InRoom now) :
    ∃ now', g.propagate ids now = .ok () now' := by
  refine stepAll_ok local_propagateSlot (h.ready hc) fun k t hk hstepped => ?_
  obtain ⟨node, slot, hn, hslot, ho⟩ := h.slot_of_closed hc hk
  have hsame := sameLeaves_of_stepped hstepped
  have hroom := hsame.inRoom room
  have hruled := hsame.ruled h.edits.ruled
  have hcurrent := propagate_current h.propagated h.edits hstepped hb hc hids room
  have hbefore := h.edits.before h.propagated hn hslot
  have hlogs := propagate_logs h.propagated h.edits hstepped hb hc hids room (h.logs hcount)
  refine ⟨node, ?_⟩
  cases hnd : node.description? k with
  | some d =>
    have hd : g.describe k = .ok d := describe_eq_ok.mpr ⟨node, hn, hnd⟩
    obtain ⟨new, hnew⟩ := propagateSlot_ok hb h.propagated hroom hruled hn hcurrent
      (extendsTo_propagated h.propagated hstepped (h.edits.extendsTo k)) hbefore hd
      fun j _ => hlogs j
    exact ⟨new, hn, slot, hslot, hnew⟩
  | none =>
    cases ho with
    | validation w xs =>
      obtain ⟨⟨d, hd, hframed, -⟩, rfl⟩ := h.watched k w xs hn hslot
      have hlt := lt_of_validation hn
      have hext := extendsTo_propagated h.begun hstepped (h.extendsTo k)
      have haccounted := accounted hb hcount h.begun h.clean hroom hruled hcurrent hext
        (fun j _ => hlogs j) hlt hd hframed
      have hcheck := checkPropagated_eq_ok hd (hwords.plain hn hd) (h.begun.seen hb hd hframed)
        (seen_of_current hb (h.begun.gathers k) hroom hruled hcurrent hlt hd hframed)
        (h.begun.inRoom w d hd) (hroom w d hd) ((hcurrent w hlt).diffAt_eq hd) haccounted hnan
      refine ⟨_, hn, _, hslot, Outcome.bind_eq_ok.mpr ⟨(), hcheck, rfl⟩⟩
    | _ => cases hnd

/-- **A commit succeeds**, where no edit is waiting. -/
theorem commit_ok (hb : g.Built) (hw : waiting = []) (hc : g.Closed ids) :
    ∃ now', g.commit ids now = .ok () now' := by
  refine stepAll_ok local_commitSlot (h.ready hc) fun k t hk hstepped => ?_
  obtain ⟨node, slot, hn, hslot, ho⟩ := h.slot_of_closed hc hk
  refine ⟨node, ?_⟩
  cases ho with
  | validation w xs =>
    obtain ⟨⟨d, hd, hframed, hcounts⟩, -⟩ := h.watched k w xs hn hslot
    have hseen := (h.settled hw).seen hb hd hframed
    have hview : g.viewAt t w = .ok (g.shown now w) := by
      rw [viewAt_congr fun i _ => bare_of_commit h.sound hstepped i]
      exact hseen.view
    refine ⟨.watched (g.shown now w).cells, hn, _, hslot, ?_⟩
    refine Outcome.bind_eq_ok.mpr ⟨d, descriptionAt_eq hd, ?_⟩
    refine Outcome.bind_eq_ok.mpr ⟨_, hview, ?_⟩
    exact Outcome.bind_eq_ok.mpr ⟨_, hseen.toList_eq hcounts, rfl⟩
  | _ => exact ⟨_, hn, _, hslot, rfl⟩

/-- **A revert succeeds**, at any time. -/
theorem revert_ok (hb : g.Built) (hnan : ¬ g.HoldsNaN) (hc : g.Closed ids) (hids : edited ⊆ ids) :
    ∃ now', g.revert ids now = .ok () now' := by
  refine stepAll_ok local_revertSlot (h.ready hc) fun k t hk hstepped => ?_
  obtain ⟨node, slot, hn, hslot, ho⟩ := h.slot_of_closed hc hk
  refine ⟨node, ?_⟩
  cases ho with
  | validation w xs =>
    obtain ⟨⟨d, hd, hframed, hcounts⟩, rfl⟩ := h.watched k w xs hn hslot
    have hlt := lt_of_validation hn
    have hmoved := h.moved_of_closed hc hids
    -- what lies before the check is back where the epoch began
    have hback : ∀ i : Nat, i < k → ∃ old new, base.slot? i = some old ∧ t.slot? i = some new ∧
        old.Rests new ∧ new.Clean := by
      intro i hi
      have hsize : i < g.size := Nat.lt_trans hi (lt_size hn)
      obtain ⟨old, hold⟩ := h.begun.full.slots i hsize
      obtain ⟨new, hnew, hrest, hclean⟩ := revert_rests h.clean hmoved hstepped hi hsize hold
      exact ⟨old, new, hold, hnew, hrest, hclean⟩
    have hview : g.viewAt t w = g.viewAt base w := by
      refine viewAt_congr fun i hi => ?_
      obtain ⟨old, new, hold, hnew, hrest, -⟩ := hback i (Nat.lt_of_le_of_lt hi hlt)
      rw [hold, hnew]
      exact congrArg some hrest.bare_eq
    have hdiff : g.diffAt t w = .ok [] := by
      obtain ⟨node, hn', -⟩ := describe_eq_ok.mp hd
      obtain ⟨old, new, hold, hnew, hrest, hclean⟩ := hback w hlt
      have howns := (h.begun.sound h.clean).owns hn' hold
      rw [diffAt_of_owns hd hn' (hrest.owns howns.1) hnew, hclean.quiet.diff_eq]
    have hcheck := checkReverted_eq_ok hd hcounts (h.begun.seen hb hd hframed) hview hdiff hnan
    exact ⟨_, hn, _, hslot, Outcome.bind_eq_ok.mpr ⟨(), hcheck, rfl⟩⟩
  | _ => exact ⟨_, hn, _, hslot, rfl⟩

end Epoch

/-! ### Edits -/

/-- An edit for the kind of a variable is made or refused, if its elements can
be counted. -/
theorem edit_answers {v : Variable} {e : Variable.Edit} (hf : g.Full s) (hs : g.Sound s)
    (hr : g.Ruled s) (hroom : s.RoomAt id) (hn : g.nodes[id]? = some (.leaf v))
    (hk : v.kind = e.kind) (hfits : e.length ≤ maxElements) :
    (∃ s', g.edit id e s = .ok () s') ∨ ∃ r, g.edit id e s = .error (.refused r) s := by
  obtain ⟨slot, hslot⟩ := hf.slots id (lt_size hn)
  obtain ⟨ho, -⟩ := hs.owns hn hslot
  cases ho with
  | leaf _ c =>
    obtain ⟨w, x, ⟨hw, -⟩, -, hx, heq⟩ | ⟨hnone, -⟩ := g.edit_eq id e s
    · rw [hn] at hw
      obtain rfl := Node.leaf.inj (Option.some.inj hw)
      have hmanages : v.Manages x e := ⟨hr id v x hn hx, hk, hroom x hx, hfits⟩
      rcases v.edit_outcome id e x with ⟨x', hedit, -⟩ | ⟨f, hedit, hrefused⟩
      · exact .inl ⟨_, by rw [heq, hedit]; rfl⟩
      · obtain ⟨r, rfl⟩ := hrefused hmanages
        refine .inr ⟨r, ?_⟩
        rw [heq, hedit, putBack, State.put_slot? hx]
    · exact absurd hslot (hnone v c hn hk hf.graph)

/-! ### Runs -/

/-- The calls that the protocol allows in a state.  A variable is edited
through a handle of its kind.  An edit brings no more elements than an array can
hold, and leaves room for them. -/
inductive Permitted (g : Graph) (now : State) (edited waiting : List NodeId) : Call → Prop
  | edit {id : NodeId} {v : Variable} {e : Variable.Edit} (hn : g.nodes[id]? = some (.leaf v))
      (hk : v.kind = e.kind) (fits : e.length ≤ maxElements)
      (room : ∀ now', g.edit id e now = .ok () now' → now'.RoomAt id) :
      Permitted g now edited waiting (.edit id e)
  | propagate {ids : List NodeId} (closed : g.Closed ids) (reached : waiting ⊆ ids)
      (room : g.InRoom now) : Permitted g now edited waiting (.propagate ids)
  | commit {ids : List NodeId} (settled : waiting = []) (closed : g.Closed ids)
      (reached : edited ⊆ ids) : Permitted g now edited waiting (.commit ids)
  | revert {ids : List NodeId} (closed : g.Closed ids) (reached : edited ⊆ ids) :
      Permitted g now edited waiting (.revert ids)

/-- A seeded state can be filled, if there is room, and a run can begin with
the result. -/
theorem Seeded.run (hs : g.Seeded s) (hr : g.Reached s) (hb : g.Built) (hwords : g.InWords)
    (hw : g.WatchesArrays) (hfit : g.DefaultsFit) (hroom : g.InRoom s) :
    ∃ t, (List.range g.size).forM g.initializeNode s = .ok () t ∧
      g.initializeRemaining s = .ok () t ∧ g.Run t t [] [] := by
  obtain ⟨t, hrun⟩ := hs.filled hb hroom
    (fun id v hn _ => ⟨hwords id _ hn, hfit id v hn⟩) hwords.gathers (hw.readable hwords)
  have hfill := initializeRemaining_eq_ok.mpr ⟨⟨hs.graph, hs.size⟩, hrun⟩
  exact ⟨t, hrun, hfill, .start (.of_seeded hr hs hroom hfill)⟩

/-- **No step of a run fails.**  If what the nodes compute fits into words, no
constant holds a NaN, the rows of all row arrays have elements and every check
watches an array, then a state can be filled, whether or not variables have been
seeded before, as long as there is room.  A call that the protocol allows is carried out, and the run goes on, or
it is refused and the state stays as it was. -/
theorem protocol_never_fails (hb : g.Built) (hwords : g.InWords) (hnan : ¬ g.HoldsNaN)
    (hcount : g.Counted) (hw : g.WatchesArrays) :
    (g.DefaultsFit →
      (g.InRoom g.emptyState.1 →
        ∃ s, g.initialState = .ok (s, g.freeze) ∧ g.Run s s [] []) ∧
      ∀ s, g.Seeded s → g.Reached s → g.InRoom s →
        ∃ t, g.initializeRemaining s = .ok () t ∧ g.Run t t [] []) ∧
    ∀ committed now edited waiting c, g.Run committed now edited waiting →
      g.Permitted now edited waiting c →
        (∃ now', g.call c now = .ok () now' ∧
          ∃ committed' edited' waiting', g.Run committed' now' edited' waiting') ∨
        ∃ r, g.call c now = .error (.refused r) now := by
  constructor
  · intro hfit
    constructor
    · intro hroom
      obtain ⟨s, hrun, -, hstart⟩ := (seeded_emptyState g).run .start hb hwords hw hfit hroom
      refine ⟨s, ?_, hstart⟩
      unfold initialState
      rw [hrun]
      rfl
    · intro s hs hr hroom
      obtain ⟨t, -, hfill, hstart⟩ := hs.run hr hb hwords hw hfit hroom
      exact ⟨t, hfill, hstart⟩
  · intro committed now edited waiting c hrun hpermitted
    obtain ⟨base, past, hepoch⟩ := hrun.epoch hb
    cases hpermitted with
    | @edit id v e hn hk fits room =>
      have hroom : now.RoomAt id := fun c hc => hepoch.leaves hcount id v c hn hc
      rcases edit_answers hepoch.full hepoch.sound hepoch.edits.ruled hroom hn hk fits with
        ⟨now', he⟩ | hr
      · exact .inl ⟨now', he, _, _, _, hrun.edit he (room now' he)⟩
      · exact .inr hr
    | propagate closed reached room =>
      obtain ⟨now', hp⟩ := hepoch.propagate_ok hb hwords hnan hcount closed reached room
      exact .inl ⟨now', hp, _, _, _, hrun.propagate closed reached room hp⟩
    | commit settled closed reached =>
      subst settled
      obtain ⟨now', hc⟩ := hepoch.commit_ok hb rfl closed
      exact .inl ⟨now', hc, _, _, _, hrun.commit closed reached hc⟩
    | revert closed reached =>
      obtain ⟨now', hr⟩ := hepoch.revert_ok hb hnan closed reached
      exact .inl ⟨now', hr, _, _, _, hrun.revert closed reached hr⟩

open Table in
/-- A table begins, and what its edits have reached is propagated. -/
theorem table_never_fails :
    (table.Built ∧ table.InWords ∧ ¬ table.HoldsNaN ∧ table.Counted ∧ table.WatchesArrays) ∧
      (table.DefaultsFit ∧ table.InRoom table.emptyState.1 ∧
        ∃ s, table.initialState = .ok (s, table.freeze) ∧ table.Run s s [] []) ∧
      table.Run opened swapped [1, 0] [1, 0] ∧
        table.Permitted swapped [1, 0] [1, 0] (.propagate [0, 1, 2, 3, 4]) ∧
          ((∃ now', table.call (.propagate [0, 1, 2, 3, 4]) swapped = .ok () now' ∧
            ∃ committed' edited' waiting', table.Run committed' now' edited' waiting') ∨
          ∃ r, table.call (.propagate [0, 1, 2, 3, 4]) swapped = .error (.refused r) swapped) := by
  have hwords : table.InWords := by decide +kernel
  have hnan : ¬ table.HoldsNaN := by decide +kernel
  have hcount : table.Counted := by decide +kernel
  have hwatches : table.WatchesArrays := by decide +kernel
  have hfit : table.DefaultsFit := by decide +kernel
  have hroom : table.InRoom table.emptyState.1 := by decide +kernel
  have hpermitted : table.Permitted swapped [1, 0] [1, 0] (.propagate [0, 1, 2, 3, 4]) :=
    .propagate (by decide +kernel) (by decide) (by decide +kernel)
  obtain ⟨hstart, hstep⟩ := protocol_never_fails built_table hwords hnan hcount hwatches
  exact ⟨⟨built_table, hwords, hnan, hcount, hwatches⟩, ⟨hfit, hroom, (hstart hfit).1 hroom⟩,
    run_swapped, hpermitted, hstep _ _ _ _ _ run_swapped hpermitted⟩

end Graph
end ArrayFlow
