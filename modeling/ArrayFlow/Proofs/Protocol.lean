import ArrayFlow.Proofs.Accounting
import ArrayFlow.Proofs.Rebuilding

/-!
# The protocol

A **run** of the protocol begins with a state that has just been filled, and
goes on with any number of

* edits of variables, each of which leaves it waiting to be propagated;
* propagations to a closed set of nodes that contains all variables waiting;
* commits, where none is waiting, and reverts, at any time, of a closed set
  that contains all variables edited since the last commit or revert.

Refused calls may stand anywhere.  The stretch between two commits or reverts
is an **epoch**.  It begins with a state that is up to date and has nothing
pending; the last propagation has left another state that is up to date, and
what lies between that one and the present state are edits of the variables
waiting (`Epoch`).  One lemma per step says that it keeps this, and
`Run.epoch` puts them together.
-/

namespace ArrayFlow

/-- There is room for the elements of a variable. -/
def State.RoomAt (s : State) (id : NodeId) : Prop :=
  ∀ c, s.slot? id = some (.contents c) → c.elements.size ≤ maxElements

instance (s : State) (id : NodeId) : Decidable (s.RoomAt id) :=
  match h : s.slot? id with
  | some (.contents c) =>
    decidable_of_iff (c.elements.size ≤ maxElements) (by
      constructor
      · intro hroom c' hc'
        rw [h] at hc'
        obtain rfl := Slot.contents.inj (Option.some.inj hc')
        exact hroom
      · intro hroom
        exact hroom c h)
  | some .constant | some (.translated _) | some (.gathered _) | some (.watched _) | none =>
    isTrue fun c hc => by rw [h] at hc; cases hc

namespace Graph

variable {g : Graph} {committed now now' base past : State} {edited waiting ids : List NodeId}
  {id : NodeId}

/-- Runs of the protocol, with the state at the last commit, the present one,
the variables edited since the last commit or revert, and those among them
whose edits have not been propagated.  No array can hold more than
`maxElements` elements, so an edit and a propagation only happen where there
is room for what they make. -/
inductive Run (g : Graph) : State → State → List NodeId → List NodeId → Prop
  | start {s : State} (h : g.Fresh s) : Run g s s [] []
  | edit {committed now now' : State} {edited waiting : List NodeId} {id : NodeId}
      {e : Variable.Edit} (h : Run g committed now edited waiting)
      (he : g.edit id e now = .ok () now') (room : now'.RoomAt id) :
      Run g committed now' (id :: edited) (id :: waiting)
  | propagate {committed now now' : State} {edited waiting ids : List NodeId}
      (h : Run g committed now edited waiting) (closed : g.Closed ids) (reached : waiting ⊆ ids)
      (room : g.InRoom now) (hp : g.propagate ids now = .ok () now') :
      Run g committed now' edited []
  | commit {committed now now' : State} {edited ids : List NodeId}
      (h : Run g committed now edited []) (closed : g.Closed ids) (reached : edited ⊆ ids)
      (hc : g.commit ids now = .ok () now') : Run g now' now' [] []
  | revert {committed now now' : State} {edited waiting ids : List NodeId}
      (h : Run g committed now edited waiting) (closed : g.Closed ids) (reached : edited ⊆ ids)
      (hr : g.revert ids now = .ok () now') : Run g committed now' [] []
  | refused {committed now now' : State} {edited waiting : List NodeId} {c : Call} {r : Refusal}
      (h : Run g committed now edited waiting) (hc : g.call c now = .error (.refused r) now') :
      Run g committed now' edited waiting

/-- What holds during an epoch that began with the state `base`, if `past` is
the state after the last propagation. -/
structure Epoch (g : Graph) (committed now : State) (edited waiting : List NodeId)
    (base past : State) : Prop where
  begun : g.Settled base
  clean : g.AllClean base
  looks : g.Looks committed base
  propagated : g.Settled past
  edits : g.Edited past waiting now
  moves : ∃ touched, g.Moves base touched now
  kept : ∀ ids, g.Closed ids → edited ⊆ ids → ∀ i : Nat, i ∉ ids → now.slot? i = base.slot? i
  leaves : g.Counted → ∀ (i : NodeId) (v : Variable) (c : Variable.Contents),
    g.nodes[i]? = some (.leaf v) → now.slot? i = some (.contents c) →
      c.elements.size ≤ maxElements
  logs : g.Counted → ∀ i : Nat, g.LogsAt now i
  watched : ∀ (i w : NodeId) (xs : List Binary64), g.nodes[i]? = some (.validation w) →
    now.slot? i = some (.watched xs) →
      (∃ d, g.describe w = .ok d ∧ g.Framed w ∧ d.shape.Counts) ∧ xs = (g.shown base w).cells

/-! ### The beginning of an epoch -/

theorem Looks.refl (s : State) : g.Looks s s := ⟨fun _ => rfl, fun _ => rfl, fun _ => rfl⟩

theorem Looks.trans {s t u : State} (h : g.Looks s t) (h' : g.Looks t u) : g.Looks s u :=
  ⟨fun id => (h'.view id).trans (h.view id), fun id => (h'.extentsIn id).trans (h.extentsIn id),
    fun id => (h'.sizeIn id).trans (h.sizeIn id)⟩

theorem Edited.refl (h : g.Settled now) : g.Edited now [] now where
  graph := rfl
  size := rfl
  ruled := h.ruled
  extendsTo _ _ _ slot hslot := ⟨slot, hslot, .refl slot⟩
  kept _ _ := rfl
  leaves _ hi := nomatch hi

theorem Settled.sound (h : g.Settled base) (hclean : g.AllClean base) : g.Sound base where
  graph := h.graph
  size := h.size
  slots i slot hslot := by
    have hi : i < g.size := h.size ▸ State.slot?_lt hslot
    have hn : g.nodes[i]? = some g.nodes[i] := Array.getElem?_eq_getElem hi
    obtain ⟨slot', hslot', hcur⟩ := h.current i _ hn
    rw [hslot] at hslot'
    obtain rfl := Option.some.inj hslot'
    exact ⟨_, hn, hcur.owns, (hclean i slot hi hslot).tracked⟩

/-- An epoch begins with nothing edited. -/
theorem Epoch.begin (hbase : g.Settled base) (hclean : g.AllClean base)
    (hlooks : g.Looks committed base)
    (hwatched : ∀ (i w : NodeId) (xs : List Binary64), g.nodes[i]? = some (.validation w) →
      base.slot? i = some (.watched xs) →
        (∃ d, g.describe w = .ok d ∧ g.Framed w ∧ d.shape.Counts) ∧
          xs = (g.shown base w).cells) :
    g.Epoch committed base [] [] base base where
  begun := hbase
  clean := hclean
  looks := hlooks
  propagated := hbase
  edits := .refl hbase
  moves := ⟨[], .start⟩
  kept _ _ _ _ _ := rfl
  leaves hcount i v c hn hc := by
    obtain ⟨slot, hslot, hcur⟩ := hbase.current i _ hn
    rw [hc] at hslot
    obtain rfl := Option.some.inj hslot
    cases hcur with
    | leaf hv =>
      rw [size_leaf hcount hn hc hv]
      exact hbase.inRoom i _ (describe_eq_ok.mpr ⟨_, hn, rfl⟩)
  logs _ i d slot hd hslot u hu := by
    obtain ⟨node, hn, -⟩ := describe_eq_ok.mp hd
    rw [(hclean i slot (lt_size hn) hslot).quiet.diff_eq] at hu
    cases hu
  watched := hwatched

/-! ### What an epoch says of the present state -/

namespace Epoch

variable (h : g.Epoch committed now edited waiting base past)
include h

theorem moved : ∃ touched, g.Moved base touched now := by
  obtain ⟨touched, hmoves⟩ := h.moves
  exact ⟨touched, hmoves.moved h.begun.full (h.begun.sound h.clean)⟩

theorem full : g.Full now := by
  obtain ⟨touched, hmoved⟩ := h.moved
  exact hmoved.full

theorem sound : g.Sound now := by
  obtain ⟨touched, hmoved⟩ := h.moved
  exact hmoved.sound

theorem extendsTo (n : Nat) : base.ExtendsTo now n := by
  obtain ⟨touched, hmoved⟩ := h.moved
  intro i _ slot hslot
  exact hmoved.extends' i slot hslot

/-- Only nodes of a closed set that contains all edits have moved. -/
theorem moved_of_closed (hc : g.Closed ids) (hids : edited ⊆ ids) : g.Moved base ids now := by
  obtain ⟨touched, hmoved⟩ := h.moved
  exact ⟨hmoved.full, hmoved.sound, hmoved.extends', h.kept ids hc hids⟩

theorem watchesReadable : g.WatchesReadable := by
  intro id w hn
  obtain ⟨slot, hslot⟩ := h.full.slots id (lt_size hn)
  obtain ⟨ho, -⟩ := h.sound.owns hn hslot
  cases ho with
  | validation _ xs => exact (h.watched id w xs hn hslot).1

/-- Where no edit is waiting, the present state is up to date. -/
theorem settled (hw : waiting = []) : g.Settled now := by
  have heq : now = past := by
    refine State.ext_slot? h.edits.graph h.edits.size fun i => h.edits.kept i ?_
    rw [hw]
    exact List.not_mem_nil
  rw [heq]
  exact h.propagated

end Epoch

/-! ### The steps -/

theorem Edited.edit {e : Variable.Edit} (h : g.Edited past waiting now)
    (he : g.edit id e now = .ok () now') : g.Edited past (id :: waiting) now' := by
  obtain ⟨v, x, x', ⟨hn, -⟩, -, hslot, hedit, rfl⟩ := edit_eq_ok.mp he
  have hput := fun i => State.slot?_put now id i (.contents x') (State.slot?_lt hslot)
  refine ⟨h.graph, (State.size_put now id _).trans h.size, fun i w c hi hc => ?_,
    fun n j hj slot hold => ?_, fun i hi => ?_, fun i hi => ?_⟩
  · rw [hput] at hc
    split at hc
    · next heq =>
      subst heq
      obtain rfl := Slot.contents.inj (Option.some.inj hc)
      rw [hn] at hi
      obtain rfl := Node.leaf.inj (Option.some.inj hi)
      exact (h.ruled i v x hn hslot).edit hedit
    · exact h.ruled i w c hi hc
  · obtain ⟨slot', hslot', hext⟩ := h.extendsTo n j hj slot hold
    rw [hput]
    split
    · next heq =>
      rw [heq, hslot] at hslot'
      obtain rfl := Option.some.inj hslot'
      exact ⟨_, rfl, hext.trans (.contents (.edit hedit))⟩
    · exact ⟨slot', hslot', hext⟩
  · rw [List.mem_cons, not_or] at hi
    rw [hput, if_neg hi.1]
    exact h.kept i hi.2
  · rcases List.mem_cons.mp hi with rfl | hi
    · exact ⟨v, hn⟩
    · exact h.leaves i hi

namespace Epoch

variable (h : g.Epoch committed now edited waiting base past)
include h

/-- An edit. -/
theorem edit {e : Variable.Edit} (he : g.edit id e now = .ok () now') (room : now'.RoomAt id) :
    g.Epoch committed now' (id :: edited) (id :: waiting) base past := by
  have hedits := h.edits.edit he
  obtain ⟨touched, hmoves⟩ := h.moves
  have hmoves' := hmoves.edit he
  obtain ⟨v, x, x', ⟨hn, -⟩, -, hslot, hedit, rfl⟩ := edit_eq_ok.mp he
  have hput := fun i => State.slot?_put now id i (.contents x') (State.slot?_lt hslot)
  have hself : (now.put id (.contents x')).slot? id = some (.contents x') := by
    rw [hput, if_pos rfl]
  refine ⟨h.begun, h.clean, h.looks, h.propagated, hedits, ⟨_, hmoves'⟩, fun ids hc hids i hi => ?_,
    fun hcount i w c hi hc => ?_, fun hcount i d slot hd hc => ?_, fun i w xs hi hc => ?_⟩
  · have hne : i ≠ id := fun heq => hi (hids (heq ▸ List.mem_cons_self))
    rw [hput, if_neg hne]
    exact h.kept ids hc (fun j hj => hids (List.mem_cons_of_mem id hj)) i hi
  · by_cases heq : i = id
    · subst heq
      exact room c hc
    · rw [hput, if_neg heq] at hc
      exact h.leaves hcount i w c hi hc
  · by_cases heq : i = id
    · subst heq
      rw [hself] at hc
      obtain rfl := Option.some.inj hc
      obtain rfl := description_leaf hn hd
      have hz := fun hdyn => hcount.rowSize_ne_zero hn hdyn
      have hholds := h.edits.ruled i v x hn hslot
      have hbefore := hholds.reaches hz (h.leaves hcount i v x hn hslot)
      have hafter := (hholds.edit hedit).reaches hz (room x' hself)
      have hlogs : x.elements.Logs v.shape.Reaches := by
        intro u hu
        have hreach := h.logs hcount i _ _ hd hslot u (List.mem_reverse.mpr hu)
        rwa [Variable.description_shape] at hreach
      intro u hu
      rw [Variable.description_shape]
      exact Variable.logs_edit hlogs hbefore hafter hedit u (List.mem_reverse.mp hu)
    · rw [hput, if_neg heq] at hc
      exact h.logs hcount i d slot hd hc
  · have hne : i ≠ id := by
      intro heq
      rw [heq, hn] at hi
      cases hi
    rw [hput, if_neg hne] at hc
    exact h.watched i w xs hi hc

/-- A propagation to all that the waiting edits reach. -/
theorem propagate (hb : g.Built) (hc : g.Closed ids) (hids : waiting ⊆ ids)
    (room : g.InRoom now) (hp : g.propagate ids now = .ok () now') :
    g.Epoch committed now' edited [] base now' := by
  have hsettled := h.propagated.propagate h.edits hb hc hids room hp
  have hstepped := (stepAll_stepped local_propagateSlot hp).1
  have hsame := sameLeaves_of_stepped hstepped
  obtain ⟨touched, hmoves⟩ := h.moves
  refine ⟨h.begun, h.clean, h.looks, hsettled, .refl hsettled, ⟨_, hmoves.propagate hp⟩,
    fun others hothers hedited => ?_, fun hcount i v c hn hc => ?_, fun hcount => ?_,
    fun i w xs hn hslot => ?_⟩
  · exact propagate_kept hb h.begun h.clean hsettled hothers (h.kept others hothers hedited) hstepped
  · rw [hsame i v hn] at hc
    exact h.leaves hcount i v c hn hc
  · exact propagate_logs h.propagated h.edits hstepped hb hc hids room (h.logs hcount)
  · rcases h.sound.of_stepped hstepped hn hslot with ⟨-, hold⟩ | ⟨-, slot, hold, ho, hnew⟩
    · exact h.watched i w xs hn hold
    · cases ho with
      | validation _ ys =>
        obtain ⟨_, -, hnew⟩ := Outcome.bind_eq_ok.mp hnew
        obtain rfl := Slot.watched.inj (Except.ok.inj hnew)
        exact h.watched i w ys hn hold

/-- A commit of all that was edited, once it is propagated.  It begins a new
epoch, and that is now the one to compare with. -/
theorem commit (hb : g.Built) (hw : waiting = []) (hc : g.Closed ids) (hids : edited ⊆ ids)
    (hcommit : g.commit ids now = .ok () now') : g.Epoch now' now' [] [] now' now' := by
  have hsettled := h.settled hw
  have hstepped := (stepAll_stepped local_commitSlot hcommit).1
  have hkept := h.kept ids hc hids
  obtain ⟨hrests, hclean⟩ := rests_of_commit h.full h.sound hcommit fun i slot hi hslot => by
    rw [hkept i hi] at hslot
    exact h.clean i slot (h.begun.size ▸ State.slot?_lt hslot) hslot
  have hsettled' := hrests.settled hsettled hb
  refine .begin hsettled' hclean (.refl now') fun i w xs hn hslot => ?_
  rcases h.sound.of_stepped hstepped hn hslot with ⟨hmem, hold⟩ | ⟨-, slot, -, ho, hnew⟩
  · -- what a check outside of the set watches has not changed at all
    have hwatched : w ∉ ids := hc.not_mem_of_reads hn hmem (by simp [Node.predecessors])
    have hshown : g.shown now' w = g.shown base w :=
      shown_outside hc (fun j hj => (hstepped.slot_of_not_mem hj).trans (hkept j hj)) hwatched
    rw [hshown]
    exact h.watched i w xs hn hold
  · cases ho with
    | validation _ ys =>
      obtain ⟨d, hd, hnew⟩ := Outcome.bind_eq_ok.mp hnew
      obtain ⟨view, hview, hnew⟩ := Outcome.bind_eq_ok.mp hnew
      obtain ⟨values, hvalues, hnew⟩ := Outcome.bind_eq_ok.mp hnew
      obtain rfl := Slot.watched.inj (Except.ok.inj hnew)
      have hd := descriptionAt_eq_ok hd
      exact ⟨⟨d, hd, hb.readable_of_toList hd hview hvalues⟩,
        hsettled'.toList_eq_cells hb hd hview hvalues⟩

/-- A revert of all that was edited, propagated or not.  It begins a new epoch
where the old one began. -/
theorem revert (hb : g.Built) (hc : g.Closed ids) (hids : edited ⊆ ids)
    (hrevert : g.revert ids now = .ok () now') : g.Epoch committed now' [] [] now' now' := by
  have hstepped := (stepAll_stepped local_revertSlot hrevert).1
  obtain ⟨hrests, hclean⟩ :=
    rests_of_revert h.begun.full h.clean (h.moved_of_closed hc hids) hrevert
  have hsettled := hrests.settled h.begun hb
  have hlooks : g.Looks base now' :=
    .of_bare h.begun.full hsettled.full (hrests.bare_eq h.begun)
  refine .begin hsettled hclean (h.looks.trans hlooks) fun i w xs hn hslot => ?_
  rw [hrests.shown_eq h.begun w]
  rcases h.sound.of_stepped hstepped hn hslot with ⟨-, hold⟩ | ⟨-, slot, hold, ho, hnew⟩
  · exact h.watched i w xs hn hold
  · obtain ⟨-, hnew⟩ := revertSlot_eq ho hnew
    cases ho with
    | validation _ ys =>
      obtain rfl := Slot.watched.inj hnew
      exact h.watched i w xs hn hold

end Epoch

theorem Fresh.epoch {s : State} (h : g.Fresh s) (hb : g.Built) : g.Epoch s s [] [] s s := by
  obtain ⟨s₀, hseeded, hroom, hstepped⟩ := h.exists_seeded
  exact .begin (h.settled hb) h.allClean (.refl s) fun i w xs hn hslot =>
    watched_of_filled hseeded hstepped hb hroom hn hslot

/-- **Every state of a run lies in an epoch.** -/
theorem Run.epoch (hb : g.Built) (h : g.Run committed now edited waiting) :
    ∃ base past, g.Epoch committed now edited waiting base past := by
  induction h with
  | start h => exact ⟨_, _, h.epoch hb⟩
  | edit _ he room ih =>
    obtain ⟨base, past, hepoch⟩ := ih
    exact ⟨base, past, hepoch.edit he room⟩
  | propagate _ closed reached room hp ih =>
    obtain ⟨base, past, hepoch⟩ := ih
    exact ⟨base, _, hepoch.propagate hb closed reached room hp⟩
  | commit _ closed reached hc ih =>
    obtain ⟨base, past, hepoch⟩ := ih
    exact ⟨_, _, hepoch.commit hb rfl closed reached hc⟩
  | revert _ closed reached hr ih =>
    obtain ⟨base, past, hepoch⟩ := ih
    exact ⟨_, _, hepoch.revert hb closed reached hr⟩
  | refused _ hc ih =>
    rw [call_refused hc]
    exact ih

/-! ### A run to look at -/

/-- Rows of two numbers, an order of the columns, the rows in that order, the
first column of them, and a check of it. -/
def table : Graph :=
  (((((Graph.empty 0).extend
    fun _ => Node.leaf <$> Variable.rows <$> RowVariable.ofDomain [2] (.ofInt 0) (.ofInt 9) true).extend
      fun _ => Node.leaf <$> Variable.integer <$> IntegerVariable.ofBounds [2] 0 1).extend
        fun g => g.advancedIndexing 0 [.whole, .indexer 1]).extend
          fun g => g.basicIndexing 2 [.slice ⟨none, none, 1⟩, .position 0]).extend
            fun _ => .ok (.validation 3)

theorem built_table : table.Built := by
  refine .extend (.extend (.extend (.extend_leaf (.extend_leaf (.empty 0) _) _) ?_) ?_) ?_
  · exact fun _ hn => .advanced hn
  · exact fun _ hn => .basic hn
  · intro n hn
    obtain rfl := Except.ok.inj hn
    exact .validation 3

namespace Table

/-- There are no rows. -/
def opened : State := table.after [.initializeRemaining] table.emptyState.1

/-- One row is added. -/
def grown : State := table.after [.edit 0 (.rows (.grow [.ofInt 3, .ofInt 4]))] opened

/-- The second column is to stand first. -/
def swapped : State := table.after [.edit 1 (.integer (.set 0 (.ofInt 1)))] grown

/-- Both edits are propagated. -/
def current : State := table.after [.propagate [0, 1, 2, 3, 4]] swapped

theorem run_opened : table.Run opened opened [] [] :=
  .start (.of_seeded .start (seeded_emptyState table) (by decide +kernel)
    (call_eq_ok_after (c := .initializeRemaining) (by decide +kernel)))

theorem run_swapped : table.Run opened swapped [1, 0] [1, 0] := by
  have hgrown : table.Run opened grown [0] [0] :=
    run_opened.edit (call_eq_ok_after (c := .edit 0 _) (by decide +kernel)) (by decide +kernel)
  exact hgrown.edit (call_eq_ok_after (c := .edit 1 _) (by decide +kernel)) (by decide +kernel)

theorem run_current : table.Run opened current [1, 0] [] :=
  run_swapped.propagate (by decide +kernel) (by decide) (by decide +kernel)
    (call_eq_ok_after (c := .propagate [0, 1, 2, 3, 4]) (by decide +kernel))

end Table

/-! ### What is seen during a run -/

/-- **Incremental is as good as from scratch.**  Whenever no edit is waiting,
every array shows what it would show if all that is derived were made anew
from the present variables: the same extents, and elements that are equal as
numbers.  An array that overflows when it is looked at would overflow as well. -/
theorem run_alike_rebuilt (hb : g.Built) (hnan : ¬ g.HoldsNaN)
    (h : g.Run committed now edited []) :
    ∃ rebuilt, g.initializeRemaining (g.leavesOf now) = .ok () rebuilt ∧
      ∀ id d, g.describe id = .ok d → g.SeenAlike now rebuilt id := by
  obtain ⟨base, past, hepoch⟩ := h.epoch hb
  exact (hepoch.settled rfl).alike_rebuilt hb hnan hepoch.watchesReadable

open Table in
/-- The table after both edits. -/
theorem table_alike_rebuilt :
    (table.Built ∧ ¬ table.HoldsNaN ∧ table.Run opened current [1, 0] []) ∧
      ∃ rebuilt, table.initializeRemaining (table.leavesOf current) = .ok () rebuilt ∧
        (∀ id d, table.describe id = .ok d → table.Alike current rebuilt id) ∧
          table.elementsOf current 2 = some [.ofInt 4, .ofInt 3] := by
  have hplain : ∀ i < table.size, ¬ table.Overflows current i := by decide +kernel
  have hnan : ¬ table.HoldsNaN := by decide +kernel
  obtain ⟨rebuilt, hrebuilt, halike⟩ := run_alike_rebuilt built_table hnan run_current
  refine ⟨⟨built_table, hnan, run_current⟩, rebuilt, hrebuilt, fun id d hd => ?_, by decide +kernel⟩
  obtain ⟨node, hn, -⟩ := describe_eq_ok.mp hd
  exact (halike id d hd).alike (hplain id (lt_size hn))

/-- What accounts for the changes since the beginning of an epoch accounts for
those since the last commit. -/
theorem Accounts.of_looks {s : State} (h : g.Accounts base now id) (hlooks : g.Looks s base) :
    g.Accounts s now id := by
  unfold Accounts elementsOf at h ⊢
  rw [hlooks.view, hlooks.sizeIn] at h
  exact h

/-- **Diffs are right.**  Whenever no edit is waiting, the diff of every array
replays what it showed at the last commit to what it shows now, and its size
difference is the difference of the two sizes.  For a variable this holds all
the time.  Only an array that overflows when it is looked at shows nothing. -/
theorem run_accounts (hb : g.Built) (hcount : g.Counted)
    (h : g.Run committed now edited waiting) :
    (waiting = [] → ∀ id d, g.describe id = .ok d →
      g.Overflows now id ∨ g.Accounts committed now id) ∧
      ∀ id v, g.nodes[id]? = some (.leaf v) →
        g.Overflows now id ∨ g.Accounts committed now id := by
  obtain ⟨base, past, hepoch⟩ := h.epoch hb
  have hlogs := hepoch.logs hcount
  refine ⟨fun hw id d hd => ?_, fun id v hn => ?_⟩
  · have hsettled := hepoch.settled hw
    refine (hsettled.overflows_or_plain hb hd).imp_right fun ⟨hf, hcounts, _⟩ => ?_
    obtain ⟨node, hn, -⟩ := describe_eq_ok.mp hd
    obtain ⟨slot, hslot, hcur⟩ := hsettled.current id node hn
    have haccounted := accounted hb hcount hepoch.begun hepoch.clean hsettled.inRoom hsettled.ruled
      (fun j _ => hsettled.current j) (hepoch.extendsTo (id + 1)) (fun j _ => hlogs j)
      (Nat.lt_succ_self id) hd hf
    refine (haccounted.accounts hepoch.begun.full hsettled.full hd hcounts
      (hepoch.begun.seen hb hd hf) (hsettled.seen hb hd hf) (hsettled.inRoom id d hd)
      ((hsettled.current id).diffAt_eq hd) fun u hu => ?_).of_looks hepoch.looks
    rw [pending_of_owns hd hn hcur.owns hslot] at hu
    exact hlogs id d slot hd hslot u hu
  · have hd : g.describe id = .ok (v.description id) := describe_eq_ok.mpr ⟨_, hn, rfl⟩
    obtain ⟨old, hold, hcur⟩ := hepoch.begun.current id _ hn
    obtain ⟨slot, hslot, hext⟩ := hepoch.extendsTo (id + 1) id (Nat.lt_succ_self id) old hold
    have hquiet := hepoch.clean id old (lt_size hn) hold
    cases hcur with
    | leaf hv =>
      cases hext with
      | contents hext =>
        have hv' := hepoch.edits.ruled id v _ hn hslot
        refine (overflows_or_plain_leaf hepoch.full hn hslot hv').imp_right
          fun ⟨hf, hcounts, _⟩ => ?_
        have hroom := hepoch.leaves hcount id v _ hn hslot
        rw [size_leaf hcount hn hslot hv'] at hroom
        have hseen := Seen.of_leaf hn hf hslot hv' hroom
        have hseen₀ := hepoch.begun.seen hb hd hf
        have haccounted :=
          Accounted.of_leaf hcount hn hold hslot hv hv' hquiet hext hseen₀ hseen
        have hpending := pending_of_owns hd hn (.leaf v _) hslot
        refine (haccounted.accounts hepoch.begun.full hepoch.full hd hcounts hseen₀ hseen hroom ?_
          fun u hu => ?_).of_looks hepoch.looks
        · rw [hpending]
          exact diffAt_of_owns hd hn (.leaf v _) hslot
        · rw [hpending] at hu
          exact hlogs id _ _ hd hslot u hu

open Table in
/-- The rows of the table before their propagation, and its first column after
it. -/
theorem table_accounts :
    (table.Built ∧ table.Counted ∧ table.Run opened swapped [1, 0] [1, 0] ∧
      table.Run opened current [1, 0] []) ∧
      table.Accounts opened swapped 0 ∧ table.Accounts opened current 3 ∧
        table.elementsOf opened 3 = some [] ∧ table.elementsOf current 3 = some [.ofInt 4] := by
  have hcount : table.Counted := by decide +kernel
  obtain ⟨-, hleaves⟩ := run_accounts built_table hcount run_swapped
  obtain ⟨harrays, -⟩ := run_accounts built_table hcount run_current
  obtain ⟨v, hv⟩ := Outcome.exists_ok (x := table.variableOf ⟨0, .dynamicArray⟩) (by decide +kernel)
  obtain ⟨d, hd⟩ := Outcome.exists_ok (x := table.describe 3) (by decide +kernel)
  exact ⟨⟨built_table, hcount, run_swapped, run_current⟩,
    (hleaves 0 v (variableOf_eq_ok.mp hv).1).resolve_left (by decide +kernel),
    (harrays rfl 3 d hd).resolve_left (by decide +kernel), by decide +kernel, by decide +kernel⟩

end Graph
end ArrayFlow
