import ArrayFlow.Proofs.Lasting
import ArrayFlow.Proofs.Protocol

/-!
# Rows follow their origin

A dynamic array says whose rows it has, and between which limits their number
stays.  The rows come about in three ways: a variable counts them in its
buffer, a basic selection sees those of its source, and an advanced selection
appends and removes elements until it has as many as its blocks ask for.  In
every state of a run in which no edit is waiting, all three agree with the
origin (`run_row_counts`), as far as they can be looked at: the strides of a
selection need not be words, and then neither its view nor its number of rows is
found (`row_counts_fail`).

That the number never exceeds its limit is not needed to read an array, so
the invariant of the contents does not speak of it.  It is a property of the
buffer that lasts (`lasting_atMost`).
-/

namespace ArrayFlow

/-- Whether a number of rows lies between the limits. -/
def RowSpan.Admits (r : RowSpan) (n : Nat) : Prop := r.minRows ≤ n ∧ ∀ m ∈ r.maxRows, n ≤ m

namespace Variable

/-- A buffer of the given size has no more rows than the variable allows. -/
def AtMost (size : Nat) : Variable → Prop
  | integer _ => True
  | list v => size ≤ v.maxSize
  | rows v => v.rowSize ≠ 0 → ∀ m ∈ v.maxRows, size ≤ m * v.rowSize

variable {v : Variable} {c c' : Contents} {id : NodeId} {e : Edit}

theorem atMost_rows {v : RowVariable} {size n : Nat} (hsize : v.rowSize ≠ 0 → size = n * v.rowSize)
    (h : ∀ m ∈ v.maxRows, n ≤ m) : AtMost size (.rows v) := by
  intro hz m hm
  rw [hsize hz]
  exact Nat.mul_le_mul_right _ (h m hm)

theorem atMost_defaults (h : v.defaults = .ok c) : v.AtMost c.elements.size := by
  obtain ⟨hcounts, -, rfl⟩ := defaults_eq_ok.mp h
  cases Holds.initial hcounts with
  | integer _ _ => trivial
  | list _ most _ _ => exact most
  | @rows v j _ _ _ =>
    refine atMost_rows (fun _ => ?_) v.minRows_le
    show (Array.replicate (v.minRows * v.rowSize) v.nearestToZero).size = _
    rw [Array.size_replicate]

theorem atMost_seed {values : List Binary64} (h : v.Seeds values c) :
    v.AtMost c.elements.size := by
  cases h with
  | integer _ _ => trivial
  | list _ most _ _ => exact most
  | rows hrows hlimits _ =>
    exact atMost_rows (fun hz => RowVariable.rowsOf_spec hrows hz)
      fun m hm => RowVariable.le_maxRows_of_checkRows hlimits hm

/-- Growing checks the new number of rows, and so does shrinking. -/
theorem atMost_edit (hc : v.Holds c) (h : v.edit id e c = .ok () c')
    (hmost : v.AtMost c.elements.size) : v.AtMost c'.elements.size := by
  cases hc.edit h with
  | integer _ _ => trivial
  | list _ most _ _ => exact most
  | rows _ _ _ =>
    cases becomes_of_edit h with
    | setElement _ _ =>
      show AtMost (Journal.size (Journal.set _ _ _)) _
      rw [Journal.size_set]
      exact hmost
    | growRows hadded _ hrows hlimits =>
      refine atMost_rows (fun hz => ?_) fun m hm => RowVariable.le_maxRows_of_checkRows hlimits hm
      show Journal.size (List.foldl _ _ _) = _
      rw [Journal.size_pushAll, RowVariable.rowsOf_spec hadded hz, RowVariable.rowsOf_spec hrows hz,
        Nat.add_mul]
    | shrinkRows hrows _ hlimits =>
      refine atMost_rows (fun hz => ?_) fun m hm => RowVariable.le_maxRows_of_checkRows hlimits hm
      show Journal.size (Nat.repeat _ _ _) = _
      rw [Journal.size_popMany, RowVariable.rowsOf_spec hrows hz, Nat.sub_mul, Nat.one_mul]

/-- The number of rows lies between the limits of the variable. -/
theorem Holds.admits_rowsIn (h : v.Holds c) (hmost : v.AtMost c.elements.size) (id : NodeId)
    (hd : v.shape.isDynamic = true) : (v.description id).rows.Admits (v.rowsIn c) := by
  refine ⟨h.minRows_le id hd, fun m hm => ?_⟩
  cases h with
  | integer _ _ => cases hd
  | list _ _ _ _ =>
    obtain rfl := Option.some.inj hm
    exact hmost
  | @rows v j _ _ _ =>
    show (if v.rowSize = 0 then v.minRows else j.size / v.rowSize) ≤ m
    split
    · exact v.minRows_le m hm
    · next hz =>
      rw [Nat.div_le_iff_le_mul_add_pred (Nat.pos_of_ne_zero hz)]
      have hle : j.size ≤ m * v.rowSize := hmost hz m hm
      rw [Nat.mul_comm] at hle
      omega

end Variable

namespace Graph

variable {g : Graph} {s committed now : State} {id : NodeId} {d : Description}
  {edited waiting : List NodeId}

/-- Variables never have more rows than they allow, committed or not. -/
theorem lasting_atMost (g : Graph) : g.Lasting fun id j =>
    ∀ v, g.nodes[id]? = some (.leaf v) → j.Throughout fun xs => v.AtMost xs.size where
  defaults hn hdefaults w hw := by
    obtain rfl := Node.leaf.inj (Option.some.inj (hn.symm.trans hw))
    exact .of_clean (Variable.Begins.defaults hdefaults).clean.elements
      (Variable.atMost_defaults hdefaults)
  seed hn hseed w hw := by
    obtain rfl := Node.leaf.inj (Option.some.inj (hn.symm.trans hw))
    exact .of_clean hseed.clean.elements (Variable.atMost_seed hseed)
  edit hn hc hedit h w hw := by
    obtain rfl := Node.leaf.inj (Option.some.inj (hn.symm.trans hw))
    exact (h _ hn).extend (Variable.Contents.Extends.edit hedit).elements
      (Variable.atMost_edit hc hedit (h _ hn).current)
  gather hn _ _ w hw := by
    cases hn.symm.trans hw
  refresh hn _ _ _ w hw := by
    cases hn.symm.trans hw
  commit h v hn := (h v hn).commit
  revert h v hn := (h v hn).revert

/-- A run is made of calls. -/
theorem Run.reached (h : g.Run committed now edited waiting) : g.Reached now := by
  induction h with
  | start h => exact h.reached
  | edit _ he _ ih => exact ih.accepted (c := .edit _ _) he
  | propagate _ _ _ _ hp ih => exact ih.accepted (c := .propagate _) hp
  | commit _ _ _ hc ih => exact ih.accepted (c := .commit _) hc
  | revert _ _ _ hr ih => exact ih.accepted (c := .revert _) hr
  | refused _ hc ih => exact ih.refused hc

/-- The rows of an origin lie between the limits of all arrays that have
them. -/
theorem Settled.admits_rowsIn (h : g.Settled s) (hb : g.Built) (hr : g.Reached s)
    (hd : g.describe id = .ok d) (hdyn : d.shape.isDynamic = true) :
    d.rows.Admits (g.rowsIn s d.rows.origin) := by
  obtain ⟨v, hn, hv, hrows⟩ := hb.origin hd hdyn
  obtain ⟨slot, hslot, hcur⟩ := h.current d.rows.origin _ hn
  cases hcur with
  | @leaf _ c hc =>
    have hmost := (lasting_atMost g).reached hr d.rows.origin _ _ hslot rfl v hn
    have heq : g.rowsIn s d.rows.origin = v.rowsIn c := by
      unfold rowsIn
      rw [hn]
      dsimp only
      rw [hslot]
    rw [heq, hrows]
    exact hc.admits_rowsIn hmost.current _ hv

/-- An array that is read as `n` rows: so say its extents, its size and its
view. -/
def HasRows (g : Graph) (s : State) (id : NodeId) (n : Nat) : Prop :=
  ∃ d view, ∃ trailing : List Nat, g.describe id = .ok d ∧ d.shape = .dynamic trailing ∧
    g.extentsIn s id = .ok (n :: trailing) ∧ g.sizeIn s id = .ok (n * RowMajor.size trailing) ∧
      g.view s id = .ok view ∧ view.extents = n :: trailing

/-- **An array has the rows of its origin**, if rows have elements. -/
theorem Settled.hasRows (h : g.Settled s) (hb : g.Built) (hd : g.describe id = .ok d)
    (hdyn : d.shape.isDynamic = true) (hz : d.shape.rowSize ≠ 0) (hplain : g.Plain id d) :
    g.HasRows s id (g.rowsIn s d.rows.origin) := by
  have hseen := h.seen hb hd hplain.framed
  cases hshape : d.shape with
  | static ns => rw [hshape] at hdyn; cases hdyn
  | dynamic trailing =>
    have hrow : RowMajor.size trailing ≠ 0 := by rwa [hshape] at hz
    have hsize : g.sizeBy s d = g.rowsIn s d.rows.origin * RowMajor.size trailing := by
      rw [sizeBy, hshape, Shape.sizeWith_of_isDynamic rfl]
      rfl
    refine ⟨d, g.shown s id, trailing, hd, hshape, ?_, ?_, ?_, ?_⟩
    · rw [hseen.extentsIn_eq h.full hd hplain.counts hplain.row, hsize, hshape]
      exact congrArg (Except.ok <| · :: trailing) (Nat.mul_div_cancel _ (Nat.pos_of_ne_zero hrow))
    · rw [hseen.sizeIn_eq h.full hd hplain.counts, hsize]
    · rw [view_eq h.full hd, hseen.view]
      rfl
    · obtain ⟨m, hextents, hm⟩ := hseen.extents
      rw [hextents, hm hdyn hz, hshape]
      rfl

/-- A variable whose rows have elements is plain. -/
theorem Settled.plain_leaf (h : g.Settled s) {v : Variable} (hn : g.nodes[id]? = some (.leaf v))
    (hdyn : v.shape.isDynamic = true) (hz : v.shape.rowSize ≠ 0) :
    g.Plain id (v.description id) := by
  obtain ⟨slot, -, hcur⟩ := h.current id _ hn
  cases hcur with
  | leaf hholds =>
    have hrow : RowMajor.CountsFrom 1 v.shape.trailing := by
      cases v with
      | integer v => cases hdyn
      | list v =>
        show RowMajor.CountsFrom 1 v.shape.trailing
        have hgrowing : v.growing = true := by
          by_contra hfixed
          have hstatic : v.shape.isDynamic = true := hdyn
          rw [ListVariable.shape, if_neg hfixed] at hstatic
          cases hstatic
        rw [ListVariable.shape, if_pos hgrowing]
        trivial
      | rows v => exact (RowVariable.countRow_eq_ok.mp hholds.counts).1
    have hlays : v.shape.LaysOut := Shape.laysOut_of_rowSize hdyn hz hrow
    exact (Framed.of_eq ((frame_leaf hn).trans (Shape.frame_eq_ok.mpr ⟨hlays, rfl⟩))).plain_leaf hn
      hholds.counts

/-- **The law of the origin.**  Whenever no edit is waiting, an array whose
rows have elements has exactly as many rows as the origin that its
description names, and between the limits that the description gives.  So
arrays of one dynamic shape and one origin have one size.  Only an array that
overflows when it is looked at has no number of rows. -/
theorem run_row_counts (hb : g.Built) (hcount : g.Counted) (h : g.Run committed now edited []) :
    ∀ id d, g.describe id = .ok d → d.shape.isDynamic = true →
      (d.shape.rowSize ≠ 0 → ∃ n, (g.Overflows now id ∨ g.HasRows now id n) ∧
        g.HasRows now d.rows.origin n ∧ d.rows.Admits n) ∧
      ∀ id' d', g.describe id' = .ok d' → d'.shape = d.shape → d'.rows.origin = d.rows.origin →
        g.Overflows now id ∨ g.Overflows now id' ∨
          ∃ size, g.sizeIn now id = .ok size ∧ g.sizeIn now id' = .ok size := by
  obtain ⟨base, past, hepoch⟩ := h.epoch hb
  have hsettled := hepoch.settled rfl
  intro id d hd hdyn
  refine ⟨fun hz => ?_, fun id' d' hd' hshape horigin => ?_⟩
  · obtain ⟨v, hn, hv, hrows⟩ := hb.origin hd hdyn
    have ho : g.describe d.rows.origin = .ok (v.description d.rows.origin) :=
      describe_eq_ok.mpr ⟨_, hn, rfl⟩
    have hself : (v.description d.rows.origin).rows.origin = d.rows.origin := by rw [← hrows]
    have hcounted := hcount.rowSize_ne_zero hn hv
    have hplain := hsettled.plain_leaf hn hv hcounted
    rw [← Variable.description_shape d.rows.origin v] at hv hcounted
    have horigin := hsettled.hasRows hb ho hv hcounted hplain
    rw [hself] at horigin
    exact ⟨_, (hsettled.overflows_or_plain hb hd).imp_right (hsettled.hasRows hb hd hdyn hz), horigin,
      hsettled.admits_rowsIn hb h.reached hd hdyn⟩
  · rcases hsettled.overflows_or_plain hb hd with ho | hplain
    · exact .inl ho
    rcases hsettled.overflows_or_plain hb hd' with ho' | hplain'
    · exact .inr (.inl ho')
    have hsize := (hsettled.seen hb hd hplain.framed).sizeIn_eq hsettled.full hd hplain.counts
    have hsize' := (hsettled.seen hb hd' hplain'.framed).sizeIn_eq hsettled.full hd' hplain'.counts
    rw [sizeBy, hshape, horigin] at hsize'
    exact .inr (.inr ⟨g.sizeBy now d, hsize, hsize'⟩)

open Table in
/-- The first column of the table, the table and its rows: one of each. -/
theorem table_row_counts :
    (table.Built ∧ table.Counted ∧ table.Run opened current [1, 0] []) ∧
      ∃ d, table.describe 3 = .ok d ∧ d.shape = .dynamic [] ∧ d.rows.origin = 0 ∧
        (∃ n, table.HasRows current 3 n ∧ table.HasRows current 0 n ∧ d.rows.Admits n) ∧
          table.sizeIn current 3 = .ok 1 := by
  have hcount : table.Counted := by decide +kernel
  obtain ⟨d, hd⟩ := Outcome.exists_ok (x := table.describe 3) (by decide +kernel)
  have hshape : d.shape = .dynamic [] := by
    have h : (table.describe 3).map (·.shape) = .ok (.dynamic []) := by decide +kernel
    rw [hd] at h
    exact Except.ok.inj h
  have horigin : d.rows.origin = 0 := by
    have h : (table.describe 3).map (·.rows.origin) = .ok 0 := by decide +kernel
    rw [hd] at h
    exact Except.ok.inj h
  obtain ⟨hrows, -⟩ := run_row_counts built_table hcount run_current 3 d hd (by rw [hshape]; rfl)
  obtain ⟨n, hself, ho, hadmits⟩ := hrows (by rw [hshape]; exact Nat.one_ne_zero)
  rw [horigin] at ho
  exact ⟨⟨built_table, hcount, run_current⟩, d, hd, hshape, horigin,
    ⟨n, hself.resolve_left (by decide +kernel), ho, hadmits⟩, by decide +kernel⟩

/-- Rows of three by two numbers, with the longest possible step along the axis
before the last one. -/
def paced : Graph :=
  ((Graph.empty 0).extend
    fun _ => Node.leaf <$> Variable.rows <$> RowVariable.ofDomain [3, 2] (.ofInt 0) (.ofInt 9) true).extend
      fun g => g.basicIndexing 0 [.slice .full, .slice ⟨none, none, 9223372036854775807⟩]

theorem built_paced : paced.Built :=
  .extend (.extend_leaf (.empty 0) _) fun _ hn => .basic hn

/-- The step times the stride is no word, and the array has neither a view nor a
number of rows. -/
theorem row_counts_fail : ¬ ∀ (g : Graph) (committed now : State) (edited : List NodeId),
    g.Built → g.Counted → g.Run committed now edited [] →
      ∀ id d, g.describe id = .ok d → d.shape.isDynamic = true → d.shape.rowSize ≠ 0 →
        ∃ n, g.HasRows now id n ∧ g.HasRows now d.rows.origin n ∧ d.rows.Admits n := by
  intro h
  have hrun : paced.Run (paced.after [.initializeRemaining] paced.emptyState.1)
      (paced.after [.initializeRemaining] paced.emptyState.1) [] [] :=
    .start (.of_seeded .start (seeded_emptyState paced) (by decide +kernel)
      (call_eq_ok_after (c := .initializeRemaining) (by decide +kernel)))
  obtain ⟨d, hd⟩ := Outcome.exists_ok (x := paced.describe 1) (by decide +kernel)
  have hshape : d.shape = .dynamic [1, 2] := by
    have h : (paced.describe 1).map (·.shape) = .ok (.dynamic [1, 2]) := by decide +kernel
    rw [hd] at h
    exact Except.ok.inj h
  obtain ⟨n, ⟨_, view, _, -, -, -, -, hview, -⟩, -, -⟩ := h paced _ _ [] built_paced
    (by decide +kernel) hrun 1 d hd (by rw [hshape]; rfl) (by rw [hshape]; decide)
  have hfails : (paced.view (paced.after [.initializeRemaining] paced.emptyState.1) 1).isOk = false := by
    decide +kernel
  rw [hview] at hfails
  cases hfails

end Graph
end ArrayFlow
