import ArrayFlow.Proofs.RowCounts

/-!
# Elements keep the declared bounds

The bounds of an array are fixed when it is made: a constant takes those of
its values, a variable those it was asked for, and a selection those of its
source.  Every element that can be read lies between them, and is whole where
whole numbers are declared (`reached_bounds`).  No call is excluded and
nothing has to be up to date: a selection that has not been propagated shows
elements that its source had or has.

The elements of a variable are checked when they are written, and those of an
advanced selection are copied from the source, so the bounds are a property of
the journals that lasts (`lasting_bounds`).

Infinity is a bound without a fraction, but no whole number.  So the bounds of
rows have to be finite (`Variable.Bounded`).
-/

namespace ArrayFlow

/-- The number lies between the declared bounds, and is whole where whole
numbers are declared. -/
def Description.Bounds (d : Description) (x : Binary64) : Prop :=
  d.min ≤ x ∧ x ≤ d.max ∧ (d.integral = true → x.isWhole = true)

namespace Variable

/-- Whole bounds are machine words, and the bounds of rows are finite. -/
def Bounded : Variable → Prop
  | integer v => -(2 ^ 63) ≤ v.lower ∧ v.upper < 2 ^ 63
  | list v => v.count < 2 ^ 64
  | rows v => v.lower.isFinite = true ∧ v.upper.isFinite = true

instance (v : Variable) : Decidable v.Bounded := by
  cases v <;> unfold Bounded <;> infer_instance

theorem Bounded.isFinite {v : Variable} (h : v.Bounded) (id : NodeId) :
    (v.description id).min.isFinite = true ∧ (v.description id).max.isFinite = true := by
  cases v with
  | integer v =>
    obtain ⟨hlo, hhi⟩ := h
    have hle := v.lower_le_upper
    have hlower : v.lower.natAbs ≤ 2 ^ 63 := by omega
    have hupper : v.upper.natAbs ≤ 2 ^ 63 := by omega
    exact ⟨Binary64.isFinite_ofInt hlower (by decide), Binary64.isFinite_ofInt hupper (by decide)⟩
  | list v =>
    have hcount : ((v.count - 1 : Nat) : Int).natAbs ≤ 2 ^ 64 :=
      Nat.le_of_lt (Nat.lt_of_le_of_lt (Nat.sub_le _ _) h)
    exact ⟨Binary64.isFinite_ofUnits (z := 0) (by decide +kernel),
      Binary64.isFinite_ofInt hcount (by decide)⟩
  | rows v => exact h

/-- What a variable admits has its bounds. -/
theorem Admits.bounds {v : Variable} {x : Binary64} (h : v.Admits x) (hv : v.Bounded)
    (id : NodeId) : (v.description id).Bounds x := by
  obtain ⟨⟨hlo, hhi⟩, hentire⟩ := admits_iff.mp h
  obtain ⟨hlower, hupper⟩ := hv.isFinite id
  exact ⟨hlo, hhi, fun hi => (hentire hi).isWhole hlo hhi hlower hupper⟩

end Variable

/-- Whether a node, if it is a variable, has finite bounds. -/
def Node.bounded : Node → Bool
  | .leaf v => decide v.Bounded
  | _ => true

namespace Graph

variable {g : Graph} {s s' t : State} {id : NodeId} {node : Node} {d : Description} {c : Call}
  {n : Nat}

/-- The variables have finite bounds. -/
def Bounded (g : Graph) : Prop :=
  ∀ (id : NodeId) (v : Variable), g.nodes[id]? = some (.leaf v) → v.Bounded

instance (g : Graph) : Decidable g.Bounded :=
  decidable_of_iff (∀ i < g.size, ∀ node ∈ g.nodes[i]?, node.bounded = true) (by
    rw [forall_nodes_iff (P := fun _ node => node.bounded = true)]
    constructor
    · intro h id v hn
      exact of_decide_eq_true (h id _ hn)
    · intro h id node hn
      cases node with
      | leaf v => exact decide_eq_true (h id v hn)
      | _ => rfl)

/-! ### The elements -/

/-- The elements of an array, committed or not, have its bounds. -/
def Bounding (g : Graph) (id : NodeId) (j : Journal Binary64) : Prop :=
  ∀ d, g.describe id = .ok d → j.Throughout fun xs => ∀ x ∈ xs, d.Bounds x

/-- **What is looked at is kept in bounds**: so is the whole buffer behind a
view, if the journals up to its node are. -/
theorem bounds_of_viewAt (hb : g.Built) (hnan : ¬ g.HoldsNaN) (h : LastsBelow g.Bounding t n)
    (hid : id < n) (hd : g.describe id = .ok d) {v : View} (hv : g.viewAt t id = .ok v) :
    ∀ x ∈ v.data, d.Bounds x := by
  induction id using Nat.strong_induction_on generalizing d v with
  | _ id ih =>
    rcases viewAt_cases hd hv with ⟨c, hn, rfl⟩ | ⟨slot, j, hslot, hj, hv⟩ | ⟨b, w, hn, hw, hv⟩
    · obtain rfl := Option.some.inj (description?_eq hn hd)
      intro x hx
      have hx' : x ≠ .nan := fun h0 => hnan ⟨id, c, hn, h0 ▸ hx⟩
      obtain ⟨hlo, hhi⟩ := c.between hx hx'
      exact ⟨hlo, hhi, fun hi => Array.all_eq_true'.mp hi x hx⟩
    · rw [(frame_of_bufferView hv).2]
      exact (h id slot j hid hslot hj d hd).current
    · obtain rfl := description_basic hn hd
      have hlt := lt_of_basic hn
      -- the view of the selection has the buffer of its source
      have hbounds := ih b.source hlt (Nat.lt_trans hlt hid) (hb.promises hn).1 hw
      rw [BasicIndexing.data_of_view hv]
      exact hbounds

/-- What an advanced selection copies has its bounds. -/
theorem bounds_of_source (hb : g.Built) (hnan : ¬ g.HoldsNaN) {a : AdvancedIndexing}
    (hn : g.nodes[id]? = some (.advanced a)) (h : LastsBelow g.Bounding t id)
    (hd : g.describe id = .ok d) {source : View} (hv : g.viewAt t a.source = .ok source) :
    ∀ x ∈ source.data, d.Bounds x := by
  obtain rfl := description_advanced hn hd
  obtain ⟨picked, hfits⟩ := hb.promises hn
  exact bounds_of_viewAt hb hnan h (lt_of_advanced hn).1 hfits.source hv

/-- **Bounds last.**  Values are checked before they are written, defaults are
chosen to have the bounds, and the rest is copied. -/
theorem lasting_bounds (hb : g.Built) (hnan : ¬ g.HoldsNaN) (hbounded : g.Bounded) :
    g.Lasting g.Bounding where
  defaults {id v _} hn hdefaults d hd := by
    obtain rfl := description_leaf hn hd
    refine .of_clean (Variable.Begins.defaults hdefaults).clean.elements fun x hx => ?_
    exact ((Variable.Holds.defaults hdefaults).admits x hx).bounds (hbounded id v hn) id
  seed {id v _ _} hn hseed d hd := by
    obtain rfl := description_leaf hn hd
    refine .of_clean hseed.clean.elements fun x hx => ?_
    exact ((Variable.Holds.seed hseed).admits x hx).bounds (hbounded id v hn) id
  edit {id v _ _ _} hn hc hedit h d hd := by
    refine (h d hd).extend (Variable.Contents.Extends.edit hedit).elements fun x hx => ?_
    obtain rfl := description_leaf hn hd
    exact ((hc.edit hedit).admits x hx).bounds (hbounded id v hn) id
  gather hn hbelow hmade d hd := by
    obtain ⟨_, source, _, entries, ⟨-, hsource, -⟩, -, hentries, hnew⟩ := defaultSlot_advanced hmade
    obtain rfl := Slot.gathered.inj hnew
    refine .of_clean (Gathered.clean_ofEntries entries).1 fun x hx => ?_
    obtain ⟨e, he, rfl⟩ := List.mem_map.mp (List.mem_toArray.mp hx)
    obtain ⟨p, -, hp⟩ := Outcome.exists_of_mem_mapM hentries he
    exact bounds_of_source hb hnan hn hbelow hd hsource _
      (AdvancedIndexing.mem_data_of_entry hp)
  refresh {id a t x x'} hn hbelow hmade h d hd := by
    obtain ⟨_, source, _, _, _, _, ⟨-, hsource, -⟩, hy, hnew⟩ := propagateSlot_advanced hmade
    obtain rfl := Slot.gathered.inj hnew
    have hbounds := bounds_of_source hb hnan hn hbelow hd hsource
    have hevery : x'.values.Every d.Bounds :=
      AdvancedIndexing.refresh_induction (P := fun z => z.values.Every d.Bounds)
        (fun z hz => hz.pop) (fun z p f v hv hz => Gathered.every_update hz p f (hbounds v hv))
        (fun z f v hv hz => hz.push (hbounds v hv)) hy (h d hd).current
    exact (h d hd).extend (AdvancedIndexing.refresh_extends hy).1.values hevery
  commit h d hd := (h d hd).commit
  revert h d hd := (h d hd).revert

/-! ### Arrays can be looked at -/

/-- What has a slot reads nodes that have one. -/
def Grounded (g : Graph) (s : State) : Prop :=
  ∀ (id : NodeId) (node : Node), g.nodes[id]? = some node → s.isInitialized id = true →
    ∀ p ∈ node.predecessors, s.isInitialized p = true

theorem isInitialized_iff : s.isInitialized id = true ↔ ∃ slot, s.slot? id = some slot :=
  Option.isSome_iff_exists

theorem isInitialized_put {slot : Slot} (hlt : id < s.size) (i : NodeId) :
    (s.put id slot).isInitialized i = (decide (i = id) || s.isInitialized i) := by
  rw [State.isInitialized, State.slot?_put s id i slot hlt]
  by_cases hi : i = id
  · rw [if_pos hi, decide_eq_true hi]
    rfl
  · rw [if_neg hi, decide_eq_false hi]
    rfl

namespace Grounded

/-- Variables read no nodes. -/
theorem put_leaf (h : g.Grounded s) {v : Variable} (hn : g.nodes[id]? = some (.leaf v))
    (hlt : id < s.size) (slot : Slot) : g.Grounded (s.put id slot) := by
  intro i node hi hinit p hp
  rw [isInitialized_put hlt, Bool.or_eq_true, decide_eq_true_eq] at hinit ⊢
  rcases hinit with rfl | hinit
  · obtain rfl := Option.some.inj (hn.symm.trans hi)
    cases hp
  · exact .inr (h i node hi hinit p hp)

theorem stepped (h : g.Grounded s) {step : State → Node → Slot → Except Fault Slot}
    {ids : List NodeId} (hstepped : g.Stepped (Takes step) ids s g.size t)
    (hready : ∀ i ∈ ids, i < g.size) : g.Grounded t := by
  have hsame : ∀ i : Nat, t.isInitialized i = s.isInitialized i := by
    intro i
    by_cases hmem : i ∈ ids
    · obtain ⟨node, new, -, ⟨slot, hold, -⟩, ht⟩ := hstepped.done i hmem (hready i hmem)
      rw [State.isInitialized, State.isInitialized, hold, ht]
      rfl
    · rw [State.isInitialized, State.isInitialized, hstepped.slot_of_not_mem hmem]
  intro i node hn hinit p hp
  rw [hsame] at hinit ⊢
  exact h i node hn hinit p hp

theorem call (hs : g.Sound s) (h : g.Grounded s) (hc : g.call c s = .ok () s') :
    g.Grounded s' := by
  cases c with
  | seed hd values =>
    obtain ⟨v, x, hn, -, -, rfl⟩ := seed_eq_ok hc
    exact h.put_leaf hn (hs.size ▸ lt_size hn) _
  | edit id e =>
    obtain ⟨v, x, x', ⟨hn, -⟩, -, hslot, -, rfl⟩ := edit_eq_ok.mp hc
    exact h.put_leaf hn (State.slot?_lt hslot) _
  | initializeRemaining =>
    obtain ⟨-, -, hfull⟩ := fills_of_initializeRemaining hc
    intro i node hn _ p hp
    have hlt : p < g.size := Nat.lt_trans (g.ordered i node hn p hp) (lt_size hn)
    exact isInitialized_iff.mpr (hfull.slots p hlt)
  | propagate ids =>
    obtain ⟨hstepped, hready⟩ := stepAll_stepped local_propagateSlot hc
    exact h.stepped hstepped fun i hi => (checkReady_eq_ok (hready i hi)).2
  | commit ids =>
    obtain ⟨hstepped, hready⟩ := stepAll_stepped local_commitSlot hc
    exact h.stepped hstepped fun i hi => (checkReady_eq_ok (hready i hi)).2
  | revert ids =>
    obtain ⟨hstepped, hready⟩ := stepAll_stepped local_revertSlot hc
    exact h.stepped hstepped fun i hi => (checkReady_eq_ok (hready i hi)).2

end Grounded

theorem Reached.grounded (h : g.Reached s) : g.Grounded s := by
  induction h with
  | start =>
    intro i node _ hinit
    rw [State.isInitialized, slot?_emptyState] at hinit
    cases hinit
  | accepted hr hc ih => exact ih.call hr.sound hc
  | refused _ hc ih => rw [call_refused hc]; exact ih

/-- An array with a slot has a view, or finding it overflows; where there are
more elements than there is room for, its start can also lie before the
buffer. -/
theorem viewAt_outcome (hb : g.Built) (hs : g.Sound s) (h : g.Grounded s)
    (hd : g.describe id = .ok d) (hinit : s.isInitialized id = true) :
    (∃ v, g.viewAt s id = .ok v) ∨
      ∃ f, (f = .overflow ∨ f = .negativeStart) ∧ g.viewAt s id = .error f := by
  have hbuffer : ∀ {i : NodeId} {shape : Shape} {values : Array Binary64},
      g.viewAt s i = bufferView shape values → (∃ v, g.viewAt s i = .ok v) ∨
        ∃ f, (f = .overflow ∨ f = .negativeStart) ∧ g.viewAt s i = .error f := by
    intro i shape values heq
    cases hv : bufferView shape values with
    | ok v => exact .inl ⟨v, heq.trans hv⟩
    | error f => exact .inr ⟨f, .inl (bufferView_eq_error hv), heq.trans hv⟩
  induction id using Nat.strong_induction_on generalizing d with
  | _ id ih =>
    obtain ⟨node, hn, hnd⟩ := describe_eq_ok.mp hd
    obtain ⟨slot, hslot⟩ := isInitialized_iff.mp hinit
    obtain ⟨ho, -⟩ := hs.owns hn hslot
    cases ho with
    | constant c =>
      rw [viewAt_constant hn, View.layOut_eq]
      split
      · exact .inl ⟨_, rfl⟩
      · exact .inr ⟨_, .inl rfl, rfl⟩
    | leaf v c => exact hbuffer (viewAt_contents hn hslot)
    | advanced a x => exact hbuffer (viewAt_gathered hn hslot)
    | basic b diff =>
      have hsource := h id _ hn hinit b.source (by simp [Node.predecessors])
      obtain ⟨hdsource, hfits⟩ := hb.promises hn
      rw [viewAt_basic hn]
      rcases ih b.source (lt_of_basic hn) hdsource hsource with ⟨w, hw⟩ | ⟨f, hf, hview⟩
      · obtain ⟨-, hstrides, rows, hrows⟩ := hb.frame_of_viewAt hdsource hw
        have hlen : b.axes.length = w.extents.length := by
          rw [hrows, Shape.length_withRows, ← hfits.axes.length_eq, Shape.length_dims]
        rw [hw]
        show (∃ v, b.view w = .ok v) ∨ ∃ f, _ ∧ b.view w = .error f
        cases hv : b.view w with
        | ok v => exact .inl ⟨v, rfl⟩
        | error f => exact .inr ⟨f, BasicIndexing.view_eq_error hlen hstrides hv, rfl⟩
      · rw [hview]
        exact .inr ⟨f, hf, rfl⟩
    | validation w xs => cases hnd

/-- An array with a slot can be read. -/
theorem checkReadable_of_isInitialized (hs : g.Sound s) (hd : g.describe id = .ok d)
    (hinit : s.isInitialized id = true) : g.checkReadable s id = .ok () := by
  obtain ⟨node, hn, -⟩ := describe_eq_ok.mp hd
  have hstate : g.checkState s = .ok () := if_pos ⟨hs.graph, hs.size⟩
  have hknown : ¬ g.size ≤ id := Nat.not_le.mpr (lt_size hn)
  unfold checkReadable checkReady
  rw [hd, hstate]
  simp only [hknown, hinit, if_false]
  rfl

/-- The query of a view asks for no more than a slot. -/
theorem view_of_isInitialized (hs : g.Sound s) (hd : g.describe id = .ok d)
    (hinit : s.isInitialized id = true) : g.view s id = liftM (g.viewAt s id) := by
  unfold view
  rw [checkReadable_of_isInitialized hs hd hinit]
  rfl

/-! ### Every state -/

/-- **Declared bounds are kept.**  Whatever calls were made, an array that has
a slot can be looked at, if nothing overflows, and every element that can be read
through its view, one by one or all at once, lies between the declared bounds and
is whole where whole numbers are declared. -/
theorem reached_bounds (hb : g.Built) (hnan : ¬ g.HoldsNaN) (hbounded : g.Bounded)
    (h : g.Reached s) (hd : g.describe id = .ok d) (hinit : s.isInitialized id = true) :
    (∃ f, (f = .overflow ∨ f = .negativeStart) ∧ g.view s id = .error (.fault f)) ∨
      ∃ v, g.view s id = .ok v ∧ (∀ k x, v.get k = .ok x → d.Bounds x) ∧
        ∀ xs, v.toList = .ok xs → ∀ x ∈ xs, d.Bounds x := by
  rw [view_of_isInitialized h.sound hd hinit]
  rcases viewAt_outcome hb h.sound h.grounded hd hinit with ⟨v, hv⟩ | ⟨f, hf, hv⟩
  swap
  · exact .inl ⟨f, hf, by rw [hv]; rfl⟩
  have hlasts : LastsBelow g.Bounding s (id + 1) := fun i slot j _ =>
    (lasting_bounds hb hnan hbounded).reached h i slot j
  have hbounds := bounds_of_viewAt hb hnan hlasts (Nat.lt_succ_self id) hd hv
  refine .inr ⟨v, ?_, fun k x hx => hbounds x (View.mem_data_of_get hx),
    fun xs hxs x hx => hbounds x (View.mem_data_of_toList hxs x hx)⟩
  rw [hv]
  rfl

/-- The table after both edits, of which the one of the order was taken back
while the rows in that order were not made anew. -/
def Table.stale : State :=
  table.after [.propagate [2], .commit [0], .revert [1]] Table.swapped

open Table in
/-- The rows that are out of date keep their bounds as well. -/
theorem table_bounds :
    (table.Built ∧ ¬ table.HoldsNaN ∧ table.Bounded ∧ table.Reached stale ∧
      stale.isInitialized 2 = true) ∧
      ∃ d v, table.describe 2 = .ok d ∧ table.view stale 2 = .ok v ∧
        (∀ k x, v.get k = .ok x → d.Bounds x) ∧
          table.elementsOf stale 2 = some [.ofInt 4, .ofInt 3] ∧
            table.elementsOf stale 1 = some [.ofInt 0, .ofInt 0] := by
  have hnan : ¬ table.HoldsNaN := by decide +kernel
  have hbounded : table.Bounded := by decide +kernel
  have hr : table.Reached stale := reached_after run_swapped.reached (by decide +kernel)
  have hinit : stale.isInitialized 2 = true := by decide +kernel
  obtain ⟨d, hd⟩ := Outcome.exists_ok (x := table.describe 2) (by decide +kernel)
  have hok : (table.view stale 2).isOk = true := by decide +kernel
  obtain ⟨v, hv, hget, -⟩ := (reached_bounds built_table hnan hbounded hr hd hinit).resolve_left
    (by rintro ⟨f, -, hf⟩; rw [hf] at hok; cases hok)
  exact ⟨⟨built_table, hnan, hbounded, hr, hinit⟩, d, v, hd, hv, hget, by decide +kernel,
    by decide +kernel⟩

end Graph
end ArrayFlow
