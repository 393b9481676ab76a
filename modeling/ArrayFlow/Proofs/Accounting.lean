import ArrayFlow.Proofs.Replay
import ArrayFlow.Proofs.Resting

/-!
# Diffs account for all changes

Since the last commit an array has gone through any number of edits and
propagations.  If it is up to date, its pending diff leads from what it showed
then to what it shows now, and its size difference is the difference of the
two sizes (`accounted`).  The two come about in three ways:

* a variable and an advanced selection have a journal, whose records replay to
  its elements (`Accounted.of_buffer`);
* a basic selection renumbers the records of its source and finds its size
  difference from that of its source, by rows (`Accounted.of_basic`);
* a constant has none.

Rows without elements cannot be counted, so their number is not known from a
buffer; they are left out (`Counted`).
-/

namespace ArrayFlow
/-- Whether a node, if it is a row array, has elements in its rows. -/
def Node.countable : Node → Bool
  | .leaf (.rows v) => decide (0 ∉ v.trailing)
  | _ => true

namespace Graph

variable {g : Graph} {base t : State} {id : NodeId} {d : Description}

/-- Every row of a row array has elements. -/
def Counted (g : Graph) : Prop :=
  ∀ (id : NodeId) (v : RowVariable), g.nodes[id]? = some (.leaf (.rows v)) → 0 ∉ v.trailing

instance (g : Graph) : Decidable g.Counted :=
  decidable_of_iff (∀ i < g.size, ∀ node ∈ g.nodes[i]?, node.countable = true) (by
    rw [forall_nodes_iff (P := fun _ node => node.countable = true)]
    constructor
    · intro h id v hn
      exact of_decide_eq_true (h id _ hn)
    · intro h id node hn
      cases node with
      | leaf v =>
        cases v with
        | rows v => exact decide_eq_true (h id v hn)
        | _ => rfl
      | _ => rfl)

theorem Counted.rowSize_ne_zero (h : g.Counted) {v : Variable}
    (hn : g.nodes[id]? = some (.leaf v)) (hd : v.shape.isDynamic = true) : v.shape.rowSize ≠ 0 := by
  cases v with
  | integer v => cases hd
  | list v =>
    by_cases hgrowing : v.growing = true
    · rw [show (Variable.list v).shape = .dynamic [] from if_pos hgrowing]
      exact Nat.one_ne_zero
    · rw [show (Variable.list v).shape = .static [v.count] from if_neg hgrowing] at hd
      cases hd
  | rows v =>
    refine RowMajor.size_ne_zero.mpr fun n hn' hzero => ?_
    exact h id v hn (hzero ▸ hn')

/-- The pending changes of an array lead from what the first state shows to
what the second one shows, in elements and in size. -/
structure Accounted (g : Graph) (base t : State) (id : NodeId) (d : Description) : Prop where
  replay : replay (g.pending t id) (g.shown base id).cells.toArray (g.sizeBy t d) =
    (g.shown t id).cells.toArray
  sizeDiff : g.sizeDiffAt t id = .ok (g.sizeBy t d - g.sizeBy base d : Int)

/-- A buffer of the right size shows all of its elements. -/
theorem Seen.cells_eq {extents : List Nat} {values : Array Binary64} (h : g.Seen t id d)
    (hshown : g.shown t id = .ofArray values extents) (hsize : values.size = g.sizeBy t d) :
    (g.shown t id).cells = values.toList := by
  have hcount := h.size_eq
  rw [hshown] at hcount ⊢
  exact View.cells_ofArray (hsize.trans hcount.symm)

theorem replay_buffer {es es' : List Nat} {j j' : Journal Binary64} (hext : j.Extends j')
    (hj : j.Clean) (hseen : g.Seen base id d) (hseen' : g.Seen t id d)
    (hshown : g.shown base id = .ofArray j.values es)
    (hshown' : g.shown t id = .ofArray j'.values es') (hsize : j.size = g.sizeBy base d)
    (hsize' : j'.size = g.sizeBy t d) :
    replay j'.diff (g.shown base id).cells.toArray (g.sizeBy t d) =
      (g.shown t id).cells.toArray := by
  rw [hseen.cells_eq hshown hsize, hseen'.cells_eq hshown' hsize', ← hsize',
    Array.toArray_toList, Array.toArray_toList]
  exact hext.replay_diff hj

theorem sizeBy_of_not_isDynamic (h : d.shape.isDynamic = false) (base t : State) :
    g.sizeBy t d = g.sizeBy base d :=
  Shape.sizeWith_congr fun hdyn => by rw [h] at hdyn; cases hdyn

section Leaf

variable {v : Variable} {c c' : Variable.Contents} (hcount : g.Counted)
  (hn : g.nodes[id]? = some (.leaf v)) (hold : base.slot? id = some (.contents c))
  (hslot : t.slot? id = some (.contents c')) (hc : v.Holds c) (hc' : v.Holds c')
include hcount hn

theorem size_leaf (hslot : t.slot? id = some (.contents c')) (hc' : v.Holds c') :
    c'.elements.size = g.sizeBy t (v.description id) := by
  rw [sizeBy_leaf hn hslot]
  exact hc'.size_eq fun hdyn => hcount.rowSize_ne_zero hn hdyn

include hold hslot hc hc'

/-- The journal of a variable accounts for its changes, propagated or not. -/
theorem Accounted.of_leaf (hclean : c.Clean) (hext : c.Extends c')
    (hseen : g.Seen base id (v.description id)) (hseen' : g.Seen t id (v.description id)) :
    g.Accounted base t id (v.description id) := by
  have hsize := size_leaf hcount hn hold hc
  have hsize' := size_leaf hcount hn hslot hc'
  have hd : g.describe id = .ok (v.description id) := describe_eq_ok.mpr ⟨_, hn, rfl⟩
  refine ⟨?_, ?_⟩
  · rw [pending_of_owns hd hn (.leaf v c') hslot]
    exact replay_buffer hext.elements hclean.elements hseen hseen' (hseen.shown_leaf hn hold)
      (hseen'.shown_leaf hn hslot) hsize hsize'
  · have hjournal : c'.elements.sizeDiff =
        (g.sizeBy t (v.description id) - g.sizeBy base (v.description id) : Int) := by
      rw [hext.elements.sizeDiff_eq hclean.elements, hsize, hsize']
    rw [sizeDiffAt_leaf hn, State.contents_eq hslot]
    cases v with
    | integer v =>
      rw [sizeBy_of_not_isDynamic rfl base t, Int.sub_self]
      rfl
    | _ => exact congrArg Except.ok hjournal

end Leaf

/-- A constant has no changes. -/
theorem Accounted.of_constant {c : Constant} (hn : g.nodes[id]? = some (.constant c))
    (hd : (Node.constant c).description? id = some d) (hseen : g.Seen base id d) :
    g.Accounted base t id d := by
  obtain rfl := Option.some.inj hd
  have hsame := sizeBy_of_not_isDynamic (g := g)
    (d := ⟨.static c.extents, c.min, c.max, c.integral, .ofShape id (.static c.extents)⟩)
    rfl base t
  have hview : g.shown t id = g.shown base id := by
    rw [shown, shown, viewAt_constant hn, viewAt_constant hn]
  refine ⟨?_, ?_⟩
  · rw [pending_eq (diffAt_constant hn), hview, hsame, ← hseen.size_eq, ← View.length_cells,
      ← List.size_toArray]
    exact Script.replay .nil
  · rw [sizeDiffAt_constant hn, hsame, Int.sub_self]

/-- The journal of a gathered array accounts for its changes. -/
theorem Accounted.of_advanced {a : AdvancedIndexing} {x x' : Gathered}
    (hn : g.nodes[id]? = some (.advanced a)) (hold : base.slot? id = some (.gathered x))
    (hslot : t.slot? id = some (.gathered x')) (hclean : x.values.Clean)
    (hext : x.values.Extends x'.values) (hsize : x.size = g.sizeBy base (a.description id))
    (hsize' : x'.size = g.sizeBy t (a.description id))
    (hseen : g.Seen base id (a.description id)) (hseen' : g.Seen t id (a.description id)) :
    g.Accounted base t id (a.description id) := by
  have hd : g.describe id = .ok (a.description id) := describe_eq_ok.mpr ⟨_, hn, rfl⟩
  refine ⟨?_, ?_⟩
  · rw [pending_of_owns hd hn (.advanced a x') hslot]
    exact replay_buffer hext hclean hseen hseen' (hseen.shown_advanced hn hold)
      (hseen'.shown_advanced hn hslot) hsize hsize'
  · rw [sizeDiffAt_advanced hn, State.gathered_eq hslot]
    show Except.ok x'.values.sizeDiff = _
    rw [hext.sizeDiff_eq hclean]
    exact congrArg Except.ok (congrArg₂ (fun k l : Nat => (k - l : Int)) hsize' hsize)

/-- What is pending at a current array are records of positions that it can
have. -/
theorem LogsAt.reaches_pending (h : g.LogsAt t id) (hc : g.CurrentAt t id)
    (hd : g.describe id = .ok d) : ∀ u ∈ g.pending t id, d.shape.Reaches u.index := by
  intro u hu
  obtain ⟨node, hn, -⟩ := describe_eq_ok.mp hd
  obtain ⟨slot, hslot, hcur⟩ := hc node hn
  rw [pending_of_owns hd hn hcur.owns hslot] at hu
  exact h _ _ hd hslot u hu

/-- What is pending at a basic selection is what is pending at its source,
renumbered. -/
theorem CurrentAt.pending_basic {b : BasicIndexing} (hc : g.CurrentAt t id)
    (hn : g.nodes[id]? = some (.basic b)) (hfits : b.Fits)
    (hreaches : ∀ u ∈ g.pending t b.source, b.sourceDescription.shape.Reaches u.index) :
    g.pending t id = b.renumbered (g.pending t b.source) := by
  obtain ⟨slot, hslot, hcur⟩ := hc _ hn
  rw [pending_of_owns (describe_eq_ok.mpr ⟨_, hn, rfl⟩) hn hcur.owns hslot]
  cases hcur with
  | basic hdiff =>
    rw [BasicIndexing.translateDiff_eq hfits hreaches] at hdiff
    exact (Except.ok.inj hdiff).symm

section Current

variable (hb : g.Built) (hcount : g.Counted) (hbase : g.Settled base) (hclean : g.AllClean base)
  (hroom : g.InRoom t) (hr : g.Ruled t) {n : Nat} (hc : ∀ j : Nat, j < n → g.CurrentAt t j)
  (hext : base.ExtendsTo t n) (hlogs : ∀ j : Nat, j < n → g.LogsAt t j)
include hb hbase hroom hr hc

/-- The diff of a basic selection is that of its source, renumbered, and it
accounts for the changes if that one does. -/
theorem Accounted.of_basic {b : BasicIndexing} (hn : g.nodes[id]? = some (.basic b)) (hid : id < n)
    (hf : g.Framed id) (hlogs : g.LogsAt t b.source) (h : g.Accounted base t b.source b.sourceDescription) :
    g.Accounted base t id (b.description id) := by
  obtain ⟨hsource, hfits⟩ := hb.promises hn
  have hlt : b.source < n := Nat.lt_trans (lt_of_basic hn) hid
  have hseen := hbase.seen hb hsource (hf.source hn)
  have hseen' := seen_of_current hb (hbase.gathers n) hroom hr hc hlt hsource (hf.source hn)
  obtain ⟨hself, hcells⟩ := Seen.of_basic hn hb hf hseen (hbase.inRoom _ _ hsource)
  obtain ⟨hself', hcells'⟩ := Seen.of_basic hn hb hf hseen' (hroom _ _ hsource)
  have hd : g.describe id = .ok (b.description id) := describe_eq_ok.mpr ⟨_, hn, rfl⟩
  have hreaches := hlogs.reaches_pending (hc b.source hlt) hsource
  have hpending := (hc id hid).pending_basic hn hfits hreaches
  refine ⟨?_, ?_⟩
  · have hsize' : (g.shown t id).cells.toArray.size = g.sizeBy t (b.description id) := by
      rw [List.size_toArray, View.length_cells, hself'.size_eq]
    have hreads : ∀ {u : State}, g.Seen u id (b.description id) →
        g.Seen u b.source b.sourceDescription → g.InRoom u →
        (∀ k < g.sizeBy u (b.description id),
          (g.shown u id).cell k = (g.shown u b.source).cell (b.sourceOf k)) →
        ∀ k < (g.shown u id).cells.toArray.size,
          (g.shown u id).cells.toArray[k]? = (g.shown u b.source).cells.toArray[b.sourceOf k]? := by
      intro u hu hsrc hurroom hcells k hk
      rw [List.size_toArray, View.length_cells, hu.size_eq] at hk
      rw [List.getElem?_toArray, List.getElem?_toArray, View.getElem?_cells, View.getElem?_cells,
        hu.size_eq, hsrc.size_eq, if_pos hk,
        if_pos (sourceOf_lt_source hfits (hurroom _ _ hsource) hk), hcells k hk]
    rw [hpending, ← hsize']
    refine BasicIndexing.replay_renumbered hfits (hbase.inRoom _ _ hsource) (hroom _ _ hsource)
      hreaches ?_ ?_ ?_ ?_ (hreads hself hseen hbase.inRoom hcells)
      (hreads hself' hseen' hroom hcells') ?_
    · rw [List.size_toArray, View.length_cells, hseen.size_eq]
      rfl
    · rw [List.size_toArray, View.length_cells, hseen'.size_eq]
      rfl
    · rw [List.size_toArray, View.length_cells, hself.size_eq, sizeBy_basic]
    · rw [hsize', sizeBy_basic]
    · rw [List.size_toArray, View.length_cells, hseen'.size_eq]
      exact h.replay
  · rw [sizeDiffAt_basic hn, h.sizeDiff, sizeBy_basic, sizeBy_basic]
    cases hresizes : b.resizes with
    | true => exact BasicIndexing.sizeDiff_eq hfits hresizes (hbase.inRoom _ _ hsource) (hroom _ _ hsource)
    | false =>
      rw [BasicIndexing.sizeWith_of_not_resizes hfits hresizes _ (g.rowsIn base _), Int.sub_self]
      rfl

include hcount hclean hext hlogs

/-- **Diffs account for all changes.**  The pending diff of every array that
is up to date replays to what it shows, and its size difference is right. -/
theorem accounted (hid : id < n) (hd : g.describe id = .ok d) (hf : g.Framed id) :
    g.Accounted base t id d := by
  induction id using Nat.strong_induction_on generalizing d with
  | _ id ih =>
    have hseen := hbase.seen hb hd hf
    have hseen' := seen_of_current hb (hbase.gathers n) hroom hr hc hid hd hf
    obtain ⟨node, hn, hnd⟩ := describe_eq_ok.mp hd
    obtain ⟨old, hold, hcur⟩ := hbase.current id node hn
    obtain ⟨slot, hslot, he⟩ := hext id hid old hold
    obtain ⟨slot', hslot', hcur'⟩ := hc id hid node hn
    rw [hslot] at hslot'
    obtain rfl := Option.some.inj hslot'
    have hquiet := hclean id old (lt_size hn) hold
    cases hcur with
    | constant c => exact .of_constant hn hnd hseen
    | @leaf v c hv =>
      obtain rfl := Option.some.inj hnd
      cases hcur' with
      | @leaf _ c' hv' =>
        cases he with
        | contents hcc => exact .of_leaf hcount hn hold hslot hv hv' hquiet hcc hseen hseen'
    | @advanced a x hx =>
      obtain rfl := Option.some.inj hnd
      cases hcur' with
      | @advanced _ x' hx' =>
        cases he with
        | gathered hxx _ =>
          exact .of_advanced hn hold hslot hquiet.1.1 hxx.values hx.size hx'.size hseen hseen'
    | @basic b diff _ =>
      obtain rfl := Option.some.inj hnd
      obtain ⟨hsource, -⟩ := hb.promises hn
      have hlt := lt_of_basic hn
      have hsrc := ih b.source hlt (Nat.lt_trans hlt hid) hsource (hf.source hn)
      exact .of_basic hb hbase hroom hr hc hn hid hf (hlogs b.source (Nat.lt_trans hlt hid)) hsrc
    | validation w xs => cases hnd

end Current

/-! ### What is read of a state -/

/-- What the pending changes of an array, as they are read, say about the
elements it had before and those it has now. -/
def Accounts (g : Graph) (before now : State) (id : NodeId) : Prop :=
  ∃ xs ys diff, ∃ m n : Nat, g.elementsOf before id = some xs ∧ g.elementsOf now id = some ys ∧
    g.sizeIn before id = .ok m ∧ g.sizeIn now id = .ok n ∧ g.diff now id = .ok diff ∧
      replayInRoom diff xs.toArray n = .ok ys.toArray ∧ g.sizeDiff now id = .ok (n - m : Int)

theorem Accounted.accounts (h : g.Accounted base t id d) (hbase : g.Full base) (ht : g.Full t)
    (hd : g.describe id = .ok d) (hc : d.shape.Counts) (hseen : g.Seen base id d)
    (hseen' : g.Seen t id d) (hroom : g.sizeBy t d ≤ maxElements) (hdiff : g.diffAt t id = .ok (g.pending t id))
    (hlogs : ∀ u ∈ g.pending t id, d.shape.Reaches u.index) : g.Accounts base t id := by
  refine ⟨_, _, g.pending t id, _, _, hseen.elementsOf_eq hbase hd hc,
    hseen'.elementsOf_eq ht hd hc, hseen.sizeIn_eq hbase hd hc, hseen'.sizeIn_eq ht hd hc, ?_, ?_, ?_⟩
  · rw [diff_eq ht hd, hdiff]
    rfl
  · refine Outcome.bind_eq_ok.mpr ⟨(), Outcome.forM_eq_ok.mpr fun u hu => ?_, ?_⟩
    · obtain ⟨rows, hlt, hfit⟩ := hlogs u hu
      exact if_pos (Nat.le_trans hlt hfit)
    · exact Outcome.bind_eq_ok.mpr ⟨(), if_pos hroom, congrArg Except.ok h.replay⟩
  · rw [sizeDiff_eq ht hd, h.sizeDiff]
    rfl

end Graph
end ArrayFlow
