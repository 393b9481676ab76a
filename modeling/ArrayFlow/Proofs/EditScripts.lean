import ArrayFlow.Proofs.RowCounts
import ArrayFlow.Proofs.Renumbering

/-!
# Diffs are edit scripts

Whenever no edit is waiting, the diff of an array is more than a list of
writes: carried out record by record from the committed elements, every
placement is at the end, every removal is of the last element, every change
finds the value it replaces, and the present elements come out
(`run_edit_scripts`).

* Variables and advanced selections have journals, and logs are such scripts
  (`Scripted.of_buffer`).
* A basic selection renumbers the script of its source
  (`Scripted.of_basic`).  The script of a fixed shape has only changes
  (`isChange_pending`), which may be renumbered in any way.  Rows come and go
  at the end of a source, so a selection from a dynamic source must not turn
  a row around (`ReadsOnward`); one that does places the elements of a new
  row in the wrong order (`mirror_not_followed`).
-/

namespace ArrayFlow

/-- All records of the journal are changes. -/
def Journal.OnlyChanges {α : Type} (j : Journal α) : Prop := ∀ u ∈ j.log, u.IsChange

namespace Journal.OnlyChanges

variable {α : Type} {j : Journal α}

theorem of_clean (h : j.Clean) : j.OnlyChanges := by
  intro u hu
  rw [h.1] at hu
  cases hu

theorem set [BEq α] (h : j.OnlyChanges) (i : Nat) (v : α) : (j.set i v).OnlyChanges := by
  unfold Journal.set
  split
  · exact h
  · split
    · exact h
    · exact List.forall_mem_cons.mpr ⟨⟨rfl, rfl⟩, h⟩

theorem exchange [BEq α] (h : j.OnlyChanges) (i k : Nat) : (j.exchange i k).OnlyChanges := by
  unfold Journal.exchange
  split
  · exact h
  · split
    · exact (h.set _ _).set _ _
    · exact h

end Journal.OnlyChanges

namespace Shape

variable {s : Shape} {rows : Nat}

/-- As many rows as there is room for. -/
def mostRows (s : Shape) : Nat := maxElements / s.rowSize

theorem sizeWith_mostRows_le (h : s.sizeWith rows ≤ maxElements) :
    s.sizeWith s.mostRows ≤ maxElements := by
  cases s with
  | static ns => exact h
  | dynamic ns => exact Nat.div_mul_le_self _ _

theorem sizeWith_le_mostRows (h : s.sizeWith rows ≤ maxElements) :
    s.sizeWith rows ≤ s.sizeWith s.mostRows := by
  cases s with
  | static ns => exact Nat.le_refl _
  | dynamic ns =>
    show rows * RowMajor.size ns ≤ maxElements / RowMajor.size ns * RowMajor.size ns
    rcases Nat.eq_zero_or_pos (RowMajor.size ns) with hz | hpos
    · rw [hz, Nat.mul_zero]
      exact Nat.zero_le _
    · exact Nat.mul_le_mul_right _ ((Nat.le_div_iff_mul_le hpos).mpr h)

end Shape

theorem Variable.Holds.size_still {v : Variable} {c : Contents} (h : v.Holds c) (id : NodeId)
    (hstatic : (v.description id).shape.isDynamic = false) :
    c.elements.size = (v.description id).shape.sizeWith 0 := by
  rw [description_shape] at hstatic ⊢
  rw [h.size_eq fun hdyn => by rw [hstatic] at hdyn; cases hdyn]
  exact Shape.sizeWith_congr fun hdyn => by rw [hstatic] at hdyn; cases hdyn

/-- A variable of fixed size is only changed. -/
theorem Variable.onlyChanges_edit {v : Variable} {c c' : Contents} {id : NodeId} {e : Edit}
    (hstatic : v.shape.isDynamic = false) (h : c.elements.OnlyChanges)
    (he : v.edit id e c = .ok () c') : c'.elements.OnlyChanges := by
  have hfixed : ∀ {v : ListVariable} {id : NodeId}, v.shape.isDynamic = false →
      v.checkGrowing id ≠ .ok () := by
    intro v id hshape hgrowing
    unfold ListVariable.checkGrowing at hgrowing
    split at hgrowing
    · next hg =>
      rw [ListVariable.shape, if_pos hg] at hshape
      cases hshape
    · cases hgrowing
  cases becomes_of_edit he with
  | setInteger => exact h.set _ _
  | exchangeIntegers => exact h.exchange _ _
  | exchangeItems => exact h.exchange _ _
  | growItems hgrowing => exact absurd hgrowing (hfixed hstatic)
  | shrinkItems hgrowing => exact absurd hgrowing (hfixed hstatic)
  | setElement | growRows | shrinkRows => cases hstatic

namespace AdvancedIndexing

/-- Bringing up to date at the same size only writes. -/
theorem refresh_onlyChanges {a : AdvancedIndexing} {b : Blocks} {views : List View} {source : View}
    {diffs : List (List (Update Binary64))} {sourceDiff : List (Update Binary64)} {x x' : Gathered}
    (h : a.refresh b views source diffs sourceDiff x = .ok x') (hsize : x.size = b.size)
    (hx : x.values.OnlyChanges) : x'.values.OnlyChanges ∧ x'.size = b.size := by
  obtain ⟨n, hcount, h⟩ := Outcome.bind_eq_ok.mp h
  obtain ⟨-, -, rfl⟩ := Blocks.count_eq_ok.mp hcount
  simp only [hsize, Nat.min_self, Nat.sub_self] at h
  obtain ⟨updated, hupdated, hplaced⟩ := Outcome.bind_eq_ok.mp h
  obtain rfl := Except.ok.inj hplaced
  refine Outcome.foldlM_induction (P := fun y : Gathered => y.values.OnlyChanges ∧ y.size = b.size)
    (fun y p y' hy hrun => ?_) hupdated ⟨hx, hsize⟩
  obtain ⟨⟨f, v⟩, -, hy'⟩ := Outcome.bind_eq_ok.mp hrun
  obtain ⟨-, rfl⟩ := Gathered.store_eq_ok.mp hy'
  refine ⟨?_, (Gathered.size_update y p f v).trans hy.2⟩
  rw [Gathered.values_update]
  exact hy.1.set p v

end AdvancedIndexing

/-- Whether a node, if it is a basic selection with rows, keeps their order. -/
def Node.onward : Node → Bool
  | .basic b => decide (b.shape.isDynamic = true → b.Onward)
  | _ => true

namespace Graph

variable {g : Graph} {base t committed now : State} {id : NodeId} {d : Description}
  {edited waiting : List NodeId}

/-! ### Arrays of fixed shape -/

/-- The blocks of a selection of fixed shape do not depend on the state. -/
theorem size_blocksOf {a : AdvancedIndexing} {picked : List AdvancedIndexing.Picked} {b : Blocks}
    (hfits : a.Fits g.describe picked) (hstatic : a.shape.isDynamic = false)
    (h : g.blocksOf t a = .ok b) : b.size = a.shape.sizeWith 0 := by
  have hnone : Dim.dynamic ∉ a.shape.dims := by
    intro hmem
    rw [Shape.isDynamic_iff.mpr hmem] at hstatic
    cases hstatic
  rw [hfits.dims, List.append_assoc, List.mem_append, List.mem_append, not_or, not_or] at hnone
  have hpre : ∀ x ∈ a.pre, x.dim ≠ .dynamic := fun x hx hdim =>
    hnone.1 (List.mem_map.mpr ⟨x, hx, hdim⟩)
  have hbroadcast : a.broadcast.isDynamic = false := by
    rw [← Bool.not_eq_true]
    exact fun hdyn => hnone.2.1 (Shape.isDynamic_iff.mp hdyn)
  obtain ⟨rows, values, hvalues, -, rfl⟩ := blocksOf_eq_ok h
  rw [(indexValues_eq_ok hvalues).2 hbroadcast]
  exact AdvancedIndexing.size_blocks hfits fun ⟨x, hx, hdim⟩ => absurd hdim (hpre x hx)

/-- A journal of an array of fixed shape has the size of the shape, and only
changes since the last commit. -/
def Still (g : Graph) (id : NodeId) (j : Journal Binary64) : Prop :=
  ∀ d, g.describe id = .ok d → d.shape.isDynamic = false →
    j.OnlyChanges ∧ j.Throughout fun xs => xs.size = d.shape.sizeWith 0

/-- **Fixed shapes stay fixed**, in any state, up to date or not. -/
theorem lasting_still (hb : g.Built) : g.Lasting g.Still where
  defaults {id v _} hn hdefaults d hd hstatic := by
    obtain rfl := description_leaf hn hd
    have hclean := (Variable.Begins.defaults hdefaults).clean.elements
    exact ⟨.of_clean hclean,
      .of_clean hclean ((Variable.Holds.defaults hdefaults).size_still id hstatic)⟩
  seed {id v _ _} hn hseed d hd hstatic := by
    obtain rfl := description_leaf hn hd
    have hclean := hseed.clean.elements
    exact ⟨.of_clean hclean, .of_clean hclean ((Variable.Holds.seed hseed).size_still id hstatic)⟩
  edit {id v _ _ _} hn hc hedit h d hd hstatic := by
    obtain ⟨honly, hthrough⟩ := h d hd hstatic
    obtain rfl := description_leaf hn hd
    have hshape := Variable.description_shape id v
    exact ⟨Variable.onlyChanges_edit (hshape ▸ hstatic) honly hedit,
      hthrough.extend (Variable.Contents.Extends.edit hedit).elements
        ((hc.edit hedit).size_still id hstatic)⟩
  gather {id a t x} hn hbelow hmade d hd hstatic := by
    obtain rfl := description_advanced hn hd
    obtain ⟨picked, hfits⟩ := hb.promises hn
    obtain ⟨b, _, _, entries, ⟨hblocks, -⟩, -, hentries, hnew⟩ := defaultSlot_advanced hmade
    obtain rfl := Slot.gathered.inj hnew
    have hclean := (Gathered.clean_ofEntries entries).1
    refine ⟨.of_clean hclean, .of_clean hclean ?_⟩
    have hlength := congrArg List.length (Outcome.mapM_eq_ok.mp hentries)
    rw [List.length_map, List.length_map, List.length_range] at hlength
    exact (Gathered.size_ofEntries entries).trans
      (hlength.symm.trans (size_blocksOf hfits hstatic hblocks))
  refresh {id a t x x'} hn hbelow hmade h d hd hstatic := by
    obtain ⟨honly, hthrough⟩ := h d hd hstatic
    obtain rfl := description_advanced hn hd
    obtain ⟨picked, hfits⟩ := hb.promises hn
    obtain ⟨b, _, _, _, _, _, ⟨hblocks, -⟩, hy, hnew⟩ := propagateSlot_advanced hmade
    obtain rfl := Slot.gathered.inj hnew
    have hsize := size_blocksOf hfits hstatic hblocks
    obtain ⟨honly', hsize'⟩ :=
      AdvancedIndexing.refresh_onlyChanges hy (hthrough.current.trans hsize.symm) honly
    exact ⟨honly', hthrough.extend (AdvancedIndexing.refresh_extends hy).1.values
      (hsize'.trans hsize)⟩
  commit h d hd hstatic := ⟨.of_clean (Journal.clean_commit _), (h d hd hstatic).2.commit⟩
  revert h d hd hstatic := by
    obtain ⟨-, hthrough⟩ := h d hd hstatic
    refine ⟨fun u hu => ?_, hthrough.revert⟩
    cases hu

/-- **Arrays of fixed shape only have changes pending.** -/
theorem isChange_pending (hb : g.Built) (hr : g.Reached t) (ht : g.Settled t)
    (hd : g.describe id = .ok d) (hstatic : d.shape.isDynamic = false) :
    ∀ u ∈ g.pending t id, u.IsChange := by
  induction id using Nat.strong_induction_on generalizing d with
  | _ id ih =>
    obtain ⟨node, hn, hnd⟩ := describe_eq_ok.mp hd
    obtain ⟨slot, hslot, hcur⟩ := ht.current id node hn
    rw [pending_of_owns hd hn hcur.owns hslot]
    have hjournal : ∀ j, slot.journal? = some j → ∀ u ∈ j.diff, u.IsChange := by
      intro j hj u hu
      have hstill := (lasting_still hb).reached hr id slot j hslot hj d hd hstatic
      exact hstill.1 u (List.mem_reverse.mp hu)
    cases hcur with
    | constant c => exact fun u hu => nomatch hu
    | leaf _ => exact hjournal _ rfl
    | advanced _ => exact hjournal _ rfl
    | @basic b diff hdiff =>
      obtain rfl := Option.some.inj hnd
      obtain ⟨hsource, hfits⟩ := hb.promises hn
      have hstatic' : b.sourceDescription.shape.isDynamic = false :=
        BasicIndexing.isDynamic_shape hfits ▸ hstatic
      intro u hu
      obtain ⟨w, hw, k, rfl⟩ := BasicIndexing.exists_of_mem_translateDiff hdiff hu
      exact ih b.source (lt_of_basic hn) hsource hstatic' w hw
    | validation w xs => cases hnd

/-! ### From commit to commit -/

/-- The pending changes of an array are a script from what the first state
shows to what the second one shows. -/
def Scripted (g : Graph) (base t : State) (id : NodeId) : Prop :=
  Script (g.shown base id).cells.toArray (g.pending t id).reverse (g.shown t id).cells.toArray

/-- No basic selection on the way from an array to the elements it shows
turns the rows of its source around. -/
inductive ReadsOnward (g : Graph) : NodeId → Prop
  | basic {id : NodeId} {b : BasicIndexing} (hn : g.nodes[id]? = some (.basic b))
      (onward : b.shape.isDynamic = true → b.Onward) (source : ReadsOnward g b.source) :
      ReadsOnward g id
  | other {id : NodeId} (hn : ∀ b, g.nodes[id]? ≠ some (.basic b)) : ReadsOnward g id

theorem ReadsOnward.of_nodes (h : ∀ i < g.size, ∀ node ∈ g.nodes[i]?, node.onward = true)
    (id : NodeId) : g.ReadsOnward id := by
  rw [forall_nodes_iff (P := fun _ node => node.onward = true)] at h
  induction id using Nat.strong_induction_on with
  | _ id ih =>
    by_cases hbasic : ∃ b, g.nodes[id]? = some (.basic b)
    · obtain ⟨b, hn⟩ := hbasic
      have honward : b.shape.isDynamic = true → b.Onward := of_decide_eq_true (h id _ hn)
      exact .basic hn honward (ih b.source (lt_of_basic hn))
    · exact .other fun b hn => hbasic ⟨b, hn⟩

theorem Scripted.of_buffer {es es' : List Nat} {j j' : Journal Binary64} (hext : j.Extends j')
    (hj : j.Clean) (hseen : g.Seen base id d) (hseen' : g.Seen t id d)
    (hshown : g.shown base id = .ofArray j.values es)
    (hshown' : g.shown t id = .ofArray j'.values es') (hsize : j.size = g.sizeBy base d)
    (hsize' : j'.size = g.sizeBy t d) (hpending : g.pending t id = j'.diff) :
    g.Scripted base t id := by
  unfold Scripted
  rw [hseen.cells_eq hshown hsize, hseen'.cells_eq hshown' hsize', hpending, Journal.diff,
    List.reverse_reverse, Array.toArray_toList, Array.toArray_toList]
  exact hext.script hj

/-- A basic selection sees its source, in whatever sizes there is room for. -/
theorem Settled.sees {b : BasicIndexing} (h : g.Settled t) (hb : g.Built)
    (hn : g.nodes[id]? = some (.basic b)) (hf : g.Framed id) {rows : Nat}
    (hrows : g.sizeBy t b.sourceDescription ≤ b.sourceDescription.shape.sizeWith rows)
    (hroom : b.sourceDescription.shape.sizeWith rows ≤ maxElements) :
    Script.Sees b.sourceOf (b.shape.sizeWith rows) (g.shown t b.source).cells.toArray
      (g.shown t id).cells.toArray := by
  obtain ⟨hsource, hfits⟩ := hb.promises hn
  have hseen := h.seen hb hsource (hf.source hn)
  have hroom' := h.inRoom _ _ hsource
  obtain ⟨hself, hcells⟩ := Seen.of_basic hn hb hf hseen hroom'
  have hsize : g.sizeBy t (b.description id) =
      b.shape.sizeWith (g.rowsIn t b.sourceDescription.rows.origin) := sizeBy_basic b t id
  -- what is seen with the rows of the state is seen with more of them
  have hmore : ∀ k < g.sizeBy t (b.description id), k < b.shape.sizeWith rows := by
    intro k hk
    have hlt := sourceOf_lt_source hfits hroom' hk
    rw [hsize] at hk
    have hfound := BasicIndexing.target?_sourceOf hfits hroom' hk
    exact (BasicIndexing.sourceOf_of_target? hfits hroom (Nat.lt_of_lt_of_le hlt hrows) hfound).1
  refine ⟨?_, fun k hk => ?_⟩
  · rw [List.size_toArray, View.length_cells, hself.size_eq]
    by_contra hle
    exact Nat.lt_irrefl _ (hmore _ (Nat.lt_of_not_le hle))
  · rw [List.getElem?_toArray, List.getElem?_toArray, View.getElem?_cells, View.getElem?_cells,
      hself.size_eq, hseen.size_eq]
    by_cases hlt : k < g.sizeBy t (b.description id)
    · rw [if_pos hlt, if_pos (sourceOf_lt_source hfits hroom' hlt), hcells k hlt]
    · have hnone : ¬ b.sourceOf k < g.sizeBy t b.sourceDescription := by
        intro hin
        have hfound := BasicIndexing.target?_sourceOf hfits hroom hk
        have := (BasicIndexing.sourceOf_of_target? hfits hroom' hin hfound).1
        exact hlt (hsize ▸ this)
      rw [if_neg hlt, if_neg hnone]

/-- The script of a basic selection is that of its source, renumbered. -/
theorem Scripted.of_basic {b : BasicIndexing} (hb : g.Built) (hbase : g.Settled base)
    (ht : g.Settled t) (hr : g.Reached t) (hlogs : g.LogsAt t b.source)
    (hn : g.nodes[id]? = some (.basic b)) (hf : g.Framed id)
    (ho : b.shape.isDynamic = true → b.Onward) (h : g.Scripted base t b.source) : g.Scripted base t id := by
  obtain ⟨hsource, hfits⟩ := hb.promises hn
  have hroom := Shape.sizeWith_mostRows_le (ht.inRoom _ _ hsource)
  have hindex : ∀ u ∈ (g.pending t b.source).reverse,
      u.index < b.sourceDescription.shape.sizeWith b.sourceDescription.shape.mostRows := by
    intro u hu
    obtain ⟨rows, hlt, hfit⟩ :=
      hlogs.reaches_pending (ht.current b.source) hsource u (List.mem_reverse.mp hu)
    exact Nat.lt_of_lt_of_le hlt (Shape.sizeWith_le_mostRows hfit)
  have horder : Script.InOrder b.sourceOf
      (b.shape.sizeWith b.sourceDescription.shape.mostRows) ∨
        ∀ u ∈ (g.pending t b.source).reverse, u.IsChange := by
    cases hdyn : b.shape.isDynamic with
    | true => exact .inl (BasicIndexing.inOrder_sourceOf hfits hroom (ho hdyn))
    | false =>
      rw [BasicIndexing.isDynamic_shape hfits] at hdyn
      exact .inr fun u hu => isChange_pending hb hr ht hsource hdyn u (List.mem_reverse.mp hu)
  have hbefore := hbase.sees hb hn hf (Shape.sizeWith_le_mostRows (hbase.inRoom _ _ hsource)) hroom
  have hafter := ht.sees hb hn hf (Shape.sizeWith_le_mostRows (ht.inRoom _ _ hsource)) hroom
  obtain ⟨zs, hzs, hscript⟩ :=
    Script.renumbered h (BasicIndexing.finds hfits hroom) horder hindex hbefore
  have hpending : Script.renumber b.target? (g.pending t b.source).reverse =
      (g.pending t id).reverse := by
    rw [(ht.current id).pending_basic hn hfits
      (hlogs.reaches_pending (ht.current b.source) hsource)]
    exact List.filterMap_reverse
  rw [hpending, hzs.unique hafter] at hscript
  exact hscript

/-- **Whole epochs are scripts.** -/
theorem Epoch.scripted {past : State} (h : g.Epoch committed now edited [] base past)
    (hb : g.Built) (hcount : g.Counted) (hr : g.Reached now) (hd : g.describe id = .ok d)
    (hf : g.Framed id) (ho : g.ReadsOnward id) : g.Scripted base now id := by
  have hsettled := h.settled rfl
  induction ho generalizing d with
  | @basic id b hn onward _ ih =>
    exact .of_basic hb h.begun hsettled hr (h.logs hcount b.source) hn hf onward
      (ih (hb.promises hn).1 (hf.source hn))
  | @other id hn' =>
    have hseen := h.begun.seen hb hd hf
    have hseen' := hsettled.seen hb hd hf
    obtain ⟨node, hn, hnd⟩ := describe_eq_ok.mp hd
    obtain ⟨old, hold, hcur⟩ := h.begun.current id node hn
    obtain ⟨slot, hslot, hext⟩ := h.extendsTo (id + 1) id (Nat.lt_succ_self id) old hold
    have hclean := h.clean id old (lt_size hn) hold
    have hpending := pending_of_owns hd hn (hext.owns hcur.owns) hslot
    obtain ⟨slot', hslot', hcur'⟩ := hsettled.current id node hn
    obtain rfl := Option.some.inj (hslot.symm.trans hslot')
    cases hcur with
    | constant c =>
      have hview : g.shown now id = g.shown base id := by
        unfold shown
        rw [viewAt_constant hn, viewAt_constant hn]
      unfold Scripted
      rw [pending_eq (diffAt_constant hn), hview]
      exact .nil
    | leaf hv =>
      obtain rfl := Option.some.inj hnd
      cases hcur' with
      | leaf hv' =>
        cases hext with
        | contents hext =>
          exact .of_buffer hext.elements hclean.elements hseen hseen' (hseen.shown_leaf hn hold)
            (hseen'.shown_leaf hn hslot) (size_leaf hcount hn hold hv) (size_leaf hcount hn hslot hv')
            hpending
    | advanced hx =>
      obtain rfl := Option.some.inj hnd
      cases hcur' with
      | advanced hx' =>
        cases hext with
        | gathered hext _ =>
          exact .of_buffer hext.values hclean.1.1 hseen hseen' (hseen.shown_advanced hn hold)
            (hseen'.shown_advanced hn hslot) hx.size hx'.size hpending
    | @basic b _ _ => exact absurd hn (hn' b)
    | validation w xs => cases hnd

/-! ### Runs -/

/-- **Diffs are at their word.**  Whenever no edit is waiting, every record of
the diff of an array is as it says when it is carried out on what the records
before it have made of the committed elements, and the present elements come
out; for all arrays but those on the way to which the rows of a source are
turned around, and those that overflow when they are looked at. -/
theorem run_edit_scripts (hb : g.Built) (hcount : g.Counted) (h : g.Run committed now edited []) :
    ∀ id d, g.describe id = .ok d → g.ReadsOnward id →
      g.Overflows now id ∨
        ∃ xs ys diff, g.elementsOf committed id = some xs ∧ g.elementsOf now id = some ys ∧
          g.diff now id = .ok diff ∧ followAll? diff xs.toArray = some ys.toArray := by
  obtain ⟨base, past, hepoch⟩ := h.epoch hb
  intro id d hd ho
  have hsettled := hepoch.settled rfl
  refine (hsettled.overflows_or_plain hb hd).imp_right fun hplain => ?_
  have hscript := (hepoch.scripted hb hcount h.reached hd hplain.framed ho).followAll?_eq
  rw [List.reverse_reverse] at hscript
  have hbefore : g.elementsOf committed id = some (g.shown base id).cells := by
    unfold elementsOf
    rw [← hepoch.looks.view id]
    exact (hepoch.begun.seen hb hd hplain.framed).elementsOf_eq hepoch.begun.full hd hplain.counts
  refine ⟨_, _, g.pending now id, hbefore,
    (hsettled.seen hb hd hplain.framed).elementsOf_eq hsettled.full hd hplain.counts, ?_, hscript⟩
  rw [diff_eq hsettled.full hd, (hsettled.current id).diffAt_eq hd]
  rfl

open Table in
/-- The first column of the table gains a number. -/
theorem table_edit_scripts :
    (table.Built ∧ table.Counted ∧ table.Run opened current [1, 0] [] ∧ table.ReadsOnward 3) ∧
      ∃ diff, table.diff current 3 = .ok diff ∧ diff.length = 1 ∧
        followAll? diff #[] = some #[.ofInt 4] := by
  have hcount : table.Counted := by decide +kernel
  have honward : table.ReadsOnward 3 := .of_nodes (by decide +kernel) 3
  obtain ⟨d, hd⟩ := Outcome.exists_ok (x := table.describe 3) (by decide +kernel)
  obtain ⟨xs, ys, diff, hxs, hys, hdiff, hfollow⟩ :=
    (run_edit_scripts built_table hcount run_current 3 d hd honward).resolve_left
      (by decide +kernel)
  have hxs' : table.elementsOf opened 3 = some [] := by decide +kernel
  have hys' : table.elementsOf current 3 = some [.ofInt 4] := by decide +kernel
  have hlength : (table.diff current 3).map List.length = .ok 1 := by decide +kernel
  obtain rfl := Option.some.inj (hxs'.symm.trans hxs)
  obtain rfl := Option.some.inj (hys'.symm.trans hys)
  rw [hdiff] at hlength
  exact ⟨⟨built_table, hcount, run_current, honward⟩, diff, hdiff, Except.ok.inj hlength, hfollow⟩

/-- Rows of two numbers, and the rows turned around. -/
def mirror : Graph :=
  ((Graph.empty 0).extend
    fun _ => Node.leaf <$> Variable.rows <$> RowVariable.ofDomain [2] (.ofInt 0) (.ofInt 9) true).extend
      fun g => g.basicIndexing 0 [.slice .full, .slice ⟨none, none, -1⟩]

theorem built_mirror : mirror.Built := by
  refine .extend (.extend_leaf (.empty 0) _) ?_
  exact fun _ hn => .basic hn

namespace Mirror

/-- There are no rows. -/
def opened : State := mirror.after [.initializeRemaining] mirror.emptyState.1

/-- One row is added. -/
def grown : State := mirror.after [.edit 0 (.rows (.grow [.ofInt 1, .ofInt 2]))] opened

/-- The row is propagated. -/
def current : State := mirror.after [.propagate [0, 1]] grown

theorem run_current : mirror.Run opened current [0] [] := by
  have hopened : mirror.Run opened opened [] [] :=
    .start (.of_seeded .start (seeded_emptyState mirror) (by decide +kernel)
      (call_eq_ok_after (c := .initializeRemaining) (by decide +kernel)))
  have hgrown : mirror.Run opened grown [0] [0] :=
    hopened.edit (call_eq_ok_after (c := .edit 0 _) (by decide +kernel)) (by decide +kernel)
  exact hgrown.propagate (by decide +kernel) (by decide) (by decide +kernel)
    (call_eq_ok_after (c := .propagate [0, 1]) (by decide +kernel))

end Mirror

open Mirror in
/-- The number that is to stand second is placed first, beyond the end. -/
theorem mirror_not_followed : mirror.Built ∧ mirror.Counted ∧ mirror.Run opened current [0] [] ∧
    mirror.elementsOf opened 1 = some [] ∧ mirror.elementsOf current 1 = some [.ofInt 2, .ofInt 1] ∧
      ∃ diff, mirror.diff current 1 = .ok diff ∧
        diff = [.placement 1 (.ofInt 1), .placement 0 (.ofInt 2)] ∧ followAll? diff #[] = none :=
  ⟨built_mirror, by decide +kernel, run_current, by decide +kernel, by decide +kernel, _,
    by decide +kernel, rfl, by decide +kernel⟩

end Graph
end ArrayFlow
