import ArrayFlow.Proofs.Gathered
import ArrayFlow.Proofs.VariableHistory
import Mathlib.Data.List.Perm.Basic

/-!
# Lists are arrangements

Read from its first item to the bottom of its stack, a list is an
**arrangement** of `0, …, count - 1`: every number stands in it once.  Growing
and shrinking move the border between items and stack and leave the sequence
as it is; an exchange reorders it.

An exchange does not write a value over an equal one, as are the two zeros, so
numbers are told apart by their places.

* `History.arranges` — the invariant of a list through its history;
* `shrinks_grows` — as many steps of growth give back what was shrunk away;
* `Reached.list_arranged` — what this means for a list in a graph.
-/

namespace ArrayFlow

namespace Binary64

/-- Below `2 ^ 53` different numbers are not rounded to equal ones. -/
theorem ofNat_inj {k l : Nat} (hk : k < 2 ^ 53) (hl : l < 2 ^ 53)
    (h : (ofNat k).place? = (ofNat l).place?) : k = l := by
  rw [ofNat, ofNat, place?_ofInt (by omega), place?_ofInt (by omega)] at h
  have hone : (one : Int) ≠ 0 := by have := one_pos; omega
  exact Int.ofNat.inj (Int.eq_of_mul_eq_mul_right hone (Option.some.inj h))

end Binary64

namespace Journal

theorem exists_back {α : Type} {j : Journal α} (h : 0 < j.size) :
    ∃ x, j.values.back? = some x := by
  rw [Array.back?_eq_getElem?]
  exact ⟨_, Array.getElem?_eq_getElem (Nat.sub_lt h Nat.one_pos)⟩

/-- A value that is not written over an equal one has the place of that one. -/
theorem places_set (j : Journal Binary64) (i : Nat) (x : Binary64) :
    (j.set i x).values.map Binary64.place? =
      (j.values.map Binary64.place?).setIfInBounds i x.place? := by
  unfold set
  split
  · next hnone =>
    rw [Array.setIfInBounds_eq_of_size_le]
    rw [Array.size_map]
    exact Array.getElem?_eq_none_iff.mp hnone
  · next old hold =>
    split
    · next heq =>
      have hplace : (j.values.map Binary64.place?)[i]? = some x.place? := by
        rw [Array.getElem?_map, hold, Option.map_some, Binary64.place?_eq_of_beq heq]
      apply Array.ext_getElem?
      intro k
      rw [Array.getElem?_setIfInBounds]
      split
      · next hik =>
        subst hik
        rw [hplace, if_pos (Array.getElem?_eq_some_iff.mp hplace).1]
      · rfl
    · exact Array.map_setIfInBounds

theorem places_exchange (j : Journal Binary64) (i k : Nat) :
    ((j.exchange i k).values.map Binary64.place?).Perm (j.values.map Binary64.place?) := by
  unfold exchange
  split
  · exact .refl _
  · split
    · next a b ha hb =>
      have ha' : (j.values.map Binary64.place?)[i]? = some a.place? := by
        rw [Array.getElem?_map, ha, Option.map_some]
      have hb' : (j.values.map Binary64.place?)[k]? = some b.place? := by
        rw [Array.getElem?_map, hb, Option.map_some]
      obtain ⟨hi, hai⟩ := Array.getElem?_eq_some_iff.mp ha'
      obtain ⟨hk, hbk⟩ := Array.getElem?_eq_some_iff.mp hb'
      have hswap := Array.swap_perm hi hk
      simp only [Array.swap_def, hai, hbk] at hswap
      rw [places_set, places_set]
      rw [Array.perm_iff_toList_perm] at hswap ⊢
      simpa only [Array.toList_setIfInBounds, Array.toList_set] using hswap
    · exact .refl _

end Journal

namespace ListVariable

variable {v : ListVariable} {c : Contents}

namespace Contents

/-- The items, and behind them the stack from its top. -/
def sequence (c : Contents) : List Binary64 :=
  c.items.values.toList ++ c.unused.values.toList.reverse

/-- The second contents have one item more, which was the top of the stack. -/
structure Gains (c c' : Contents) (x : Binary64) : Prop where
  top : c.unused.values.back? = some x
  items : c'.items.values = c.items.values.push x
  unused : c'.unused.values = c.unused.values.pop

/-- The second contents have the last item no more, which is the top of the
stack. -/
structure Loses (c c' : Contents) (x : Binary64) : Prop where
  last : c.items.values.back? = some x
  items : c'.items.values = c.items.values.pop
  unused : c'.unused.values = c.unused.values.push x

theorem gains_grow {x : Binary64} (h : c.unused.values.back? = some x) : c.Gains c.grow x := by
  unfold grow
  rw [h]
  exact ⟨h, rfl, Journal.values_pop _⟩

theorem loses_shrink {x : Binary64} (h : c.items.values.back? = some x) :
    c.Loses c.shrink x := by
  unfold shrink
  rw [h]
  exact ⟨h, Journal.values_pop _, rfl⟩

theorem Gains.sequence_eq {c' : Contents} {x : Binary64} (h : c.Gains c' x) :
    c'.sequence = c.sequence := by
  obtain ⟨xs, hxs⟩ := Array.back?_eq_some_iff.mp h.top
  simp [sequence, h.items, h.unused, hxs]

theorem Loses.sequence_eq {c' : Contents} {x : Binary64} (h : c.Loses c' x) :
    c'.sequence = c.sequence := by
  obtain ⟨xs, hxs⟩ := Array.back?_eq_some_iff.mp h.last
  simp [sequence, h.items, h.unused, hxs]

/-- Growing moves the border between items and stack. -/
theorem sequence_grow (c : Contents) : c.grow.sequence = c.sequence := by
  cases h : c.unused.values.back? with
  | none =>
    unfold grow
    rw [h]
  | some x => exact (gains_grow h).sequence_eq

theorem sequence_shrink (c : Contents) : c.shrink.sequence = c.sequence := by
  cases h : c.items.values.back? with
  | none =>
    unfold shrink
    rw [h]
  | some x => exact (loses_shrink h).sequence_eq

theorem length_sequence (c : Contents) :
    c.sequence.length = c.items.size + c.unused.size := by
  simp [sequence, Journal.size]

end Contents

/-- Every number of the list stands once in the sequence of its items and its
stack: the sequence consists of the roundings of the numbers in some order. -/
def Arranges (v : ListVariable) (c : Contents) : Prop :=
  ∃ order : List Nat, order.Perm (List.range v.count) ∧
    List.Forall₂ (fun x k => (x == Binary64.ofNat k) = true) c.sequence order

/-- The numbers are counted by their places. -/
theorem arranges_iff : v.Arranges c ↔
    (c.sequence.map Binary64.place?).Perm
      ((List.range v.count).map fun k => (Binary64.ofNat k).place?) := by
  have hplace : ∀ order : List Nat,
      List.Forall₂ (fun x k => (x == Binary64.ofNat k) = true) c.sequence order ↔
        c.sequence.map Binary64.place? = order.map fun k => (Binary64.ofNat k).place? := by
    intro order
    rw [← List.forall₂_eq_eq_eq, List.forall₂_map_left_iff, List.forall₂_map_right_iff]
    have hiff : ∀ (x : Binary64) (k : Nat),
        (x == Binary64.ofNat k) = true ↔ x.place? = (Binary64.ofNat k).place? := fun x k =>
      ⟨Binary64.place?_eq_of_beq, fun h => Binary64.beq_of_place?_eq h fun hx =>
        Binary64.ofNat_ne_nan k (Binary64.place?_eq_none.mp (h ▸ Binary64.place?_eq_none.mpr hx))⟩
    simp only [hiff]
  have hperm := congrFun₂ (List.eq_map_comp_perm fun k => (Binary64.ofNat k).place?)
    (c.sequence.map Binary64.place?) (List.range v.count)
  rw [← hperm]
  constructor
  · rintro ⟨order, horder, h⟩
    exact ⟨order, (hplace order).mp h, horder⟩
  · rintro ⟨order, h, horder⟩
    exact ⟨order, horder, (hplace order).mpr h⟩

namespace Arranges

theorem of_sequence {c' : Contents} (h : v.Arranges c) (heq : c'.sequence = c.sequence) :
    v.Arranges c' := by
  unfold Arranges
  rw [heq]
  exact h

theorem length_eq (h : v.Arranges c) : c.items.size + c.unused.size = v.count := by
  obtain ⟨order, horder, hall⟩ := h
  rw [← c.length_sequence, hall.length_eq, horder.length_eq, List.length_range]

/-- As long as numbers are not rounded, no two of them are equal. -/
theorem distinct (h : v.Arranges c) (hcount : v.count ≤ 2 ^ 53) :
    c.sequence.Pairwise fun x y => (x == y) = false := by
  have hnodup : (c.sequence.map Binary64.place?).Nodup := by
    refine (arranges_iff.mp h).nodup_iff.mpr (List.nodup_range.map_on fun k hk l hl heq => ?_)
    have hk := List.mem_range.mp hk
    have hl := List.mem_range.mp hl
    exact Binary64.ofNat_inj (by omega) (by omega) heq
  refine (List.pairwise_map.mp hnodup).imp fun hne => ?_
  rw [← Bool.not_eq_true]
  exact fun heq => hne (Binary64.place?_eq_of_beq heq)

theorem exchange (h : v.Arranges c) (i k : Nat) :
    v.Arranges { c with items := c.items.exchange i k } := by
  rw [arranges_iff] at h ⊢
  refine .trans ?_ h
  unfold Contents.sequence
  rw [List.map_append, List.map_append]
  refine .append_right _ ?_
  have hperm := Array.perm_iff_toList_perm.mp (c.items.places_exchange i k)
  rwa [Array.toList_map, Array.toList_map] at hperm

/-- A list that nobody has seeded holds the numbers in their order. -/
theorem initial (v : ListVariable) : v.Arranges v.initial := by
  refine ⟨List.range v.count, .refl _, ?_⟩
  have hle := Nat.le_trans v.minSize_le_maxSize v.maxSize_le_count
  have hsequence : v.initial.sequence = (List.range v.count).map Binary64.ofNat := by
    conv_rhs => rw [← List.take_append_drop v.minSize (List.range v.count)]
    simp [Contents.sequence, ListVariable.initial, Journal.ofArray, List.take_range,
      Nat.min_eq_left hle]
  rw [hsequence, List.forall₂_map_left_iff, List.forall₂_same]
  exact fun k _ => Binary64.beq_of_place?_eq rfl (Binary64.ofNat_ne_nan k)

end Arranges

/-- An admitted value is the rounding of its whole part, which is one of the
numbers and not among the items seen. -/
theorem toNat_of_admits {seen : List Nat} {x : Binary64} (h : v.admits seen x = true) :
    x.toNat < v.count ∧ x.toNat ∉ seen ∧ (x == .ofNat x.toNat) = true := by
  simp only [admits, Bool.and_eq_true, Bool.not_eq_true', decide_eq_false_iff_not] at h
  obtain ⟨⟨⟨hwhole, hlo⟩, hhi⟩, hseen⟩ := h
  have hx : x ≠ .nan := by rintro rfl; cases hwhole
  have h0 := Binary64.le_of_not_lt Binary64.zero_ne_nan hx hlo
  refine ⟨Binary64.toNat_lt_of_le h0 (Binary64.le_refl hx) hhi, by simpa using hseen, ?_⟩
  exact Binary64.beq_of_place?_eq (Binary64.place?_ofNat_toNat hwhole h0).symm hx

/-- Distinct items are the whole parts of the values, the last one first. -/
theorem itemsOf_spec {seen used : List Nat} {xs : List Binary64}
    (h : v.itemsOf seen xs = .ok used) (hseen : seen.Nodup) (hlt : ∀ k ∈ seen, k < v.count) :
    used = (xs.map Binary64.toNat).reverse ++ seen ∧ used.Nodup ∧ (∀ k ∈ used, k < v.count) ∧
      ∀ x ∈ xs, (x == .ofNat x.toNat) = true := by
  induction xs generalizing seen with
  | nil =>
    obtain rfl := Except.ok.inj h
    exact ⟨rfl, hseen, hlt, by simp⟩
  | cons x xs ih =>
    rw [itemsOf] at h
    split at h
    · next hx =>
      obtain ⟨hcount, hnew, heq⟩ := toNat_of_admits hx
      obtain ⟨hused, hnodup, hall, hvalues⟩ := ih h (List.nodup_cons.mpr ⟨hnew, hseen⟩)
        (List.forall_mem_cons.mpr ⟨hcount, hlt⟩)
      refine ⟨?_, hnodup, hall, List.forall_mem_cons.mpr ⟨heq, hvalues⟩⟩
      rw [hused, List.map_cons, List.reverse_cons, List.append_assoc]
      rfl
    · cases h

/-- Distinct numbers below `n` and those that are not among them. -/
theorem perm_range_of_nodup {used : List Nat} {n : Nat} (hnodup : used.Nodup)
    (hlt : ∀ k ∈ used, k < n) :
    (used ++ (List.range n).filter fun k => !used.contains k).Perm (List.range n) := by
  have hrest : ∀ k, k ∈ ((List.range n).filter fun k => !used.contains k) ↔
      k < n ∧ k ∉ used := by
    intro k
    simp
  have hboth : (used ++ (List.range n).filter fun k => !used.contains k).Nodup :=
    hnodup.append (List.nodup_range.filter _) fun k hk hk' => ((hrest k).mp hk').2 hk
  refine (List.perm_ext_iff_of_nodup hboth List.nodup_range).mpr fun k => ?_
  rw [List.mem_append, hrest, List.mem_range]
  constructor
  · rintro (hk | hk)
    · exact hlt k hk
    · exact hk.1
  · intro hk
    by_cases hin : k ∈ used
    · exact .inl hin
    · exact .inr ⟨hk, hin⟩

/-- Behind explicit items wait the numbers that are not among them. -/
theorem Arranges.seed {values : List Binary64} {used : List Nat}
    (h : v.itemsOf [] values = .ok used) :
    v.Arranges ⟨.ofArray values.toArray,
      .ofArray (((List.range v.count).reverse.filter fun item => !used.contains item).map
        Binary64.ofNat).toArray⟩ := by
  obtain ⟨hused, hnodup, hlt, hvalues⟩ := itemsOf_spec h List.nodup_nil (by simp)
  rw [List.append_nil] at hused
  let rest := (List.range v.count).filter fun item => !used.contains item
  have hitems : (values.map Binary64.toNat).Perm used := hused ▸ (List.reverse_perm _).symm
  refine ⟨values.map Binary64.toNat ++ rest,
    (hitems.append_right rest).trans (perm_range_of_nodup hnodup hlt), ?_⟩
  have hsequence : (Contents.mk (.ofArray values.toArray) (.ofArray
      (((List.range v.count).reverse.filter fun item => !used.contains item).map
        Binary64.ofNat).toArray)).sequence = values ++ rest.map Binary64.ofNat := by
    simp [Contents.sequence, Journal.ofArray, rest]
  rw [hsequence]
  refine List.rel_append ?_ ?_
  · rw [List.forall₂_map_right_iff, List.forall₂_same]
    exact hvalues
  · rw [List.forall₂_map_left_iff, List.forall₂_same]
    exact fun k _ => Binary64.beq_of_place?_eq rfl (Binary64.ofNat_ne_nan k)

/-! ### Growing back -/

/-- Contents with the same items and the same stack, whatever their logs. -/
structure Contents.Alike (c c' : Contents) : Prop where
  items : c.items.values = c'.items.values
  unused : c.unused.values = c'.unused.values

namespace Contents.Alike

variable {c' c'' : Contents}

theorem refl (c : Contents) : c.Alike c := ⟨rfl, rfl⟩

theorem trans (h : c.Alike c') (h' : c'.Alike c'') : c.Alike c'' :=
  ⟨h.items.trans h'.items, h.unused.trans h'.unused⟩

theorem grow (h : c.Alike c') : c.grow.Alike c'.grow := by
  unfold Contents.grow
  rw [h.unused]
  split
  · refine ⟨?_, ?_⟩
    · rw [Journal.values_push, Journal.values_push, h.items]
    · rw [Journal.values_pop, Journal.values_pop, h.unused]
  · exact h

/-- The item that was shrunk away comes back. -/
theorem shrink_grow (hpos : 0 < c.items.size) : c.shrink.grow.Alike c := by
  obtain ⟨x, hx⟩ := Journal.exists_back hpos
  have hloses := loses_shrink hx
  have hgains : c.shrink.Gains c.shrink.grow x :=
    gains_grow (by rw [hloses.unused, Array.back?_push])
  obtain ⟨xs, hxs⟩ := Array.back?_eq_some_iff.mp hx
  refine ⟨?_, ?_⟩
  · rw [hgains.items, hloses.items, hxs, Array.pop_push]
  · rw [hgains.unused, hloses.unused, Array.pop_push]

end Contents.Alike

theorem checkGrowing_eq_ok {id : NodeId} : v.checkGrowing id = .ok () ↔ v.growing = true := by
  unfold checkGrowing
  split
  · next h => exact ⟨fun _ => h, fun _ => rfl⟩
  · next h => exact ⟨nofun, fun hg => absurd hg h⟩

theorem edit_grow_eq_ok {id : NodeId} {c' : Contents} : v.edit id .grow c = .ok () c' ↔
    v.growing = true ∧ c.items.size < v.maxSize ∧ c' = c.grow := by
  constructor
  · intro h
    cases hgrowing : v.checkGrowing id with
    | error r => simp [edit, hgrowing] at h
    | ok u =>
      by_cases hmost : v.maxSize ≤ c.items.size
      · simp [edit, hgrowing, hmost] at h
      · have hmost := Nat.lt_of_not_le hmost
        cases (Variable.edit_grow hgrowing hmost).symm.trans h
        exact ⟨checkGrowing_eq_ok.mp hgrowing, hmost, rfl⟩
  · rintro ⟨hgrowing, hmost, rfl⟩
    exact Variable.edit_grow (checkGrowing_eq_ok.mpr hgrowing) hmost

theorem edit_shrink_eq_ok {id : NodeId} {c' : Contents} (h : v.edit id .shrink c = .ok () c') :
    v.growing = true ∧ v.minSize < c.items.size ∧ c' = c.shrink := by
  cases hgrowing : v.checkGrowing id with
  | error r => simp [edit, hgrowing] at h
  | ok u =>
    by_cases hleast : c.items.size ≤ v.minSize
    · simp [edit, hgrowing, hleast] at h
    · have hleast := Nat.lt_of_not_le hleast
      cases (Variable.edit_shrink hgrowing hleast).symm.trans h
      exact ⟨checkGrowing_eq_ok.mp hgrowing, hleast, rfl⟩

end ListVariable

namespace Variable

variable {v : ListVariable} {base now : Contents}

/-- Where there are contents, there is room for all items. -/
theorem Begins.room {c : Contents} (h : (Variable.list v).Begins c) : v.count ≤ maxElements := by
  cases h with
  | defaults h => exact (defaults_eq_ok.mp h).2.1
  | seed h =>
    cases h with
    | list _ _ room _ => exact room

theorem History.room (h : (Variable.list v).History base now) : v.count ≤ maxElements :=
  (h.both (P := fun _ => v.count ≤ maxElements) (fun _ h => h.room) (fun _ _ _ _ _ _ h => h)
    fun _ h => h).1

/-- **A list is an arrangement**, at the last commit and now. -/
theorem History.arranges (h : (Variable.list v).History base now) :
    (∃ c, base = .list c ∧ v.Arranges c) ∧ ∃ c, now = .list c ∧ v.Arranges c := by
  refine h.both (P := fun x => ∃ c, x = .list c ∧ v.Arranges c) ?_ ?_ ?_
  · rintro x (hdefaults | hseed)
    · obtain ⟨-, -, rfl⟩ := defaults_eq_ok.mp hdefaults
      exact ⟨_, rfl, .initial v⟩
    · cases hseed with
      | list _ _ _ hitems => exact ⟨_, rfl, .seed hitems⟩
  · rintro id e _ x' - hedit ⟨c, rfl, hc⟩
    cases becomes_of_edit hedit with
    | exchangeItems => exact ⟨_, rfl, hc.exchange _ _⟩
    | growItems => exact ⟨_, rfl, hc.of_sequence c.sequence_grow⟩
    | shrinkItems => exact ⟨_, rfl, hc.of_sequence c.sequence_shrink⟩
  · rintro _ ⟨c, rfl, hc⟩
    exact ⟨_, rfl, hc.of_sequence rfl⟩

end Variable

namespace Graph

variable {g : Graph} {s s' s₁ : State} {id : NodeId} {v : ListVariable} {c : ListVariable.Contents}

/-- An edit of a list in a graph is an edit of its contents. -/
theorem edit_list_eq_ok (hs : g.Sound s) (hn : g.nodes[id]? = some (.leaf (.list v)))
    (hslot : s.slot? id = some (.contents (.list c))) {e : ListVariable.Edit} :
    g.edit id (.list e) s = .ok () s' ↔
      ∃ c', v.edit id e c = .ok () c' ∧ s' = s.put id (.contents (.list c')) := by
  rw [hs.edit_leaf_eq_ok hn hslot rfl]
  constructor
  · rintro ⟨x', hedit, rfl⟩
    obtain ⟨c', hc', rfl⟩ := Outcome.putBack_eq_ok.mp hedit
    exact ⟨c', hc', rfl⟩
  · rintro ⟨c', hc', rfl⟩
    exact ⟨.list c', Outcome.putBack_eq_ok.mpr ⟨c', hc', rfl⟩, rfl⟩

/-- **Growing back.**  After a number of accepted calls that shrink a list, as
many calls that grow it are accepted, and it has the items it had, in their
order. -/
theorem shrinks_grows {k : Nat} (hr : g.Reached s)
    (hn : g.nodes[id]? = some (.leaf (.list v)))
    (hslot : s.slot? id = some (.contents (.list c))) (hmost : c.items.size ≤ v.maxSize)
    (hshrinks : g.calls (List.replicate k (.edit id (.list .shrink))) s = .ok () s₁) :
    ∃ s₂ c', g.calls (List.replicate k (.edit id (.list .grow))) s₁ = .ok () s₂ ∧
      s₂.slot? id = some (.contents (.list c')) ∧ c'.Alike c := by
  induction k generalizing s c with
  | zero =>
    cases hshrinks
    exact ⟨_, c, rfl, hslot, .refl c⟩
  | succ k ih =>
    obtain ⟨_, t, hshrink, hothers⟩ := Outcome.run_bind_eq_ok.mp hshrinks
    obtain ⟨_, hedit, rfl⟩ := (edit_list_eq_ok hr.sound hn hslot).mp hshrink
    obtain ⟨hgrowing, hleast, rfl⟩ := ListVariable.edit_shrink_eq_ok hedit
    have hpos : 0 < c.items.size := Nat.zero_lt_of_lt hleast
    have hsize : c.shrink.items.size = c.items.size - 1 := by
      obtain ⟨x, hx⟩ := Journal.exists_back hpos
      show c.shrink.items.values.size = _
      rw [(ListVariable.Contents.loses_shrink hx).items, Array.size_pop]
      rfl
    have hreached := hr.accepted (c := .edit id (.list .shrink)) hshrink
    have hslot' := State.slot?_put_self hslot (.contents (.list c.shrink))
    obtain ⟨u, c', hgrows, hu, hback⟩ := ih hreached hslot' (by omega) hothers
    -- the first item that went is the last one to come back
    have hback' := congrArg Array.size hback.items
    have hgrow : g.edit id (.list .grow) u =
        .ok () (u.put id (.contents (.list c'.grow))) :=
      (edit_list_eq_ok ((hreached.calls hothers).calls hgrows).sound hn hu).mpr
        ⟨c'.grow, ListVariable.edit_grow_eq_ok.mpr
          ⟨hgrowing, by unfold Journal.size at *; omega, rfl⟩, rfl⟩
    refine ⟨_, c'.grow, ?_, State.slot?_put_self hu _,
      hback.grow.trans (.shrink_grow hpos)⟩
    rw [List.replicate_succ']
    exact calls_append.mpr ⟨u, hgrows, Outcome.run_bind_eq_ok.mpr ⟨(), _, hgrow, rfl⟩⟩

/-- The items are seen as they stand in the buffer. -/
theorem bufferView_items {items : Array Binary64} (hroom : v.count ≤ maxElements)
    (hmost : items.size ≤ v.maxSize) (hfixed : v.growing = false → items.size = v.count) :
    bufferView v.shape items = .ok (.ofArray items [items.size]) := by
  have hmax : maxElements < 2 ^ 60 := by decide
  have hcount := v.maxSize_le_count
  have hextents : v.shape.extentsOf items.size = [items.size] := by
    unfold ListVariable.shape
    cases hg : v.growing with
    | true => simp [Shape.extentsOf, RowMajor.size]
    | false => simp [Shape.extentsOf, hfixed hg]
  have hlays : v.shape.LaysOut := by
    unfold ListVariable.shape
    cases hg : v.growing with
    | true => exact (by decide : (Shape.dynamic []).LaysOut)
    | false =>
      have : v.count * 1 < 2 ^ 64 := by omega
      exact ⟨trivial, this, trivial⟩
  have hsize : RowMajor.size [items.size] < 2 ^ 64 := by
    simp only [RowMajor.size]
    omega
  rw [bufferView_eq hlays (hextents ▸ hsize), hextents]

/-- What is true of the list `id` with the contents `c`: its items and its
stack hold every number once; the items, which are all that can be seen, are
as many as the list may have, all of them if it is fixed; a call that grows the
list adds one item, one that shrinks it takes the last one away, and growing
undoes shrinking. -/
structure Arranged (g : Graph) (s : State) (id : NodeId) (v : ListVariable)
    (c : ListVariable.Contents) : Prop where
  slot : s.slot? id = some (.contents (.list c))
  arranges : v.Arranges c
  distinct : v.count ≤ 2 ^ 53 → c.sequence.Pairwise fun x y => (x == y) = false
  least : v.minSize ≤ c.items.size
  most : c.items.size ≤ v.maxSize
  fixed : v.growing = false → c.items.size = v.count
  view : g.view s id = .ok (.ofArray c.items.values [c.items.size])
  grow : ∀ s', g.edit id (.list .grow) s = .ok () s' →
    ∃ c' x, s'.slot? id = some (.contents (.list c')) ∧ c.Gains c' x
  shrink : ∀ s', g.edit id (.list .shrink) s = .ok () s' →
    ∃ c' x, s'.slot? id = some (.contents (.list c')) ∧ c.Loses c' x
  growBack : ∀ k s₁, g.calls (List.replicate k (.edit id (.list .shrink))) s = .ok () s₁ →
    ∃ s₂ c', g.calls (List.replicate k (.edit id (.list .grow))) s₁ = .ok () s₂ ∧
      s₂.slot? id = some (.contents (.list c')) ∧ c'.Alike c

/-- **A list is the first part of an arrangement**, whatever calls were
made. -/
theorem Reached.list_arranged (h : g.Reached s) (hn : g.nodes[id]? = some (.leaf (.list v)))
    (hinit : s.isInitialized id = true) : ∃ c, g.Arranged s id v c := by
  obtain ⟨committed, hsince⟩ := h.since hinit
  obtain ⟨base, x, -, hslot, hhistory⟩ := hsince.history hn
  obtain ⟨-, c, rfl, harranges⟩ := hhistory.arranges
  cases hhistory.holds.2 with
  | list least most _ _ =>
    have hfixed : v.growing = false → c.items.size = v.count := fun hg => by
      have := v.fixed_minSize hg
      have := v.maxSize_le_count
      omega
    refine ⟨c, hslot, harranges, harranges.distinct, least, most, hfixed, ?_, ?_, ?_,
      fun k s₁ => shrinks_grows h hn hslot most⟩
    · rw [h.sound.view_leaf hn hslot]
      exact congrArg liftM (bufferView_items hhistory.room most hfixed)
    · -- the stack is not empty, for the items are fewer than there are numbers
      intro s' hgrow
      obtain ⟨c', hedit, rfl⟩ := (edit_list_eq_ok h.sound hn hslot).mp hgrow
      obtain ⟨-, hmost, rfl⟩ := ListVariable.edit_grow_eq_ok.mp hedit
      have hlength := harranges.length_eq
      have hcount := v.maxSize_le_count
      obtain ⟨x, hx⟩ := Journal.exists_back (j := c.unused) (by omega)
      exact ⟨c.grow, x, State.slot?_put_self hslot _, ListVariable.Contents.gains_grow hx⟩
    · intro s' hshrink
      obtain ⟨c', hedit, rfl⟩ := (edit_list_eq_ok h.sound hn hslot).mp hshrink
      obtain ⟨-, hleast, rfl⟩ := ListVariable.edit_shrink_eq_ok hedit
      obtain ⟨x, hx⟩ := Journal.exists_back (Nat.zero_lt_of_lt hleast)
      exact ⟨c.shrink, x, State.slot?_put_self hslot _, ListVariable.Contents.loses_shrink hx⟩

namespace Tour

/-- One to three of four stops. -/
def stops : ListVariable := ⟨4, 1, 3, true, by decide, by decide, nofun⟩

def tour : Graph := (Graph.empty 0).extend fun _ => .ok (.leaf (.list stops))

/-- The last stop and the first, which is written as the other zero; then the
next one is added, it and the last change places, and two stops are dropped
before a revert.  Of the three stops the last is dropped again. -/
def planned : State :=
  tour.after [.seed ⟨0, .list⟩ [.ofNat 3, .negZero], .edit 0 (.list .grow),
    .edit 0 (.list (.exchange 0 2)), .commit [0], .edit 0 (.list .shrink),
    .edit 0 (.list .shrink), .revert [0], .edit 0 (.list .shrink)] tour.emptyState.1

end Tour

open Tour in
/-- The stop that was dropped is the next one to be added. -/
theorem planned_arranged :
    (tour.Reached planned ∧ tour.nodes[0]? = some (.leaf (.list stops)) ∧
      planned.isInitialized 0 = true) ∧
      ∃ c, tour.Arranged planned 0 stops c ∧ c.items.values = #[.ofNat 1, .negZero] ∧
        c.unused.values = #[.ofNat 2, .ofNat 3] := by
  have hr : tour.Reached planned := reached_after .start (by decide +kernel)
  have hn : tour.nodes[0]? = some (.leaf (.list stops)) := rfl
  have hinit : planned.isInitialized 0 = true := by decide +kernel
  obtain ⟨c, hc⟩ := hr.list_arranged hn hinit
  have hslot : planned.slot? 0 = some (.contents (.list
      ⟨⟨#[.ofNat 1, .negZero], [.removal 2 (.ofNat 3)], 3⟩,
        ⟨#[.ofNat 2, .ofNat 3], [.placement 1 (.ofNat 3)], 1⟩⟩)) := by decide +kernel
  obtain rfl := Variable.Contents.list.inj
    (Slot.contents.inj (Option.some.inj (hc.slot.symm.trans hslot)))
  exact ⟨⟨hr, hn, hinit⟩, _, hc, rfl, rfl⟩

end Graph
end ArrayFlow
