import ArrayFlow.Proofs.Selection

/-!
# Two ways to ask for one selection

A slice can be written out as the array of the positions that it selects, and
a position as an array without axes.  So one selection can be asked for in two
ways (`Graph.Pairing`), of which one looks at the source with other strides
and the other keeps a copy that is brought up to date.

The two are compared at coordinates (`Graph.Agrees`): the coordinates in the
source that the maps of the axes give for some coordinates of the result are
those that advanced indexing weaves together.  What the constants list is read
once, and no state is looked at.

* `Graph.agrees_slice` — one slice among full ones;
* `Graph.Drops` — positions, axis by axis;
* `Graph.Pairing.exists_agrees` — both of them.
-/

namespace ArrayFlow

open AdvancedIndexing

/-- A shape is known from its extents with any number of rows. -/
theorem Shape.eq_of_withRows {s t : Shape} (h : ∀ n, s.withRows n = t.withRows n) : s = t := by
  cases s with
  | static ns =>
    cases t with
    | static ms => exact congrArg Shape.static (h 0)
    | dynamic ms => cases (h 0).symm.trans (h 1)
  | dynamic ns =>
    cases t with
    | static ms => cases (h 0).trans (h 1).symm
    | dynamic ms => exact congrArg Shape.dynamic (List.cons.inj (h 0)).2

/-! ### Full slices -/

namespace AxisMap

/-- What a full slice makes of an axis. -/
def full : Dim → AxisMap
  | .dynamic => whole
  | .fixed n => range ⟨0, 1, n⟩

/-- The extent of an axis, if it is fixed, is a signed word. -/
abbrev Signed (d : Dim) : Prop := ∀ n, d = .fixed n → n < 2 ^ 63

theorem ofSelector_full {axis : Nat} {d : Dim} (h : Signed d) :
    ofSelector axis d (.slice .full) = .ok (full d) := by
  cases d with
  | dynamic => rfl
  | fixed n =>
    have hfull := Slice.resolve?_eq_range? (h n rfl) (s := .full) ⟨nofun, nofun, by decide⟩
    rw [Slice.full_range? (h n rfl)] at hfull
    rw [ofSelector, hfull]
    rfl

theorem ofSelectors_cons {axis : Nat} {d : Dim} {ds : List Dim} {s : Selector}
    {ss : List Selector} {m : AxisMap} {maps : List AxisMap} (hm : ofSelector axis d s = .ok m)
    (hmaps : ofSelectors (axis + 1) ds ss = .ok maps) :
    ofSelectors axis (d :: ds) (s :: ss) = .ok (m :: maps) := by
  simp only [ofSelectors, List.headD_cons, List.tail_cons, hm, hmaps]
  rfl

/-- Full slices in front of other selectors. -/
theorem ofSelectors_full (axis : Nat) {front : List Dim} (ds : List Dim) (ss : List Selector)
    (hfront : ∀ d ∈ front, Signed d) :
    ofSelectors axis (front ++ ds) (front.map (fun _ => .slice .full) ++ ss) =
      (front.map full ++ ·) <$> ofSelectors (axis + front.length) ds ss := by
  induction front generalizing axis with
  | nil => cases h : ofSelectors axis ds ss <;> exact h
  | cons d front ih =>
    obtain ⟨hd, hrest⟩ := List.forall_mem_cons.mp hfront
    have hnext := ih (axis + 1) hrest
    rw [Nat.add_right_comm] at hnext
    show ofSelector axis d (.slice .full) >>= _ = _
    rw [ofSelector_full hd]
    show ofSelectors (axis + 1) (front ++ ds) (front.map (fun _ => .slice .full) ++ ss) >>= _ = _
    rw [hnext]
    cases ofSelectors (axis + front.length + 1) ds ss <;> rfl

/-- Nothing but full slices. -/
theorem ofSelectors_all_full (axis : Nat) {ds : List Dim} (h : ∀ d ∈ ds, Signed d) :
    ofSelectors axis ds (ds.map fun _ => .slice .full) = .ok (ds.map full) := by
  have hfull := ofSelectors_full axis [] [] h
  rw [List.append_nil, List.append_nil] at hfull
  rw [hfull, ofSelectors, Except.map_ok]
  exact congrArg Except.ok (List.append_nil _)

theorem fits_full {ds : List Dim} (h : ∀ d ∈ ds, Signed d) :
    List.Forall₂ (fun d m => Fits d m) ds (ds.map full) :=
  ofSelectors_fits (ofSelectors_all_full 0 h)

/-- A position counted from either end of an axis. -/
theorem ofPosition_eq {n p : Nat} {i : Int} (hn : n < 2 ^ 63) (hp : p < n)
    (hi : i = p ∨ i = p - n) : ofPosition n i = .ok (position p) := by
  have hlast : (if 0 ≤ (p : Int) ∧ (p : Int) < n then pure (position (p : Int).toNat)
      else throw (.refused (.indexOutOfBounds i n)) : Except Failure AxisMap) =
        .ok (position p) := by
    rw [if_pos ⟨by omega, by omega⟩, Int.toNat_natCast]
    rfl
  unfold ofPosition
  rw [signedWord_of_lt hn]
  by_cases hneg : i < 0
  · obtain rfl : i = p - n := by omega
    have hsum : (p : Int) - n + n = p := by omega
    simp only [if_pos hneg]
    rw [hsum, signed_of_mem (by omega) (by omega)]
    exact hlast
  · obtain rfl : i = p := by omega
    simp only [if_neg hneg]
    exact hlast

theorem extentsFrom_full (front : List Dim) (m : Nat) (maps : List AxisMap) (ns : List Nat) :
    extentsFrom (front.map full ++ maps) (front.map (Dim.extentOr m) ++ ns) =
      front.map (Dim.extentOr m) ++ extentsFrom maps ns := by
  induction front with
  | nil => rfl
  | cons d front ih =>
    cases d with
    | dynamic => exact congrArg (m :: ·) ih
    | fixed n => exact congrArg (n :: ·) ih

theorem sourceCoordinates_full {front : List Dim} {maps : List AxisMap} {ks ls : List Nat}
    (h : ks.length = front.length) :
    sourceCoordinates (front.map full ++ maps) (ks ++ ls) = ks ++ sourceCoordinates maps ls := by
  induction front generalizing ks with
  | nil =>
    rw [List.length_eq_zero_iff.mp h]
    rfl
  | cons d front ih =>
    cases ks with
    | nil => cases h
    | cons k ks =>
      have hrest := ih (Nat.succ.inj h)
      cases d with
      | dynamic => exact congrArg (k :: ·) hrest
      | fixed n =>
        have hposition : SliceRange.position ⟨0, 1, n⟩ k = k := by simp [SliceRange.position]
        show SliceRange.position ⟨0, 1, n⟩ k :: _ = _
        rw [hposition]
        exact congrArg (k :: ·) hrest

section Among

variable {before after : List Dim} {n : Nat} {r : SliceRange}

/-- One slice among full ones makes a range among whole axes, if its bounds and
step are words that leave room. -/
theorem ofSelectors_among (axis : Nat) {s : Slice} (hn : n < 2 ^ 63) (hr : s.range? n = some r)
    (hbefore : ∀ d ∈ before, Signed d) (hafter : ∀ d ∈ after, Signed d) :
    let selectors := before.map (fun _ => .slice .full) ++ .slice s :: after.map fun _ => .slice .full
    ofSelectors axis (before ++ .fixed n :: after) selectors =
        .ok (before.map full ++ .range r :: after.map full) ∨
      ¬ s.InWords ∧
        ofSelectors axis (before ++ .fixed n :: after) selectors = .error (.fault .overflow) := by
  intro selectors
  rw [ofSelectors_full axis _ _ hbefore]
  cases hres : s.resolve? n with
  | ok found =>
    obtain rfl := (Slice.resolve?_eq_ok hres).symm.trans hr
    have hone : ofSelector (axis + before.length) (.fixed n) (.slice s) = .ok (.range r) := by
      rw [ofSelector, hres]
      rfl
    rw [ofSelectors_cons hone (ofSelectors_all_full (axis + before.length + 1) hafter)]
    exact .inl rfl
  | error f =>
    obtain rfl := Slice.resolve?_eq_error hres
    have hwords : ¬ s.InWords := fun h => by
      rw [Slice.resolve?_eq_range? hn h] at hres
      cases hres
    refine .inr ⟨hwords, ?_⟩
    rw [ofSelectors, List.headD_cons, ofSelector, hres]
    rfl

theorem extentsFrom_among (m : Nat) :
    extentsFrom (before.map full ++ .range r :: after.map full)
        ((before ++ .fixed n :: after).map (Dim.extentOr m)) =
      before.map (Dim.extentOr m) ++ r.length :: after.map (Dim.extentOr m) := by
  have hafter : extentsFrom (after.map full) (after.map (Dim.extentOr m)) =
      after.map (Dim.extentOr m) := by
    simpa [extentsFrom] using extentsFrom_full after m [] []
  rw [List.map_append, List.map_cons, extentsFrom_full, extentsFrom, hafter]

theorem sourceCoordinates_among {α γ : List Nat} {q : Nat} (hα : α.length = before.length)
    (hγ : γ.length = after.length) :
    sourceCoordinates (before.map full ++ .range r :: after.map full) (α ++ q :: γ) =
      α ++ r.position q :: γ := by
  have hafter : sourceCoordinates (after.map full) γ = γ := by
    simpa [sourceCoordinates] using @sourceCoordinates_full after [] γ [] hγ
  rw [sourceCoordinates_full hα, sourceCoordinates, hafter]

end Among


end AxisMap

/-! ### One index array among whole axes -/

namespace AdvancedIndexing

/-- An index array for one axis; the axes before it and after it are
kept. -/
def alone (before after : List Dim) (node : NodeId) : List IndexTerm :=
  before.map (fun _ => .whole) ++ .indexer node :: after.map fun _ => .whole

theorem zip_wholes {α β : Type} {xs : List α} {us : List β} (h : xs.length = us.length) :
    xs.zip (us.map fun _ => IndexTerm.whole) = xs.map (·, .whole) := by
  induction xs generalizing us with
  | nil => rfl
  | cons x xs ih =>
    cases us with
    | nil => cases h
    | cons u us => exact congrArg ((x, IndexTerm.whole) :: ·) (ih (Nat.succ.inj h))

theorem weave_wholes {α : Type} {us : List α} {ks ls ps : List Nat} {terms : List IndexTerm}
    (h : ks.length = us.length) :
    weave (us.map (fun _ => .whole) ++ terms) (ks ++ ls) ps = ks ++ weave terms ls ps := by
  induction us generalizing ks with
  | nil =>
    rw [List.length_eq_zero_iff.mp h]
    rfl
  | cons u us ih =>
    cases ks with
    | nil => cases h
    | cons k ks => exact congrArg (k :: ·) (ih (Nat.succ.inj h))

section Alone

variable {α : Type} {before after : List Dim} {node : NodeId}

theorem length_alone : (alone before after node).length = before.length + after.length + 1 := by
  simp [alone]
  omega

theorem nodesAmong_alone : nodesAmong (alone before after node) = [node] := by
  simp [alone, nodesAmong]

theorem consecutive_alone : Consecutive (alone before after node) :=
  ⟨before.length, [node], after.length, by simp [alone, List.map_const']⟩

theorem weave_alone {ks ls : List Nat} {p : Nat} (hk : ks.length = before.length)
    (hl : ls.length = after.length) :
    weave (alone before after node) (ks ++ ls) [p] = ks ++ p :: ls := by
  have hbehind := @weave_wholes _ after ls [] [] [] hl
  rw [List.append_nil, List.append_nil] at hbehind
  rw [alone, weave_wholes hk, weave, hbehind]
  simp [weave]

variable {xs ys : List α} {x : α} (hx : xs.length = before.length) (hy : ys.length = after.length)
include hx hy

theorem zip_alone : (xs ++ x :: ys).zip (alone before after node) =
    xs.map (·, .whole) ++ (x, .indexer node) :: ys.map (·, .whole) := by
  rw [alone, List.zip_append (by rw [hx, List.length_map]), zip_wholes hx, List.zip_cons_cons,
    zip_wholes hy]

theorem front_alone : front (alone before after node) (xs ++ x :: ys) = xs := by
  rw [front, zip_alone hx hy, List.takeWhile_append_of_pos (by simp)]
  simp [Function.comp_def]

theorem behind_alone : behind (alone before after node) (xs ++ x :: ys) = ys := by
  rw [behind, zip_alone hx hy, List.dropWhile_append_of_pos (by simp)]
  simp [Function.comp_def, List.filter_map]

theorem along_alone : along (alone before after node) (xs ++ x :: ys) = [x] := by
  rw [along, zip_alone hx hy]
  simp [Function.comp_def, List.filter_map]

end Alone

/-! ### The whole axes -/

/-- The entries of the whole axes. -/
def wholes {α : Type} (terms : List IndexTerm) (xs : List α) : List α :=
  ((xs.zip terms).filter keeps).map (·.1)

theorem front_append_behind {α : Type} (terms : List IndexTerm) (xs : List α) :
    front terms xs ++ behind terms xs = wholes terms xs := by
  unfold front behind wholes
  rw [← List.map_append, takeWhile_append_filter]

end AdvancedIndexing

/-! ### Positions as numbers -/

namespace Binary64.IsNat

variable {x : Binary64} {p : Nat} (h : x.IsNat p)
include h

theorem zero_le : zero ≤ x :=
  le_iff.mpr ⟨_, _, place?_zero, h, Int.natCast_nonneg _⟩

theorem cases_finite (hp : p < 2 ^ 63) :
    (x = .negZero ∧ p = 0) ∨ ∃ hz, x = .finite ((p * one : Nat) : Int) hz := by
  have hlt := mul_one_lt_limit hp
  unfold IsNat at h
  cases x with
  | nan => cases h
  | infinity negative =>
    have hlimit := limit_pos
    cases negative with
    | true => have := Option.some.inj h; omega
    | false => have := Option.some.inj h; omega
  | negZero =>
    have hzero : p * one = 0 := by
      have := Option.some.inj h
      omega
    exact .inl ⟨rfl, (Nat.mul_eq_zero.mp hzero).resolve_right (Nat.ne_of_gt one_pos)⟩
  | finite z hz =>
    obtain rfl := Option.some.inj h
    exact .inr ⟨hz, rfl⟩

theorem isWhole (hp : p < 2 ^ 63) : x.isWhole = true := by
  rcases h.cases_finite hp with ⟨rfl, -⟩ | ⟨hz, rfl⟩
  · rfl
  · exact beq_iff_eq.mpr (Int.emod_eq_zero_of_dvd ⟨p, by push_cast; ring⟩)

theorem toNat_eq (hp : p < 2 ^ 63) : x.toNat = p := by
  rcases h.cases_finite hp with ⟨rfl, rfl⟩ | ⟨hz, rfl⟩
  · rfl
  · show (((p * one : Nat) : Int) / one).toNat = p
    rw [← Int.natCast_ediv, Nat.mul_div_cancel _ one_pos, Int.toNat_natCast]

end Binary64.IsNat

namespace Graph

variable {g : Graph} {below : Binary64 → Nat → Prop} {node : NodeId} {extents ps : List Nat}
  {n : Nat}

/-- A constant with some extents that lists positions of an axis of `n`.  That
its values are `below` the extent follows, but for how it is compared. -/
def Lists (g : Graph) (below : Binary64 → Nat → Prop) (node : NodeId) (extents : List Nat)
    (n : Nat) (ps : List Nat) : Prop :=
  ∃ c, g.nodes[node]? = some (.constant c) ∧ c.extents = extents ∧
    List.Forall₂ Binary64.IsNat c.values.toList ps ∧ ∀ x ∈ c.values, below x n

instance (x : Binary64) (p : Nat) : Decidable (x.IsNat p) := by
  unfold Binary64.IsNat
  infer_instance

instance (x : Binary64) (n : Nat) : Decidable (Below x n) := by
  unfold Below
  infer_instance

instance [DecidableRel below] : Decidable (g.Lists below node extents n ps) :=
  match hn : g.nodes[node]? with
  | some (.constant c) =>
    decidable_of_iff (c.extents = extents ∧ List.Forall₂ Binary64.IsNat c.values.toList ps ∧
      ∀ x ∈ c.values.toList, below x n) (by simp [Lists, hn])
  | some (.leaf v) => .isFalse (by simp [Lists, hn])
  | some (.basic b) => .isFalse (by simp [Lists, hn])
  | some (.advanced a) => .isFalse (by simp [Lists, hn])
  | some (.validation w) => .isFalse (by simp [Lists, hn])
  | none => .isFalse (by simp [Lists, hn])

/-- A constant whose value at `q` is the position `p`. -/
def Names (g : Graph) (node : NodeId) (q p : Nat) : Prop :=
  ∃ c x, g.nodes[node]? = some (.constant c) ∧ c.values[q]? = some x ∧ x.toNat = p

/-- What is known of an index array for an axis. -/
def Ranged (rows : Nat) (dim : Dim) (i : Description) : Prop :=
  i.integral = true ∧ .zero ≤ i.min ∧ Below i.max (dim.extentOr rows)

/-- A constant of positions of an axis is an index array for it. -/
theorem Lists.exists_description (h : g.Lists Below node extents n ps) (hn : 0 < n)
    (hn' : n < 2 ^ 63) (hps : ∀ p ∈ ps, p < n) :
    ∃ i, g.describe node = .ok i ∧ i.shape = .static extents ∧
      ∀ rows, Ranged rows (.fixed n) i := by
  obtain ⟨c, hc, rfl, hvalues, hbelow⟩ := h
  have hall : ∀ x ∈ c.values, ∃ p < 2 ^ 63, x.IsNat p := by
    intro x hx
    obtain ⟨k, hk, rfl⟩ := List.getElem_of_mem (Array.mem_toList_iff.mpr hx)
    obtain ⟨hlength, hget⟩ := List.forall₂_iff_get.mp hvalues
    have hk' : k < ps.length := hlength ▸ hk
    have hlt := hps _ (List.getElem_mem hk')
    exact ⟨ps[k], by omega, hget k hk hk'⟩
  refine ⟨_, describe_eq_ok.mpr ⟨_, hc, rfl⟩, rfl, fun rows => ⟨?_, ?_, ?_⟩⟩
  · refine Array.all_eq_true'.mpr fun x hx => ?_
    obtain ⟨p, hp, hxp⟩ := hall x hx
    exact hxp.isWhole hp
  · exact Constant.zero_le_min fun x hx => (hall x hx).elim fun p hp => hp.2.zero_le
  · exact Constant.max_lt (Binary64.zero_lt_ofNat hn) hbelow

theorem Lists.names (h : g.Lists Below node extents n ps) {q p : Nat} (hq : ps[q]? = some p)
    (hp : p < 2 ^ 63) : g.Names node q p := by
  obtain ⟨c, hc, -, hvalues, -⟩ := h
  obtain ⟨hq', rfl⟩ := List.getElem?_eq_some_iff.mp hq
  obtain ⟨hlength, hget⟩ := List.forall₂_iff_get.mp hvalues
  have hqc : q < c.values.toList.length := hlength ▸ hq'
  exact ⟨c, c.values.toList[q], hc, by simp [Array.getElem?_eq_getElem hqc],
    (hget q hqc hq').toNat_eq hp⟩

/-- The axes of a source with a selector and a term each: a full slice and
none, or a position and a constant without axes. -/
inductive Points (g : Graph) (below : Binary64 → Nat → Prop) :
    List Dim → List Selector → List IndexTerm → Prop
  | nil : Points g below [] [] []
  | whole {dim : Dim} {dims : List Dim} {selectors : List Selector} {terms : List IndexTerm}
      (rest : Points g below dims selectors terms) :
      Points g below (dim :: dims) (.slice .full :: selectors) (.whole :: terms)
  /-- A position may be counted from the end. -/
  | position {n p : Nat} {i : Int} {node : NodeId} {dims : List Dim} {selectors : List Selector}
      {terms : List IndexTerm} (hp : p < n) (hi : i = p ∨ i = p - n)
      (lists : g.Lists below node [] n [p]) (rest : Points g below dims selectors terms) :
      Points g below (.fixed n :: dims) (.position i :: selectors) (.indexer node :: terms)

/-- Two ways to ask for one selection from a source with the given axes: with
a slice of one axis, and with an array of the positions that the slice
selects; or with positions, and with arrays without axes of the same
positions, if advanced indexing accepts this layout. -/
inductive Pairing (g : Graph) (below : Binary64 → Nat → Prop) :
    List Dim → List Selector → List IndexTerm → Prop
  | slice {before after : List Dim} {n : Nat} {s : Slice} {node : NodeId} (hn : 0 < n)
      (hs : s.step ≠ 0) (lists : g.Lists below node [(s.selected n).length] n (s.selected n)) :
      Pairing g below (before ++ .fixed n :: after)
        (before.map (fun _ => .slice .full) ++ .slice s :: after.map fun _ => .slice .full)
        (alone before after node)
  | positions {dims : List Dim} {selectors : List Selector} {terms : List IndexTerm}
      (points : g.Points below dims selectors terms) (indexed : nodesAmong terms ≠ [])
      (layout : terms.head? = some .whole → Consecutive terms) :
      Pairing g below dims selectors terms

/-- What two ways to ask have in common: the maps that basic indexing makes of
the axes, what is known of the index arrays, their extents, and the positions
that they hold at each of theirs.  At the same coordinates of the result both
mean the same coordinates of the source. -/
structure Agrees (g : Graph) (dims : List Dim) (selectors : List Selector)
    (terms : List IndexTerm) (maps : List AxisMap) (is : List Description) (B : List Nat)
    (picks : Nat → List Nat) : Prop where
  /-- A slice whose bounds or step are at the edge of the words may overflow. -/
  resolved : ∀ axis, AxisMap.ofSelectors axis dims selectors = .ok maps ∨
    (∃ s, .slice s ∈ selectors ∧ ¬ s.InWords) ∧
      AxisMap.ofSelectors axis dims selectors = .error (.fault .overflow)
  fits : List.Forall₂ (fun d m => AxisMap.Fits d m) dims maps
  length_selectors : selectors.length = dims.length
  length_terms : terms.length = dims.length
  indexers : List.Forall₂ (fun node i => g.describe node = .ok i) (nodesAmong terms) is
  shapes : ∀ i ∈ is, i.shape = .static B
  ranged : ∀ rows, List.Forall₂ (Ranged rows) (along terms dims) is
  names : ∀ q < RowMajor.size B, List.Forall₂ (g.Names · q ·) (nodesAmong terms) (picks q)
  extents : ∀ m, AxisMap.extentsFrom maps (dims.map (Dim.extentOr m)) =
    front terms (dims.map (Dim.extentOr m)) ++ B ++ behind terms (dims.map (Dim.extentOr m))
  coordinates : ∀ α β γ, α.length = (front terms dims).length → RowMajor.Within β B →
    γ.length = (behind terms dims).length →
    AxisMap.sourceCoordinates maps (α ++ β ++ γ) =
      weave terms (α ++ γ) (picks (RowMajor.flatten β (RowMajor.weights B)))

/-- A slice and the array of its positions agree. -/
theorem agrees_slice {before after : List Dim} {s : Slice} (hn : 0 < n) (hs : s.step ≠ 0)
    (lists : g.Lists Below node [(s.selected n).length] n (s.selected n))
    (hsigned : ∀ d ∈ before ++ .fixed n :: after, AxisMap.Signed d) :
    ∃ maps is picks, g.Agrees (before ++ .fixed n :: after)
      (before.map (fun _ => .slice .full) ++ .slice s :: after.map fun _ => .slice .full)
      (alone before after node) maps is [(s.selected n).length] picks := by
  have hn' : n < 2 ^ 63 := hsigned _ (by simp) n rfl
  obtain ⟨r, hr, hselected⟩ := Slice.exists_range? hn' hs
  have hon := Slice.range?_on hn' hr
  have hlt : ∀ p ∈ s.selected n, p < n := by
    rw [hselected]
    intro p hp
    obtain ⟨k, hk, rfl⟩ := List.mem_map.mp hp
    exact hon.position_lt (List.mem_range.mp hk)
  have hlength : (s.selected n).length = r.length := by simp [hselected]
  obtain ⟨i, hi, hshape, hranged⟩ := lists.exists_description hn hn' hlt
  refine ⟨before.map AxisMap.full ++ .range r :: after.map AxisMap.full, [i],
    fun q => [r.position q], ?_⟩
  constructor
  case resolved =>
    intro axis
    refine (AxisMap.ofSelectors_among axis hn' hr (fun d hd => hsigned d (by simp [hd]))
      fun d hd => hsigned d (by simp [hd])).imp_right fun ⟨hwords, hover⟩ => ?_
    exact ⟨⟨s, by simp, hwords⟩, hover⟩
  case fits =>
    have hrange : AxisMap.range r ≠ .whole := by simp
    refine List.rel_append ?_ (.cons ⟨hrange, hon.length_le, fun _ => hon⟩ ?_)
    · exact AxisMap.fits_full fun d hd => hsigned d (by simp [hd])
    · exact AxisMap.fits_full fun d hd => hsigned d (by simp [hd])
  case length_selectors => simp
  case length_terms => simp [length_alone]; omega
  case indexers => simpa [nodesAmong_alone] using hi
  case shapes => simpa using hshape
  case ranged =>
    intro rows
    rw [along_alone rfl rfl]
    exact .cons (hranged rows) .nil
  case names =>
    intro q hq
    rw [nodesAmong_alone]
    have hq' : q < r.length := by simpa [RowMajor.size, hlength] using hq
    have hget : (s.selected n)[q]? = some (r.position q) := by simp [hselected, hq']
    have := hon.position_lt hq'
    exact .cons (lists.names hget (by omega)) .nil
  case extents =>
    intro m
    rw [AxisMap.extentsFrom_among, List.map_append, List.map_cons, front_alone (by simp) (by simp),
      behind_alone (by simp) (by simp), hlength, List.append_assoc, List.singleton_append]
  case coordinates =>
    intro α β γ hα hβ hγ
    rw [front_alone rfl rfl] at hα
    rw [behind_alone rfl rfl] at hγ
    cases hβ with
    | @cons q _ _ _ hq hnil =>
      cases hnil
      rw [List.append_assoc, List.singleton_append, AxisMap.sourceCoordinates_among hα hγ,
        weave_alone hα hγ]
      simp [RowMajor.weights, RowMajor.size]

/-- What full slices and positions have in common with whole axes and arrays
without axes, axis by axis; the positions are `ps`.  The layout of the result
has no part in this, because arrays without axes add none. -/
structure Drops (g : Graph) (dims : List Dim) (selectors : List Selector)
    (terms : List IndexTerm) (maps : List AxisMap) (is : List Description) (ps : List Nat) :
    Prop where
  resolved : ∀ axis, AxisMap.ofSelectors axis dims selectors = .ok maps
  length_selectors : selectors.length = dims.length
  length_terms : terms.length = dims.length
  indexers : List.Forall₂ (fun node i => g.describe node = .ok i) (nodesAmong terms) is
  shapes : ∀ i ∈ is, i.shape = .scalar
  ranged : ∀ rows, List.Forall₂ (Ranged rows) (along terms dims) is
  names : List.Forall₂ (g.Names · 0 ·) (nodesAmong terms) ps
  extents : ∀ m, AxisMap.extentsFrom maps (dims.map (Dim.extentOr m)) =
    wholes terms (dims.map (Dim.extentOr m))
  coordinates : ∀ ks, ks.length = (wholes terms dims).length →
    AxisMap.sourceCoordinates maps ks = weave terms ks ps

namespace Drops

variable {dim : Dim} {dims : List Dim} {selectors : List Selector} {terms : List IndexTerm}
  {maps : List AxisMap} {is : List Description}

theorem nil : g.Drops [] [] [] [] [] [] where
  resolved _ := rfl
  length_selectors := rfl
  length_terms := rfl
  indexers := .nil
  shapes _ hi := nomatch hi
  ranged _ := .nil
  names := .nil
  extents _ := rfl
  coordinates ks hks := by
    rw [List.length_eq_zero_iff.mp hks]
    rfl

theorem whole (h : g.Drops dims selectors terms maps is ps) (hdim : AxisMap.Signed dim) :
    g.Drops (dim :: dims) (.slice .full :: selectors) (.whole :: terms) (AxisMap.full dim :: maps)
      is ps where
  resolved axis := AxisMap.ofSelectors_cons (AxisMap.ofSelector_full hdim) (h.resolved (axis + 1))
  length_selectors := congrArg Nat.succ h.length_selectors
  length_terms := congrArg Nat.succ h.length_terms
  indexers := h.indexers
  shapes := h.shapes
  ranged := h.ranged
  names := h.names
  extents m := by
    have hfull := AxisMap.extentsFrom_full [dim] m maps (dims.map (Dim.extentOr m))
    rw [h.extents] at hfull
    exact hfull
  coordinates ks hks := by
    cases ks with
    | nil => cases hks
    | cons k ks =>
      have hfull := @AxisMap.sourceCoordinates_full [dim] maps [k] ks rfl
      rw [h.coordinates ks (Nat.succ.inj hks)] at hfull
      exact hfull

theorem position (h : g.Drops dims selectors terms maps is ps) {p : Nat} {i : Int}
    {d : Description} (hn : n < 2 ^ 63) (hp : p < n) (hi : i = p ∨ i = p - n)
    (hd : g.describe node = .ok d) (hshape : d.shape = .scalar)
    (hranged : ∀ rows, Ranged rows (.fixed n) d) (hnames : g.Names node 0 p) :
    g.Drops (.fixed n :: dims) (.position i :: selectors) (.indexer node :: terms)
      (.position p :: maps) (d :: is) (p :: ps) where
  resolved axis :=
    AxisMap.ofSelectors_cons (AxisMap.ofPosition_eq hn hp hi) (h.resolved (axis + 1))
  length_selectors := congrArg Nat.succ h.length_selectors
  length_terms := congrArg Nat.succ h.length_terms
  indexers := .cons hd h.indexers
  shapes := List.forall_mem_cons.mpr ⟨hshape, h.shapes⟩
  ranged rows := .cons (hranged rows) (h.ranged rows)
  names := .cons hnames h.names
  extents := h.extents
  coordinates ks hks := congrArg (p :: ·) (h.coordinates ks hks)

theorem agrees (h : g.Drops dims selectors terms maps is ps) :
    g.Agrees dims selectors terms maps is [] fun _ => ps where
  resolved axis := .inl (h.resolved axis)
  fits := AxisMap.ofSelectors_fits (h.resolved 0)
  length_selectors := h.length_selectors
  length_terms := h.length_terms
  indexers := h.indexers
  shapes := h.shapes
  ranged := h.ranged
  names q hq := by
    obtain rfl : q = 0 := Nat.lt_one_iff.mp hq
    exact h.names
  extents m := by rw [h.extents, List.append_nil, front_append_behind]
  coordinates α β γ hα hβ hγ := by
    cases hβ
    rw [List.append_nil]
    refine h.coordinates _ ?_
    rw [List.length_append, hα, hγ, ← List.length_append, front_append_behind]

end Drops

/-- Positions and the arrays of the same positions agree. -/
theorem Points.exists_drops {dims : List Dim} {selectors : List Selector} {terms : List IndexTerm}
    (h : g.Points Below dims selectors terms) (hsigned : ∀ d ∈ dims, AxisMap.Signed d) :
    ∃ maps is ps, g.Drops dims selectors terms maps is ps := by
  induction h with
  | nil => exact ⟨_, _, _, .nil⟩
  | whole _ ih =>
    obtain ⟨hdim, hrest⟩ := List.forall_mem_cons.mp hsigned
    obtain ⟨maps, is, ps, hdrops⟩ := ih hrest
    exact ⟨_, _, _, hdrops.whole hdim⟩
  | @position n p i node _ _ _ hp hi lists _ ih =>
    obtain ⟨hdim, hrest⟩ := List.forall_mem_cons.mp hsigned
    obtain ⟨maps, is, ps, hdrops⟩ := ih hrest
    have hn : n < 2 ^ 63 := hdim n rfl
    obtain ⟨d, hd, hshape, hranged⟩ :=
      lists.exists_description (Nat.zero_lt_of_lt hp) hn (by simpa using hp)
    have hnames : g.Names node 0 p := lists.names rfl (Nat.lt_trans hp hn)
    exact ⟨_, _, _, hdrops.position hn hp hi hd hshape hranged hnames⟩

/-- **Two ways to ask for one selection agree.** -/
theorem Pairing.exists_agrees {dims : List Dim} {selectors : List Selector}
    {terms : List IndexTerm} (h : g.Pairing Below dims selectors terms)
    (hsigned : ∀ d ∈ dims, AxisMap.Signed d) :
    ∃ maps is B picks, g.Agrees dims selectors terms maps is B picks ∧ B.length ≤ 1 ∧
      nodesAmong terms ≠ [] ∧ (terms.head? = some .whole → Consecutive terms) := by
  cases h with
  | slice hn hs lists =>
    obtain ⟨maps, is, picks, hagrees⟩ := agrees_slice hn hs lists hsigned
    refine ⟨maps, is, _, picks, hagrees, Nat.le_refl _, ?_, fun _ => consecutive_alone⟩
    rw [nodesAmong_alone]
    exact List.cons_ne_nil _ _
  | positions points indexed layout =>
    obtain ⟨maps, is, ps, hdrops⟩ := points.exists_drops hsigned
    exact ⟨maps, is, [], _, hdrops.agrees, Nat.zero_le _, indexed, layout⟩

end Graph
end ArrayFlow
