import ArrayFlow.Indexing.Advanced
import ArrayFlow.Proofs.Outcome
import ArrayFlow.Proofs.Shape

/-!
# What an accepted advanced selection promises

`AdvancedIndexing.ofTerms` accepts a selection just if it passes all tests
(`Passes`, `ofTerms_eq_ok`).  Then all of the following holds (`Fits`), and
everything later rests on it:

* the whole axes and the selected ones make up the axes of the source
  (`weave_spec`), so coordinates for both are coordinates of the source;
* the index arrays have one shape in common, and one row count if that shape
  is dynamic (`broadcast_spec`, `commonRows_spec`);
* each index array has whole values between zero and the least extent of its
  axis (`checkIndexer_eq_ok`);
* only the leading axis of the result can be dynamic.
-/

namespace ArrayFlow

namespace Shape

theorem withRows_eq_map (s : Shape) (rows : Nat) :
    s.withRows rows = s.dims.map (Dim.extentOr rows) := by
  cases s with
  | static ns => exact (by simp [withRows, dims, Dim.extentOr, Function.comp_def])
  | dynamic ns => exact (by simp [withRows, dims, Dim.extentOr, Function.comp_def])

theorem extents?_eq_some {ds : List Dim} {ns : List Nat} (h : Dim.extents? ds = some ns) :
    ds = ns.map Dim.fixed := by
  induction ds generalizing ns with
  | nil =>
    obtain rfl := Option.some.inj h
    rfl
  | cons d ds ih =>
    cases d with
    | dynamic => cases h
    | fixed n =>
      obtain ⟨ms, hms, rfl⟩ := Option.map_eq_some_iff.mp h
      rw [ih hms, List.map_cons]

theorem dims_of_ofDims? {ds : List Dim} {s : Shape} (h : ofDims? ds = some s) : s.dims = ds := by
  cases ds with
  | nil =>
    obtain rfl := Option.some.inj h
    rfl
  | cons d ds =>
    cases d with
    | dynamic =>
      obtain ⟨ns, hns, rfl⟩ := Option.map_eq_some_iff.mp h
      rw [extents?_eq_some hns]
      rfl
    | fixed n =>
      obtain ⟨ns, hns, rfl⟩ := Option.map_eq_some_iff.mp h
      rw [extents?_eq_some hns]
      rfl

theorem isDynamic_iff {s : Shape} : s.isDynamic = true ↔ Dim.dynamic ∈ s.dims := by
  cases s <;> simp [isDynamic, dims]

theorem dynamic_not_mem_tail (s : Shape) : Dim.dynamic ∉ s.dims.tail := by
  cases s with
  | static ns =>
    intro h
    have := List.mem_of_mem_tail h
    simp [dims] at this
  | dynamic ns => simp [dims]

theorem rank_ne_zero_of_isDynamic {s : Shape} (h : s.isDynamic = true) : s.rank ≠ 0 := by
  cases s with
  | static ns => cases h
  | dynamic ns => exact Nat.succ_ne_zero _

theorem size_of_rank_zero {s : Shape} (h : s.rank = 0) (rows : Nat) : s.sizeWith rows = 1 := by
  cases s with
  | static ns =>
    obtain rfl : ns = [] := List.eq_nil_of_length_eq_zero h
    rfl
  | dynamic ns => cases h

/-- The shapes so far are all without axes or equal to the common one, which
is one of them. -/
theorem meet_spec {shapes : List Shape} {common s next : Shape}
    (h : ∀ t ∈ shapes, t.rank = 0 ∨ t = common) (hmem : common ∈ shapes)
    (hmeet : meet common s = .ok next) :
    (∀ t ∈ s :: shapes, t.rank = 0 ∨ t = next) ∧ next ∈ s :: shapes := by
  unfold meet at hmeet
  split at hmeet
  · next hrank =>
    obtain rfl := Except.ok.inj hmeet
    refine ⟨fun t ht => ?_, List.mem_cons_self⟩
    rcases List.mem_cons.mp ht with rfl | ht
    · exact .inr rfl
    · rcases h t ht with h0 | rfl
      · exact .inl h0
      · exact .inl hrank
  · split at hmeet
    · next hs =>
      obtain rfl := Except.ok.inj hmeet
      refine ⟨fun t ht => ?_, List.mem_cons_of_mem _ hmem⟩
      rcases List.mem_cons.mp ht with rfl | ht
      · exact hs.imp_right Eq.symm
      · exact h t ht
    · cases hmeet

theorem foldlM_meet_spec {rest shapes : List Shape} {common last : Shape}
    (h : ∀ t ∈ shapes, t.rank = 0 ∨ t = common) (hmem : common ∈ shapes)
    (hfold : rest.foldlM meet common = .ok last) :
    (∀ t ∈ shapes ++ rest, t.rank = 0 ∨ t = last) ∧ last ∈ shapes ++ rest := by
  induction rest generalizing shapes common with
  | nil =>
    obtain rfl := Except.ok.inj hfold
    rw [List.append_nil]
    exact ⟨h, hmem⟩
  | cons s rest ih =>
    rw [List.foldlM_cons] at hfold
    obtain ⟨next, hmeet, hfold⟩ := Outcome.bind_eq_ok.mp hfold
    obtain ⟨hall, hin⟩ := meet_spec h hmem hmeet
    obtain ⟨hall, hin⟩ := ih hall hin hfold
    constructor
    · intro t ht
      refine hall t ?_
      rcases List.mem_append.mp ht with ht | ht
      · exact List.mem_append_left _ (List.mem_cons_of_mem _ ht)
      · rcases List.mem_cons.mp ht with rfl | ht
        · exact List.mem_append_left _ List.mem_cons_self
        · exact List.mem_append_right _ ht
    · rcases List.mem_append.mp hin with ht | ht
      · rcases List.mem_cons.mp ht with rfl | ht
        · exact List.mem_append_right _ List.mem_cons_self
        · exact List.mem_append_left _ ht
      · exact List.mem_append_right _ (List.mem_cons_of_mem _ ht)

/-- Some index arrays have one shape in common, or no axes. -/
theorem broadcast_spec {shapes : List Shape} {common : Option Shape}
    (h : broadcast shapes = .ok common) (hne : shapes ≠ []) :
    (∀ s ∈ shapes, s.rank = 0 ∨ s = common.getD .scalar) ∧ common.getD .scalar ∈ shapes := by
  cases shapes with
  | nil => exact absurd rfl hne
  | cons s rest =>
    obtain ⟨last, hfold, rfl⟩ := Outcome.map_eq_ok.mp h
    exact @foldlM_meet_spec rest [s] s last (by simp) (by simp) hfold

end Shape

namespace AdvancedIndexing

/-- An index array with the axis that it selects along. -/
abbrev Picked := SourceAxis × NodeId × Description

/-- The extent of an axis, with a number of rows for a dynamic one. -/
abbrev axisExtent (rows : Nat) (x : SourceAxis) : Nat := x.dim.extentOr rows

/-- Whether a term keeps its axis. -/
abbrev keeps {α : Type} (e : α × IndexTerm) : Bool := e.2 == .whole

/-- The entries of the whole axes before the first indexer, of a list with an
entry for each axis. -/
def front {α : Type} (terms : List IndexTerm) (xs : List α) : List α :=
  ((xs.zip terms).takeWhile keeps).map (·.1)

/-- The entries of the whole axes behind the first indexer. -/
def behind {α : Type} (terms : List IndexTerm) (xs : List α) : List α :=
  (((xs.zip terms).dropWhile keeps).filter keeps).map (·.1)

/-- The entries of the axes that are selected along. -/
def along {α : Type} (terms : List IndexTerm) (xs : List α) : List α :=
  ((xs.zip terms).filter (!keeps ·)).map (·.1)

theorem map_front {α β : Type} (terms : List IndexTerm) (f : α → β) (xs : List α) :
    front terms (xs.map f) = (front terms xs).map f := by
  unfold front
  rw [List.zip_map_left, List.takeWhile_map, List.map_map, List.map_map]
  rfl

theorem map_behind {α β : Type} (terms : List IndexTerm) (f : α → β) (xs : List α) :
    behind terms (xs.map f) = (behind terms xs).map f := by
  unfold behind
  rw [List.zip_map_left, List.dropWhile_map, List.filter_map, List.map_map, List.map_map]
  rfl

theorem map_along {α β : Type} (terms : List IndexTerm) (f : α → β) (xs : List α) :
    along terms (xs.map f) = (along terms xs).map f := by
  unfold along
  rw [List.zip_map_left, List.filter_map, List.map_map, List.map_map]
  rfl

/-- The number of elements behind an axis. -/
abbrev axisWeight (shape : Shape) (x : SourceAxis) : Nat := shape.weights.getD x.number 0

theorem axesOf_dims (d : Description) : (axesOf d).map (·.dim) = d.shape.dims := by
  rw [axesOf, List.map_map]
  exact List.zipIdx_map_fst 0 d.shape.dims

theorem axesOf_numbers (d : Description) : (axesOf d).map (·.number) = List.range d.shape.rank := by
  rw [axesOf, List.map_map, ← Shape.length_dims, List.range_eq_range']
  exact List.zipIdx_map_snd 0 d.shape.dims

theorem axesOf_weights (d : Description) : (axesOf d).map (axisWeight d.shape) = d.shape.weights := by
  have hlen : d.shape.weights.length = d.shape.rank := by
    rw [Shape.weights, RowMajor.length_weights]
    cases d.shape <;> rfl
  have hmap : (axesOf d).map (axisWeight d.shape) =
      ((axesOf d).map (·.number)).map (d.shape.weights.getD · 0) := by
    rw [List.map_map]
    rfl
  rw [hmap, axesOf_numbers]
  apply List.ext_getElem
  · rw [List.length_map, List.length_range, hlen]
  · intro k h1 h2
    simp [h2]

/-- The index arrays among some terms. -/
def nodesAmong (terms : List IndexTerm) : List NodeId :=
  terms.filterMap fun
    | .whole => none
    | .indexer node => some node

theorem nodesAmong_filter {α : Type} (axes : List (α × IndexTerm)) :
    nodesAmong ((axes.filter (!keeps ·)).map Prod.snd) = nodesAmong (axes.map Prod.snd) := by
  induction axes with
  | nil => rfl
  | cons e axes ih =>
    obtain ⟨x, term⟩ := e
    cases term with
    | whole => exact ih
    | indexer node => exact congrArg (node :: ·) ih

/-- The coordinates of all axes, from those of the whole axes and those of the
others. -/
def weave : List IndexTerm → (wholes picks : List Nat) → List Nat
  | .whole :: terms, w :: ws, ps => w :: weave terms ws ps
  | .indexer _ :: terms, ws, p :: ps => p :: weave terms ws ps
  | _, _, _ => []

/-- Coordinates for the whole axes and for the others are coordinates for
all, and the strides add up. -/
theorem weave_spec (axes : List (SourceAxis × IndexTerm)) (stride : SourceAxis → Nat) (rows : Nat)
    {ws ps : List Nat}
    (hw : RowMajor.Within ws ((axes.filter keeps).map (axisExtent rows ·.1)))
    (hp : RowMajor.Within ps ((axes.filter (!keeps ·)).map (axisExtent rows ·.1))) :
    RowMajor.Within (weave (axes.map (·.2)) ws ps) (axes.map (axisExtent rows ·.1)) ∧
      RowMajor.flatten (weave (axes.map (·.2)) ws ps) (axes.map (stride ·.1)) =
        RowMajor.flatten ws ((axes.filter keeps).map (stride ·.1)) +
        RowMajor.flatten ps ((axes.filter (!keeps ·)).map (stride ·.1)) := by
  induction axes generalizing ws ps with
  | nil =>
    cases hw
    cases hp
    exact ⟨.nil, rfl⟩
  | cons e axes ih =>
    obtain ⟨axis, term⟩ := e
    cases term with
    | whole =>
      rw [List.filter_cons_of_pos (by simp)] at hw ⊢
      rw [List.filter_cons_of_neg (by simp)] at hp ⊢
      cases hw with
      | @cons w _ ws _ hwn hws =>
        obtain ⟨hcs, hsum⟩ := ih hws hp
        refine ⟨.cons hwn hcs, ?_⟩
        simp only [List.map_cons, weave, RowMajor.flatten_cons, hsum]
        omega
    | indexer node =>
      rw [List.filter_cons_of_neg (by simp)] at hw ⊢
      rw [List.filter_cons_of_pos (by simp)] at hp ⊢
      cases hp with
      | @cons p _ ps _ hpn hps =>
        obtain ⟨hcs, hsum⟩ := ih hw hps
        refine ⟨.cons hpn hcs, ?_⟩
        simp only [List.map_cons, weave, RowMajor.flatten_cons, hsum]
        omega

theorem size_filter (axes : List (SourceAxis × IndexTerm)) (rows : Nat) :
    RowMajor.size (axes.map (axisExtent rows ·.1)) =
      RowMajor.size ((axes.filter keeps).map (axisExtent rows ·.1)) *
      RowMajor.size ((axes.filter (!keeps ·)).map (axisExtent rows ·.1)) := by
  induction axes with
  | nil => rfl
  | cons e axes ih =>
    cases hk : keeps e <;> simp [hk, RowMajor.size, ih] <;> ring

theorem takeWhile_append_filter {α : Type} (p : α → Bool) (xs : List α) :
    xs.takeWhile p ++ (xs.dropWhile p).filter p = xs.filter p := by
  induction xs with
  | nil => rfl
  | cons x xs ih => cases hx : p x <;> simp [hx, ih]

/-- Where only the leading axis can be dynamic, it is in front or nowhere
among the whole ones. -/
theorem whole_fixed {axes : List (SourceAxis × IndexTerm)}
    (h : ∀ e ∈ axes.tail, e.1.dim ≠ .dynamic) :
    (∀ e ∈ (axes.takeWhile keeps).tail, e.1.dim ≠ .dynamic) ∧
      ∀ e ∈ (axes.dropWhile keeps).filter keeps, e.1.dim ≠ .dynamic := by
  cases axes with
  | nil => simp
  | cons e axes =>
    rw [List.tail_cons] at h
    cases hk : keeps e with
    | true =>
      rw [List.takeWhile_cons_of_pos hk, List.dropWhile_cons_of_pos hk, List.tail_cons]
      refine ⟨fun x hx => h x ((List.takeWhile_sublist _).mem hx), fun x hx => h x ?_⟩
      exact (List.dropWhile_sublist _).mem (List.mem_of_mem_filter hx)
    | false =>
      rw [List.takeWhile_cons_of_neg (by simp [hk]), List.dropWhile_cons_of_neg (by simp [hk]),
        List.filter_cons_of_neg (by simp [hk])]
      exact ⟨by simp, fun x hx => h x (List.mem_of_mem_filter hx)⟩

theorem checkIndexer_eq_ok {source i : Description} {axis : SourceAxis} {node : NodeId} :
    checkIndexer source axis node i = .ok () ↔ i.integral = true ∧ ¬ i.min < .zero ∧
      ¬ .ofNat (axis.dim.extentOr source.rows.minRows) ≤ i.max := by
  unfold checkIndexer
  constructor
  · intro h
    obtain ⟨hintegral, h⟩ := Outcome.guard_eq_ok.mp h
    obtain ⟨hrange, -⟩ := Outcome.guard_eq_ok.mp h
    rw [Bool.not_eq_true', Bool.not_eq_false] at hintegral
    exact ⟨hintegral, not_or.mp hrange⟩
  · rintro ⟨hintegral, hrange⟩
    refine Outcome.guard_eq_ok.mpr ⟨by simp [hintegral], ?_⟩
    exact Outcome.guard_eq_ok.mpr ⟨not_or.mpr hrange, rfl⟩

theorem indexersOf_eq_ok {describe : NodeId → Except Refusal Description} {source : Description}
    {axes : List (SourceAxis × IndexTerm)} {picked : List Picked} :
    indexersOf describe source axes = .ok picked ↔
      picked.map (fun e => (e.1, IndexTerm.indexer e.2.1)) = axes.filter (!keeps ·) ∧
        ∀ e ∈ picked, describe e.2.1 = .ok e.2.2 ∧
          checkIndexer source e.1 e.2.1 e.2.2 = .ok () := by
  induction axes generalizing picked with
  | nil =>
    constructor
    · intro h
      obtain rfl := Except.ok.inj h
      exact ⟨rfl, by simp⟩
    · rintro ⟨h, -⟩
      rw [List.map_eq_nil_iff.mp h]
      rfl
  | cons e axes ih =>
    obtain ⟨axis, term⟩ := e
    cases term with
    | whole =>
      rw [List.filter_cons_of_neg (by simp)]
      exact ih
    | indexer node =>
      rw [List.filter_cons_of_pos (by simp)]
      constructor
      · intro h
        obtain ⟨d, hd, h⟩ := Outcome.bind_eq_ok.mp h
        obtain ⟨_, hcheck, h⟩ := Outcome.bind_eq_ok.mp h
        obtain ⟨others, hothers, h⟩ := Outcome.bind_eq_ok.mp h
        obtain rfl := Except.ok.inj h
        obtain ⟨hmap, hall⟩ := ih.mp hothers
        exact ⟨by rw [List.map_cons, hmap], List.forall_mem_cons.mpr ⟨⟨hd, hcheck⟩, hall⟩⟩
      · rintro ⟨hmap, hall⟩
        obtain ⟨first, others, rfl, hfirst, hothers⟩ := List.map_eq_cons_iff.mp hmap
        obtain ⟨axis', node', d⟩ := first
        obtain ⟨⟨hd, hcheck⟩, hrest⟩ := List.forall_mem_cons.mp hall
        obtain ⟨rfl, hnode⟩ := Prod.mk.inj hfirst
        obtain rfl := IndexTerm.indexer.inj hnode
        refine Outcome.bind_eq_ok.mpr ⟨d, hd, Outcome.bind_eq_ok.mpr ⟨(), hcheck, ?_⟩⟩
        exact Outcome.bind_eq_ok.mpr ⟨others, ih.mpr ⟨hothers, hrest⟩, rfl⟩

/-- Dynamic index arrays take their rows from one origin. -/
theorem commonRows_spec {ds : List Description} {rows : Option RowSpan}
    (h : commonRows ds = .ok rows) :
    match rows with
    | none => ∀ d ∈ ds, d.shape.isDynamic = false
    | some r => (∃ d ∈ ds, d.shape.isDynamic = true ∧ d.rows = r) ∧
        ∀ d ∈ ds, d.shape.isDynamic = true → d.rows.origin = r.origin := by
  unfold commonRows at h
  split at h
  · next hnil =>
    obtain rfl := Except.ok.inj h
    intro d hd
    have := List.filter_eq_nil_iff.mp hnil d hd
    simpa using this
  · next first others hcons =>
    split at h
    · cases h
    · next hfind =>
      obtain rfl := Except.ok.inj h
      have hfirst : first ∈ ds.filter (·.shape.isDynamic) := by rw [hcons]; exact List.mem_cons_self
      obtain ⟨hmem, hdyn⟩ := List.mem_filter.mp hfirst
      refine ⟨⟨first, hmem, hdyn, rfl⟩, fun d hd hdd => ?_⟩
      have hin : d ∈ first :: others := by rw [← hcons]; exact List.mem_filter.mpr ⟨hd, hdd⟩
      rcases List.mem_cons.mp hin with rfl | hin
      · rfl
      · have := List.find?_eq_none.mp hfind d hin
        exact (by simpa using this : first.rows.origin = d.rows.origin).symm

/-- Everything that construction tests, in the order of the tests; `picked`
are the index arrays with their axes. -/
structure Passes (describe : NodeId → Except Refusal Description) (source : NodeId)
    (terms : List IndexTerm) (d : Description) (picked : List Picked) (common : Shape)
    (rows : Option RowSpan) (shape : Shape) : Prop where
  source : describe source = .ok d
  rank : terms.length = d.shape.rank
  indexers : indexersOf describe d ((axesOf d).zip terms) = .ok picked
  indexed : picked ≠ []
  broadcast : ∃ found, Shape.broadcast (picked.map (·.2.2.shape)) = .ok found ∧
    found.getD .scalar = common
  rows : commonRows (picked.map (·.2.2)) = .ok rows
  multiDim : picked.countP (2 ≤ ·.2.2.shape.rank) ≤ 1
  consecutive : front terms (axesOf d) ≠ [] →
    ∀ e ∈ (((axesOf d).zip terms).dropWhile keeps).dropWhile (!keeps ·), keeps e = true
  flat : front terms (axesOf d) ≠ [] → picked.countP (2 ≤ ·.2.2.shape.rank) = 0
  static : front terms (axesOf d) ≠ [] → common.isDynamic = false
  shape : Shape.ofDims? ((front terms (axesOf d)).map (·.dim) ++ common.dims ++
    (behind terms (axesOf d)).map (·.dim)) = some shape

/-- A test that is made only where there is a whole axis in front. -/
theorem not_guarded_iff {α : Type} {xs : List α} {failed : Bool} :
    ¬ (!xs.isEmpty && failed) = true ↔ (xs ≠ [] → failed = false) := by
  cases xs with
  | nil => simp
  | cons x xs => simp

/-- The selection that passes the tests. -/
def accepted (graph : Nat) (source : NodeId) (terms : List IndexTerm) (d : Description)
    (picked : List Picked) (common : Shape) (rows : Option RowSpan) (shape : Shape) :
    AdvancedIndexing where
  graph := graph
  source := source
  sourceDescription := d
  pre := front terms (axesOf d)
  post := behind terms (axesOf d)
  strides := d.shape.weights
  indexers := picked.map fun e => ⟨e.2.1, e.1.number, e.2.2.shape.rank == 0⟩
  broadcast := common
  shape := shape
  rows := rows <|> if shape.isDynamic then some d.rows else none

/-- A layout is found for what passes all tests. -/
theorem layoutOf_eq_ok {describe : NodeId → Except Refusal Description} {source : NodeId}
    {d : Description} (hd : describe source = .ok d) {terms : List IndexTerm} {l : Layout} :
    layoutOf describe d terms = .ok l ↔
      ∃ picked common rows shape, Passes describe source terms d picked common rows shape ∧
        l = ⟨front terms (axesOf d), behind terms (axesOf d), picked, common, rows, shape⟩ := by
  unfold layoutOf
  constructor
  · intro h
    obtain ⟨hrank, h⟩ := Outcome.guard_eq_ok.mp h
    obtain ⟨picked, hpicked, h⟩ := Outcome.bind_eq_ok.mp h
    obtain ⟨hindexed, h⟩ := Outcome.guard_eq_ok.mp h
    dsimp only at h
    split at h
    swap
    · cases h
    next found hfound =>
    obtain ⟨common, hcommon, h⟩ := Outcome.bind_eq_ok.mp h
    obtain rfl := Except.ok.inj hcommon
    obtain ⟨rows, hrows, h⟩ := Outcome.bind_eq_ok.mp h
    obtain ⟨hmulti, h⟩ := Outcome.guard_eq_ok.mp h
    obtain ⟨hconsecutive, h⟩ := Outcome.guard_eq_ok.mp h
    obtain ⟨hflat, h⟩ := Outcome.guard_eq_ok.mp h
    obtain ⟨hstatic, h⟩ := Outcome.guard_eq_ok.mp h
    split at h
    swap
    · cases h
    next shape hshape =>
    obtain rfl := Except.ok.inj h
    rw [not_guarded_iff] at hconsecutive hflat hstatic
    rw [List.countP_map] at hmulti hflat
    refine ⟨picked, _, rows, shape, ⟨hd, Decidable.not_not.mp hrank, hpicked, ?_,
      ⟨found, hfound, rfl⟩, hrows, Nat.le_of_not_lt hmulti, fun hfront => ?_, fun hfront => ?_,
      hstatic, hshape⟩, rfl⟩
    · exact fun hnil => hindexed (List.isEmpty_iff.mpr hnil)
    · have hall := hconsecutive hfront
      rw [Bool.not_eq_false'] at hall
      exact List.all_eq_true.mp hall
    · exact Nat.eq_zero_of_not_pos (of_decide_eq_false (hflat hfront))
  · rintro ⟨picked, common, rows, shape, h, rfl⟩
    obtain ⟨found, hfound, rfl⟩ := h.broadcast
    refine Outcome.guard_eq_ok.mpr ⟨not_not.mpr h.rank, ?_⟩
    refine Outcome.bind_eq_ok.mpr ⟨picked, h.indexers, ?_⟩
    refine Outcome.guard_eq_ok.mpr ⟨fun hnil => h.indexed (List.isEmpty_iff.mp hnil), ?_⟩
    dsimp only
    rw [hfound, List.countP_map]
    refine Outcome.bind_eq_ok.mpr ⟨_, rfl, ?_⟩
    refine Outcome.bind_eq_ok.mpr ⟨rows, h.rows, ?_⟩
    refine Outcome.guard_eq_ok.mpr ⟨Nat.not_lt.mpr h.multiDim, ?_⟩
    refine Outcome.guard_eq_ok.mpr ⟨not_guarded_iff.mpr fun hfront => ?_, ?_⟩
    · rw [Bool.not_eq_false']
      exact List.all_eq_true.mpr (h.consecutive hfront)
    refine Outcome.guard_eq_ok.mpr ⟨not_guarded_iff.mpr fun hfront => ?_, ?_⟩
    · exact decide_eq_false (Nat.not_lt.mpr (Nat.le_of_eq (h.flat hfront)))
    refine Outcome.guard_eq_ok.mpr ⟨not_guarded_iff.mpr h.static, ?_⟩
    have hshape := h.shape
    unfold front behind at hshape
    simp only [hshape]
    rfl

/-- **What is accepted** is what passes all tests, from a source whose strides
are words. -/
theorem ofTerms_eq_ok {graph : Nat} {describe : NodeId → Except Refusal Description}
    {source : NodeId} {terms : List IndexTerm} {a : AdvancedIndexing} :
    ofTerms graph describe source terms = .ok a ↔
      ∃ d picked common rows shape, Passes describe source terms d picked common rows shape ∧
        d.shape.LaysOut ∧ a = accepted graph source terms d picked common rows shape := by
  unfold ofTerms
  constructor
  · intro h
    obtain ⟨d, hd, h⟩ := Outcome.bind_eq_ok.mp h
    have hd := Outcome.refusable_eq_ok.mp hd
    obtain ⟨l, hl, h⟩ := Outcome.bind_eq_ok.mp h
    obtain ⟨picked, common, rows, shape, hpasses, rfl⟩ :=
      (layoutOf_eq_ok hd).mp (Outcome.refusable_eq_ok.mp hl)
    obtain ⟨strides, hstrides, h⟩ := Outcome.bind_eq_ok.mp h
    obtain ⟨hlays, rfl⟩ := Shape.strides_eq_ok.mp (Outcome.fault_eq_ok.mp hstrides)
    exact ⟨d, picked, common, rows, shape, hpasses, hlays, (Except.ok.inj h).symm⟩
  · rintro ⟨d, picked, common, rows, shape, hpasses, hlays, rfl⟩
    refine Outcome.bind_eq_ok.mpr ⟨d, Outcome.refusable_eq_ok.mpr hpasses.source, ?_⟩
    refine Outcome.bind_eq_ok.mpr ⟨_, Outcome.refusable_eq_ok.mpr
      ((layoutOf_eq_ok hpasses.source).mpr ⟨picked, common, rows, shape, hpasses, rfl⟩), ?_⟩
    exact Outcome.bind_eq_ok.mpr ⟨_, Outcome.fault_eq_ok.mpr
      (Shape.strides_eq_ok.mpr ⟨hlays, rfl⟩), rfl⟩

/-! ### The axes with their terms -/

section Axes

variable {terms : List IndexTerm} {d : Description}

/-- The whole axes are those in front and those behind. -/
theorem map_front_append_behind {β : Type} (terms : List IndexTerm) (d : Description)
    (f : SourceAxis → β) :
    (front terms (axesOf d) ++ behind terms (axesOf d)).map f =
      (((axesOf d).zip terms).filter keeps).map (fun e => f e.1) := by
  unfold front behind
  rw [← List.map_append, takeWhile_append_filter, List.map_map]
  rfl

variable (hrank : terms.length = d.shape.rank)
include hrank

theorem length_axesOf : (axesOf d).length = terms.length := by
  have hlength := congrArg List.length (axesOf_dims d)
  rw [List.length_map, Shape.length_dims] at hlength
  rw [hlength, hrank]

theorem map_axes {β : Type} (f : SourceAxis → β) :
    ((axesOf d).zip terms).map (fun e => f e.1) = (axesOf d).map f := by
  conv_rhs => rw [← List.map_fst_zip (Nat.le_of_eq (length_axesOf hrank)), List.map_map]
  rfl

theorem map_terms : ((axesOf d).zip terms).map (·.2) = terms :=
  List.map_snd_zip (Nat.le_of_eq (length_axesOf hrank).symm)

theorem map_extents (n : Nat) :
    ((axesOf d).zip terms).map (axisExtent n ·.1) = d.shape.withRows n := by
  rw [map_axes hrank (axisExtent n), Shape.withRows_eq_map, ← axesOf_dims, List.map_map]
  rfl

theorem map_weights :
    ((axesOf d).zip terms).map (axisWeight d.shape ·.1) = d.shape.weights := by
  rw [map_axes hrank (axisWeight d.shape), axesOf_weights]

theorem mem_dims : ∀ e ∈ (axesOf d).zip terms, e.1.dim ∈ d.shape.dims := by
  intro e he
  rw [← axesOf_dims, ← map_axes hrank]
  exact List.mem_map.mpr ⟨e, he, rfl⟩

/-- Only the very first of the whole axes can be dynamic, and only in front. -/
theorem wholes_fixed : (∀ x ∈ (front terms (axesOf d)).tail, x.dim ≠ .dynamic) ∧
    ∀ x ∈ behind terms (axesOf d), x.dim ≠ .dynamic := by
  obtain ⟨hfront, hbehind⟩ := @whole_fixed ((axesOf d).zip terms) (by
    intro e he hdyn
    refine Shape.dynamic_not_mem_tail d.shape ?_
    rw [← axesOf_dims, ← map_axes hrank, ← List.map_tail]
    exact List.mem_map.mpr ⟨e, he, hdyn⟩)
  constructor
  · intro x hx
    rw [front, ← List.map_tail] at hx
    obtain ⟨e, he, rfl⟩ := List.mem_map.mp hx
    exact hfront e he
  · intro x hx
    obtain ⟨e, he, rfl⟩ := List.mem_map.mp hx
    exact hbehind e he

end Axes

namespace Passes

variable {describe : NodeId → Except Refusal Description} {source : NodeId}
  {terms : List IndexTerm} {d : Description} {picked : List Picked} {common shape : Shape}
  {rows : Option RowSpan} (h : Passes describe source terms d picked common rows shape)
include h

/-- The index arrays select along the axes that are not kept. -/
theorem map_picked {β : Type} (f : SourceAxis → β) :
    picked.map (fun e => f e.1) =
      (((axesOf d).zip terms).filter (!keeps ·)).map (fun e => f e.1) := by
  have hmap := congrArg (List.map fun e => f e.1) (indexersOf_eq_ok.mp h.indexers).1
  rwa [List.map_map] at hmap

theorem described : ∀ e ∈ picked, describe e.2.1 = .ok e.2.2 :=
  fun e he => ((indexersOf_eq_ok.mp h.indexers).2 e he).1

theorem checked : ∀ e ∈ picked, checkIndexer d e.1 e.2.1 e.2.2 = .ok () :=
  fun e he => ((indexersOf_eq_ok.mp h.indexers).2 e he).2

/-- The index arrays are those among the terms. -/
theorem nodes : picked.map (·.2.1) = nodesAmong terms := by
  have hnodes := congrArg (fun es => nodesAmong (es.map Prod.snd)) (indexersOf_eq_ok.mp h.indexers).1
  rw [nodesAmong_filter, map_terms h.rank, List.map_map] at hnodes
  rw [← hnodes, nodesAmong, List.filterMap_map]
  exact (List.filterMap_eq_map (f := fun e : Picked => e.2.1)).symm ▸ rfl

/-- The index arrays have the common shape, or no axes. -/
theorem shapes : (∀ e ∈ picked, e.2.2.shape.rank = 0 ∨ e.2.2.shape = common) ∧
    ∃ e ∈ picked, e.2.2.shape = common := by
  obtain ⟨found, hfound, rfl⟩ := h.broadcast
  obtain ⟨hall, hmem⟩ := Shape.broadcast_spec hfound fun hnil =>
    h.indexed (List.map_eq_nil_iff.mp hnil)
  obtain ⟨e, he, hshape⟩ := List.mem_map.mp hmem
  exact ⟨fun e he => hall _ (List.mem_map_of_mem he), e, he, hshape⟩

/-- If the index arrays are dynamic, they have the rows of one of them. -/
theorem rows_of_dynamic (hdyn : common.isDynamic = true) :
    ∃ r, rows = some r ∧
      (∃ e ∈ picked, e.2.2.shape.isDynamic = true ∧ e.2.2.rows = r) ∧
      ∀ e ∈ picked, e.2.2.shape.isDynamic = true → e.2.2.rows.origin = r.origin := by
  obtain ⟨-, e, he, hshape⟩ := h.shapes
  have hrows := commonRows_spec h.rows
  cases rows with
  | none =>
    have := hrows e.2.2 (List.mem_map.mpr ⟨e, he, rfl⟩)
    rw [hshape] at this
    cases hdyn.symm.trans this
  | some r =>
    obtain ⟨⟨i, hi, hid, hir⟩, horigin⟩ := hrows
    obtain ⟨e', he', rfl⟩ := List.mem_map.mp hi
    exact ⟨r, rfl, ⟨e', he', hid, hir⟩, fun e he => horigin _ (List.mem_map.mpr ⟨e, he, rfl⟩)⟩

/-- If they are not, they have no rows to give. -/
theorem rows_of_static (hstatic : common.isDynamic = false) : rows = none := by
  have hrows := commonRows_spec h.rows
  cases rows with
  | none => rfl
  | some r =>
    obtain ⟨⟨i, hi, hid, -⟩, -⟩ := hrows
    obtain ⟨e, he, rfl⟩ := List.mem_map.mp hi
    rcases h.shapes.1 e he with h0 | heq
    · exact absurd h0 (Shape.rank_ne_zero_of_isDynamic hid)
    · rw [heq] at hid
      cases hstatic.symm.trans hid

/-- Coordinates for the whole axes and for the others make up those of a
position of the source. -/
theorem weave_position {m : Nat} {ws ps : List Nat}
    (hws : RowMajor.Within ws
      ((front terms (axesOf d) ++ behind terms (axesOf d)).map (axisExtent m)))
    (hps : RowMajor.Within ps (picked.map (axisExtent m ·.1))) :
    RowMajor.Within (weave terms ws ps) (d.shape.withRows m) ∧
      RowMajor.flatten (weave terms ws ps) d.shape.weights =
        RowMajor.flatten ws
          ((front terms (axesOf d) ++ behind terms (axesOf d)).map (axisWeight d.shape)) +
        RowMajor.flatten ps (picked.map (axisWeight d.shape ·.1)) := by
  rw [map_front_append_behind] at hws ⊢
  rw [h.map_picked (axisExtent m)] at hps
  rw [h.map_picked (axisWeight d.shape)]
  have hspec := weave_spec _ (axisWeight d.shape) m hws hps
  rwa [map_terms h.rank, map_extents h.rank, map_weights h.rank] at hspec

/-- A selection still passes the tests when more is known. -/
theorem mono {describe' : NodeId → Except Refusal Description}
    (hd : ∀ i d, describe i = .ok d → describe' i = .ok d) :
    Passes describe' source terms d picked common rows shape :=
  { h with
    source := hd _ _ h.source
    indexers := indexersOf_eq_ok.mpr ⟨(indexersOf_eq_ok.mp h.indexers).1,
      fun e he => ⟨hd _ _ (h.described e he), h.checked e he⟩⟩ }

end Passes

/-- What is known of a selection from its construction; `picked` are its
index arrays with their axes. -/
structure Fits (a : AdvancedIndexing) (describe : NodeId → Except Refusal Description)
    (picked : List Picked) : Prop where
  source : describe a.source = .ok a.sourceDescription
  described : ∀ e ∈ picked, describe e.2.1 = .ok e.2.2
  indexers : a.indexers = picked.map fun e => ⟨e.2.1, e.1.number, e.2.2.shape.rank == 0⟩
  strides : a.strides = a.sourceDescription.shape.weights
  laysOut : a.sourceDescription.shape.LaysOut
  checked : ∀ e ∈ picked, checkIndexer a.sourceDescription e.1 e.2.1 e.2.2 = .ok ()
  shapes : ∀ e ∈ picked, e.2.2.shape.rank = 0 ∨ e.2.2.shape = a.broadcast
  common : ∃ e ∈ picked, e.2.2.shape = a.broadcast
  dims : a.shape.dims = a.pre.map (·.dim) ++ a.broadcast.dims ++ a.post.map (·.dim)
  pre_dims : ∀ x ∈ a.pre, x.dim ∈ a.sourceDescription.shape.dims
  picked_dims : ∀ e ∈ picked, e.1.dim ∈ a.sourceDescription.shape.dims
  pre_fixed : ∀ x ∈ a.pre.tail, x.dim ≠ .dynamic
  post_fixed : ∀ x ∈ a.post, x.dim ≠ .dynamic
  /-- Behind a whole axis the number of index values is fixed. -/
  static : a.pre ≠ [] → a.broadcast.isDynamic = false
  rows_broadcast : a.broadcast.isDynamic = true →
    ∃ r, a.rows = some r ∧
      (∃ e ∈ picked, e.2.2.shape.isDynamic = true ∧ e.2.2.rows = r) ∧
      ∀ e ∈ picked, e.2.2.shape.isDynamic = true → e.2.2.rows.origin = r.origin
  rows_source : a.broadcast.isDynamic = false → a.shape.isDynamic = true →
    a.rows = some a.sourceDescription.rows
  merge : ∀ rows ws ps, RowMajor.Within ws ((a.pre ++ a.post).map (axisExtent rows)) →
    RowMajor.Within ps (picked.map (axisExtent rows ·.1)) →
    ∃ cs, RowMajor.Within cs (a.sourceDescription.shape.withRows rows) ∧
      RowMajor.flatten cs a.sourceDescription.shape.weights =
        RowMajor.flatten ws ((a.pre ++ a.post).map (axisWeight a.sourceDescription.shape)) +
        RowMajor.flatten ps (picked.map (axisWeight a.sourceDescription.shape ·.1))
  size_source : ∀ rows, a.sourceDescription.shape.sizeWith rows =
    RowMajor.size ((a.pre ++ a.post).map (axisExtent rows)) *
      RowMajor.size (picked.map (axisExtent rows ·.1))

/-- **Construction establishes the promises.** -/
theorem Passes.fits {describe : NodeId → Except Refusal Description} {source : NodeId}
    {terms : List IndexTerm} {d : Description} {picked : List Picked} {common shape : Shape}
    {indexerRows : Option RowSpan}
    (hp : Passes describe source terms d picked common indexerRows shape) (graph : Nat)
    (hlays : d.shape.LaysOut) :
    (accepted graph source terms d picked common indexerRows shape).Fits describe picked := by
  obtain ⟨hshapes, hcommon⟩ := hp.shapes
  constructor
  case source => exact hp.source
  case described => exact hp.described
  case indexers => rfl
  case strides => rfl
  case laysOut => exact hlays
  case checked => exact hp.checked
  case shapes => exact hshapes
  case common => exact hcommon
  case dims => exact Shape.dims_of_ofDims? hp.shape
  case pre_dims =>
    intro x hx
    obtain ⟨e, he, rfl⟩ := List.mem_map.mp hx
    exact mem_dims hp.rank e ((List.takeWhile_sublist _).mem he)
  case picked_dims =>
    intro e he
    have hmem : e.1.dim ∈ picked.map (·.1.dim) := List.mem_map_of_mem he
    rw [hp.map_picked (·.dim)] at hmem
    obtain ⟨x, hx, heq⟩ := List.mem_map.mp hmem
    rw [← heq]
    exact mem_dims hp.rank x (List.mem_of_mem_filter hx)
  case pre_fixed => exact (wholes_fixed hp.rank).1
  case post_fixed => exact (wholes_fixed hp.rank).2
  case static => exact hp.static
  case rows_broadcast =>
    intro hdyn
    obtain ⟨r, rfl, hpicked, horigin⟩ := hp.rows_of_dynamic hdyn
    exact ⟨r, rfl, hpicked, horigin⟩
  case rows_source =>
    intro hstatic hdyn
    obtain rfl := hp.rows_of_static hstatic
    exact if_pos hdyn
  case merge => exact fun rows ws ps hws hps => ⟨_, hp.weave_position hws hps⟩
  case size_source =>
    intro rows
    show d.shape.sizeWith rows = RowMajor.size ((front terms (axesOf d) ++
      behind terms (axesOf d)).map (axisExtent rows)) * _
    rw [Shape.sizeWith, ← map_extents hp.rank, size_filter, map_front_append_behind,
      hp.map_picked (axisExtent rows)]

theorem ofTerms_fits {graph : Nat} {describe : NodeId → Except Refusal Description}
    {source : NodeId} {terms : List IndexTerm} {a : AdvancedIndexing}
    (h : ofTerms graph describe source terms = .ok a) : ∃ picked, a.Fits describe picked := by
  obtain ⟨d, picked, common, rows, shape, hp, hlays, rfl⟩ := ofTerms_eq_ok.mp h
  exact ⟨picked, hp.fits graph hlays⟩

end AdvancedIndexing
end ArrayFlow
