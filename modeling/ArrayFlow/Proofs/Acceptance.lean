import ArrayFlow.Proofs.Built
import Mathlib.Data.List.TakeWhile

/-!
# Which selections by index arrays are accepted

`AdvancedIndexing.ofTerms` makes its tests one after the other, several of
them over the whole list of terms, and none of them says by itself what a
caller has to provide.  `Graph.Admits` says it at once, in terms of the
descriptions of the source and of the index arrays, and
`Graph.advancedIndexing_outcome` says that this is exactly what is accepted, if
the strides of the source are words.

* Each test that is passed over a list is a statement about the members of the
  list (`exists_broadcast`, `exists_commonRows`, `exists_picked`,
  `consecutive_iff`), and so the tests can be passed in any order;
* the last test, for a dynamic axis behind the leading one, never fails: a
  selection that gets there has one only if the source or an index array has
  one (`exists_shape`).

The largest value of an index array is compared with the extent of its axis
as all bounds are, as binary64 numbers.  That is not the comparison of the two
numbers: an extent above `2 ^ 53` is rounded before (`admits_exact_fails`).  And
the strides of the source are found only if the product of all its extents is a
word, although none of them takes in the leading one (`shelf_admits`).
-/

namespace ArrayFlow

namespace Shape

theorem exists_foldlM_meet {rest : List Shape} {common : Shape}
    (h : ∀ s ∈ common :: rest, ∀ t ∈ common :: rest, s.rank ≠ 0 → t.rank ≠ 0 → s = t) :
    ∃ last, rest.foldlM meet common = .ok last := by
  induction rest generalizing common with
  | nil => exact ⟨common, rfl⟩
  | cons s rest ih =>
    rw [List.foldlM_cons]
    by_cases hc : common.rank = 0
    · have hmeet : meet common s = .ok s := if_pos hc
      rw [hmeet]
      exact ih fun t ht u hu => h t (List.mem_cons_of_mem _ ht) u (List.mem_cons_of_mem _ hu)
    · have hs : s.rank = 0 ∨ common = s := by
        by_cases h0 : s.rank = 0
        · exact .inl h0
        · exact .inr (h common (by simp) s (by simp) hc h0)
      have hmeet : meet common s = .ok common := by rw [meet, if_neg hc, if_pos hs]
      have hsub : ∀ t ∈ common :: rest, t ∈ common :: s :: rest := by
        intro t ht
        rcases List.mem_cons.mp ht with rfl | ht
        · exact List.mem_cons_self
        · exact List.mem_cons_of_mem _ (List.mem_cons_of_mem _ ht)
      rw [hmeet]
      exact ih fun t ht u hu => h t (hsub t ht) u (hsub u hu)

/-- Shapes that are equal where they have axes have one in common. -/
theorem exists_broadcast {shapes : List Shape}
    (h : ∀ s ∈ shapes, ∀ t ∈ shapes, s.rank ≠ 0 → t.rank ≠ 0 → s = t) :
    ∃ found, broadcast shapes = .ok found := by
  cases shapes with
  | nil => exact ⟨none, rfl⟩
  | cons s rest =>
    obtain ⟨last, hlast⟩ := exists_foldlM_meet h
    exact ⟨some last, Outcome.map_eq_ok.mpr ⟨last, hlast, rfl⟩⟩

theorem exists_extents? {ds : List Dim} (h : .dynamic ∉ ds) : ∃ ns, Dim.extents? ds = some ns := by
  induction ds with
  | nil => exact ⟨[], rfl⟩
  | cons d ds ih =>
    rw [List.mem_cons, not_or] at h
    obtain ⟨ns, hns⟩ := ih h.2
    cases d with
    | dynamic => exact absurd rfl h.1
    | fixed n => exact ⟨n :: ns, Option.map_eq_some_iff.mpr ⟨ns, hns, rfl⟩⟩

/-- Axes of which only the leading one may be dynamic are those of a shape. -/
theorem exists_ofDims? {ds : List Dim} (h : .dynamic ∉ ds.tail) : ∃ s, ofDims? ds = some s := by
  cases ds with
  | nil => exact ⟨.static [], rfl⟩
  | cons d ds =>
    obtain ⟨ns, hns⟩ := exists_extents? h
    cases d with
    | dynamic => exact ⟨.dynamic ns, Option.map_eq_some_iff.mpr ⟨ns, hns, rfl⟩⟩
    | fixed n =>
      refine ⟨.static (n :: ns), Option.map_eq_some_iff.mpr ⟨n :: ns, ?_, rfl⟩⟩
      exact Option.map_eq_some_iff.mpr ⟨ns, hns, rfl⟩

end Shape

namespace AdvancedIndexing

/-! ### What the tests say -/

/-- Index arrays that take their rows from one origin have rows in common. -/
theorem exists_commonRows {ds : List Description}
    (h : ∀ d ∈ ds, ∀ e ∈ ds, d.shape.isDynamic = true → e.shape.isDynamic = true →
      d.rows.origin = e.rows.origin) : ∃ rows, commonRows ds = .ok rows := by
  unfold commonRows
  split
  · exact ⟨none, rfl⟩
  · next first others hcons =>
    have hall : ∀ d ∈ first :: others, d ∈ ds ∧ d.shape.isDynamic = true := by
      intro d hd
      rw [← hcons] at hd
      exact List.mem_filter.mp hd
    have hfind : others.find? (fun d => first.rows.origin ≠ d.rows.origin) = none := by
      refine List.find?_eq_none.mpr fun d hd => ?_
      obtain ⟨hfirst, hdyn⟩ := hall first List.mem_cons_self
      obtain ⟨hmem, hddyn⟩ := hall d (List.mem_cons_of_mem _ hd)
      simpa using h first hfirst d hmem hdyn hddyn
    rw [hfind]
    exact ⟨some first.rows, rfl⟩

/-- Dynamic index arrays with rows in common take them from one origin. -/
theorem origin_eq_of_commonRows {ds : List Description} {rows : Option RowSpan}
    (h : commonRows ds = .ok rows) : ∀ d ∈ ds, ∀ e ∈ ds, d.shape.isDynamic = true →
      e.shape.isDynamic = true → d.rows.origin = e.rows.origin := by
  intro d hd e he hdyn hedyn
  have hspec := commonRows_spec h
  cases rows with
  | none => cases (hspec d hd).symm.trans hdyn
  | some r => exact (hspec.2 d hd hdyn).trans (hspec.2 e he hedyn).symm

/-- Index arrays of whole numbers on their axes pass, one by one. -/
theorem exists_picked {describe : NodeId → Except Refusal Description} {source : Description}
    {axes : List (SourceAxis × IndexTerm)} {is : List Description}
    (hdescribed : List.Forall₂ (fun node i => describe node = .ok i) (nodesAmong (axes.map (·.2))) is)
    (hranged : List.Forall₂ (fun dim i => i.integral = true ∧ .zero ≤ i.min ∧
        i.max < .ofNat (dim.extentOr source.rows.minRows))
      ((axes.filter (!keeps ·)).map (·.1.dim)) is) :
    ∃ picked, indexersOf describe source axes = .ok picked ∧ picked.map (·.2.2) = is := by
  induction axes generalizing is with
  | nil =>
    cases hdescribed
    exact ⟨[], rfl, rfl⟩
  | cons e axes ih =>
    obtain ⟨axis, term⟩ := e
    cases term with
    | whole =>
      rw [List.filter_cons_of_neg (by simp)] at hranged
      exact ih hdescribed hranged
    | indexer node =>
      rw [List.filter_cons_of_pos (by simp)] at hranged
      cases hranged with
      | @cons _ i _ is hfirst hranged =>
        obtain ⟨hintegral, hmin, hmax⟩ := hfirst
        cases hdescribed with
        | cons hi hdescribed =>
          obtain ⟨picked, hpicked, rfl⟩ := ih hdescribed hranged
          have hcheck : checkIndexer source axis node i = .ok () :=
            checkIndexer_eq_ok.mpr ⟨hintegral, Binary64.not_lt_of_le hmin, Binary64.not_le_of_lt hmax⟩
          refine ⟨(axis, node, i) :: picked, Outcome.bind_eq_ok.mpr ⟨i, hi, ?_⟩, rfl⟩
          refine Outcome.bind_eq_ok.mpr ⟨(), hcheck, Outcome.bind_eq_ok.mpr ⟨picked, hpicked, rfl⟩⟩

theorem exists_map_indexer {terms : List IndexTerm} (h : ∀ t ∈ terms, t ≠ .whole) :
    ∃ nodes : List NodeId, terms = nodes.map .indexer := by
  refine ⟨nodesAmong terms, ?_⟩
  induction terms with
  | nil => rfl
  | cons t terms ih =>
    obtain ⟨ht, hterms⟩ := List.forall_mem_cons.mp h
    cases t with
    | whole => exact absurd rfl ht
    | indexer node => exact congrArg (IndexTerm.indexer node :: ·) (ih hterms)

/-- The index arrays stand in one stretch. -/
def Consecutive (terms : List IndexTerm) : Prop :=
  ∃ (k : Nat) (nodes : List NodeId) (l : Nat),
    terms = List.replicate k .whole ++ nodes.map .indexer ++ List.replicate l .whole

/-- Behind the whole axes in front and the index arrays after them there are
only whole axes. -/
theorem consecutive_iff {terms : List IndexTerm} : Consecutive terms ↔
    ∀ t ∈ (terms.dropWhile (· == .whole)).dropWhile (· != .whole), t = .whole := by
  rw [iff_comm]
  constructor
  · intro h
    obtain ⟨nodes, hnodes⟩ :=
      @exists_map_indexer ((terms.dropWhile (· == .whole)).takeWhile (· != .whole)) fun t ht => by
        simpa using List.mem_takeWhile_imp ht
    refine ⟨(terms.takeWhile (· == .whole)).length, nodes,
      ((terms.dropWhile (· == .whole)).dropWhile (· != .whole)).length, ?_⟩
    rw [← hnodes, ← List.eq_replicate_of_mem h, ← List.eq_replicate_of_mem fun t ht => by
      simpa using List.mem_takeWhile_imp ht]
    rw [List.append_assoc, List.takeWhile_append_dropWhile, List.takeWhile_append_dropWhile]
  · rintro ⟨k, nodes, l, rfl⟩ t ht
    rw [List.append_assoc, List.dropWhile_append_of_pos (by simp)] at ht
    cases nodes with
    | nil =>
      exact List.eq_of_mem_replicate
        ((List.dropWhile_sublist _).mem ((List.dropWhile_sublist _).mem ht))
    | cons node nodes =>
      rw [List.map_cons, List.cons_append, List.dropWhile_cons_of_neg (by simp), ← List.cons_append,
        ← List.map_cons, List.dropWhile_append_of_pos (by simp)] at ht
      exact List.eq_of_mem_replicate ((List.dropWhile_sublist _).mem ht)

section Axes

variable {terms : List IndexTerm} {d : Description} (hrank : terms.length = d.shape.rank)
include hrank

/-- There is a whole axis in front just if the first term keeps its axis. -/
theorem front_ne_nil : front terms (axesOf d) ≠ [] ↔ terms.head? = some .whole := by
  have hlength := length_axesOf hrank
  unfold front
  cases terms with
  | nil => simp
  | cons t terms =>
    cases haxes : axesOf d with
    | nil =>
      rw [haxes] at hlength
      cases hlength
    | cons axis axes =>
      cases t <;> simp

/-- The test for one stretch looks at the terms only. -/
theorem forall_behind_keeps :
    (∀ e ∈ (((axesOf d).zip terms).dropWhile keeps).dropWhile (!keeps ·), keeps e = true) ↔
      Consecutive terms := by
  rw [consecutive_iff]
  conv_rhs => rw [← map_terms hrank]
  rw [List.dropWhile_map, List.dropWhile_map, List.forall_mem_map]
  exact forall₂_congr fun e _ => beq_iff_eq

/-- **No axis but the leading one can be dynamic.**  In front of the index
arrays that is the leading axis of the source; without whole axes in front it
is that of the index arrays. -/
theorem exists_shape {common : Shape}
    (hstatic : front terms (axesOf d) ≠ [] → common.isDynamic = false) :
    ∃ shape, Shape.ofDims? ((front terms (axesOf d)).map (·.dim) ++ common.dims ++
      (behind terms (axesOf d)).map (·.dim)) = some shape := by
  obtain ⟨hfront, hbehind⟩ := wholes_fixed hrank
  have hpost : Dim.dynamic ∉ (behind terms (axesOf d)).map (·.dim) := by
    intro hmem
    obtain ⟨x, hx, hdyn⟩ := List.mem_map.mp hmem
    exact hbehind x hx hdyn
  apply Shape.exists_ofDims?
  cases hpre : front terms (axesOf d) with
  | nil =>
    rw [List.map_nil, List.nil_append]
    intro hmem
    cases hdims : common.dims with
    | nil =>
      rw [hdims, List.nil_append] at hmem
      exact hpost (List.mem_of_mem_tail hmem)
    | cons c cs =>
      have htail := Shape.dynamic_not_mem_tail common
      rw [hdims] at hmem htail
      rcases List.mem_append.mp hmem with hmem | hmem
      · exact htail hmem
      · exact hpost hmem
  | cons axis axes =>
    have hcommon := hstatic (by rw [hpre]; exact List.cons_ne_nil _ _)
    rw [← Bool.not_eq_true, Shape.isDynamic_iff] at hcommon
    rw [hpre] at hfront
    intro hmem
    rcases List.mem_append.mp hmem with hmem | hmem
    · rcases List.mem_append.mp hmem with hmem | hmem
      · obtain ⟨x, hx, hdyn⟩ := List.mem_map.mp hmem
        exact hfront x hx hdyn
      · exact hcommon hmem
    · exact hpost hmem

end Axes

theorem indexersOf_ne {describe : NodeId → Except Refusal Description} {source : Description}
    {axes : List (SourceAxis × IndexTerm)}
    (hdescribe : ∀ id, describe id ≠ .error .dynamicOutputBehindLeading) :
    indexersOf describe source axes ≠ .error .dynamicOutputBehindLeading := by
  induction axes with
  | nil => exact nofun
  | cons e axes ih =>
    obtain ⟨axis, term⟩ := e
    cases term with
    | whole => exact ih
    | indexer node =>
      intro h
      rcases Outcome.bind_eq_error.mp h with h | ⟨d, -, h⟩
      · exact hdescribe node h
      rcases Outcome.bind_eq_error.mp h with h | ⟨_, -, h⟩
      · unfold checkIndexer at h
        rcases Outcome.guard_eq_error.mp h with ⟨-, h⟩ | ⟨-, h⟩
        · cases h
        rcases Outcome.guard_eq_error.mp h with ⟨-, h⟩ | ⟨-, h⟩
        · cases h
        · cases h
      rcases Outcome.bind_eq_error.mp h with h | ⟨others, -, h⟩
      · exact ih h
      · cases h

theorem commonRows_ne {ds : List Description} :
    commonRows ds ≠ .error .dynamicOutputBehindLeading := by
  unfold commonRows
  split
  · exact nofun
  · split
    · exact nofun
    · exact nofun

/-- **The last test never fails.** -/
theorem layoutOf_ne {describe : NodeId → Except Refusal Description} {d : Description}
    {terms : List IndexTerm} (hdescribe : ∀ id, describe id ≠ .error .dynamicOutputBehindLeading) :
    layoutOf describe d terms ≠ .error .dynamicOutputBehindLeading := by
  intro h
  unfold layoutOf at h
  rcases Outcome.guard_eq_error.mp h with ⟨-, h⟩ | ⟨hrank, h⟩
  · cases h
  rcases Outcome.bind_eq_error.mp h with h | ⟨picked, -, h⟩
  · exact indexersOf_ne hdescribe h
  rcases Outcome.guard_eq_error.mp h with ⟨-, h⟩ | ⟨-, h⟩
  · cases h
  dsimp only at h
  split at h
  swap
  · cases h
  rcases Outcome.bind_eq_error.mp h with h | ⟨common, -, h⟩
  · cases h
  rcases Outcome.bind_eq_error.mp h with h | ⟨rows, -, h⟩
  · exact commonRows_ne h
  rcases Outcome.guard_eq_error.mp h with ⟨-, h⟩ | ⟨-, h⟩
  · cases h
  rcases Outcome.guard_eq_error.mp h with ⟨-, h⟩ | ⟨-, h⟩
  · cases h
  rcases Outcome.guard_eq_error.mp h with ⟨-, h⟩ | ⟨-, h⟩
  · cases h
  rcases Outcome.guard_eq_error.mp h with ⟨-, h⟩ | ⟨hstatic, h⟩
  · cases h
  rw [not_guarded_iff] at hstatic
  obtain ⟨shape, hshape⟩ := exists_shape (Decidable.not_not.mp hrank) hstatic
  unfold front behind at hshape
  rw [hshape] at h
  cases h

theorem ofTerms_ne {graph : Nat} {describe : NodeId → Except Refusal Description}
    {source : NodeId} {terms : List IndexTerm}
    (hdescribe : ∀ id, describe id ≠ .error .dynamicOutputBehindLeading) :
    ofTerms graph describe source terms ≠ .error (.refused .dynamicOutputBehindLeading) := by
  intro h
  rcases Outcome.bind_eq_error.mp h with h | ⟨d, -, h⟩
  · exact hdescribe source (Outcome.refusable_eq_refused.mp h)
  rcases Outcome.bind_eq_error.mp h with h | ⟨l, -, h⟩
  · exact layoutOf_ne hdescribe (Outcome.refusable_eq_refused.mp h)
  rcases Outcome.bind_eq_error.mp h with h | ⟨strides, -, h⟩
  · obtain ⟨f, -, h⟩ := Outcome.fault_eq_error.mp h
    cases h
  · cases h

/-- **What passes all tests and is not accepted** has a source whose strides are
no words, and this is the only fault. -/
theorem ofTerms_eq_fault {graph : Nat} {describe : NodeId → Except Refusal Description}
    {source : NodeId} {terms : List IndexTerm} {f : Fault} :
    ofTerms graph describe source terms = .error (.fault f) ↔
      f = .overflow ∧ ∃ d picked common rows shape,
        Passes describe source terms d picked common rows shape ∧ ¬ d.shape.LaysOut := by
  constructor
  · intro h
    rcases Outcome.bind_eq_error.mp h with h | ⟨d, hd, h⟩
    · exact absurd h Outcome.refusable_ne_fault
    rcases Outcome.bind_eq_error.mp h with h | ⟨l, hl, h⟩
    · exact absurd h Outcome.refusable_ne_fault
    have hd := Outcome.refusable_eq_ok.mp hd
    obtain ⟨picked, common, rows, shape, hpasses, -⟩ :=
      (layoutOf_eq_ok hd).mp (Outcome.refusable_eq_ok.mp hl)
    rcases Outcome.bind_eq_error.mp h with h | ⟨strides, -, h⟩
    · obtain ⟨f', hstrides, h⟩ := Outcome.fault_eq_error.mp h
      obtain rfl := Failure.fault.inj h
      obtain ⟨hlays, rfl⟩ := Shape.strides_eq_error.mp hstrides
      exact ⟨rfl, d, picked, common, rows, shape, hpasses, hlays⟩
    · cases h
  · rintro ⟨rfl, d, picked, common, rows, shape, hpasses, hlays⟩
    have hlayout := (layoutOf_eq_ok hpasses.source).mpr ⟨picked, common, rows, shape, hpasses, rfl⟩
    have hstrides := Shape.strides_eq_error.mpr ⟨hlays, rfl⟩
    refine Outcome.bind_eq_error.mpr (.inr ⟨d, Outcome.refusable_eq_ok.mpr hpasses.source, ?_⟩)
    refine Outcome.bind_eq_error.mpr (.inr ⟨_, Outcome.refusable_eq_ok.mpr hlayout, ?_⟩)
    exact Outcome.bind_eq_error.mpr (.inl (Outcome.fault_eq_error.mpr ⟨_, hstrides, rfl⟩))

end AdvancedIndexing

open AdvancedIndexing

namespace Graph

variable {g : Graph} {source : NodeId} {terms : List IndexTerm} {d : Description}
  {is : List Description}

/-- What a selection needs to be accepted; `d` is what is known of its source
and `is` what is known of its index arrays, in the order of their axes.  How a
largest value is compared with the extent of an axis is left open. -/
structure Admits (g : Graph) (below : Binary64 → Nat → Prop) (source : NodeId)
    (terms : List IndexTerm) (d : Description) (is : List Description) : Prop where
  source : g.describe source = .ok d
  rank : terms.length = d.shape.rank
  indexers : List.Forall₂ (fun node i => g.describe node = .ok i) (nodesAmong terms) is
  indexed : is ≠ []
  /-- A dynamic axis is only sure to have its least number of rows. -/
  ranged : List.Forall₂ (fun dim i => i.integral = true ∧ .zero ≤ i.min ∧
    below i.max (dim.extentOr d.rows.minRows)) (along terms d.shape.dims) is
  shapes : ∀ i ∈ is, ∀ j ∈ is, i.shape.rank ≠ 0 → j.shape.rank ≠ 0 → i.shape = j.shape
  origins : ∀ i ∈ is, ∀ j ∈ is, i.shape.isDynamic = true → j.shape.isDynamic = true →
    i.rows.origin = j.rows.origin
  multiDim : is.countP (2 ≤ ·.shape.rank) ≤ 1
  consecutive : terms.head? = some .whole → Consecutive terms
  flat : terms.head? = some .whole → ∀ i ∈ is, i.shape.rank < 2
  static : terms.head? = some .whole → ∀ i ∈ is, i.shape.isDynamic = false

/-- The comparison that is made: that of binary64 numbers. -/
def Below (x : Binary64) (n : Nat) : Prop := x < .ofNat n

/-- The comparison of the two numbers. -/
def BelowExactly (x : Binary64) (n : Nat) : Prop :=
  ∃ z, x.place? = some z ∧ z < Binary64.limit ∧ z < ((n * Binary64.one : Nat) : Int)

instance (x : Binary64) (n : Nat) : Decidable (BelowExactly x n) :=
  decidable_of_iff
    (∃ z ∈ x.place?, z < Binary64.limit ∧ z < ((n * Binary64.one : Nat) : Int)) Iff.rfl

/-- The comparisons agree where the extent is a binary64 number. -/
theorem below_iff_belowExactly {x : Binary64} {n : Nat}
    (h : Binary64.Representable (n * Binary64.one)) : Below x n ↔ BelowExactly x n := by
  have hlt := h.2
  have hplace : (Binary64.ofNat n).place? = some ((n * Binary64.one : Nat) : Int) := by
    rw [Binary64.place?_ofNat, Binary64.nearest_eq_self h.1]
    exact congrArg (fun k : Nat => some (k : Int)) (Nat.min_eq_left (Nat.le_of_lt hlt))
  unfold Below BelowExactly
  rw [Binary64.lt_iff]
  constructor
  · rintro ⟨z, w, hz, hw, hzw⟩
    obtain rfl := Option.some.inj (hw.symm.trans hplace)
    exact ⟨z, hz, by omega, hzw⟩
  · rintro ⟨z, hz, -, hzn⟩
    exact ⟨z, _, hz, hplace, hzn⟩

/-- The nodes that advanced indexing gives are selections that were accepted. -/
theorem advancedIndexing_eq_ok {node : Node} :
    g.advancedIndexing source terms = .ok node ↔
      ∃ a, ofTerms g.identity g.describe source terms = .ok a ∧ .advanced a = node :=
  Outcome.map_eq_ok

/-- What passes the tests has what it needs. -/
theorem admits_of_passes (hb : g.Built) {picked : List Picked} {common : Shape}
    {rows : Option RowSpan} {shape : Shape}
    (h : Passes g.describe source terms d picked common rows shape) :
    g.Admits Below source terms d (picked.map (·.2.2)) := by
  obtain ⟨hshapes, -⟩ := h.shapes
  have hcount : picked.countP (2 ≤ ·.2.2.shape.rank) =
      (picked.map (·.2.2)).countP (2 ≤ ·.shape.rank) := by
    rw [List.countP_map]
    rfl
  have halong : along terms d.shape.dims = picked.map (·.1.dim) := by
    rw [← axesOf_dims, map_along, h.map_picked (·.dim), along, List.map_map]
    rfl
  constructor
  case source => exact h.source
  case rank => exact h.rank
  case indexers =>
    rw [← h.nodes, List.forall₂_map_left_iff, List.forall₂_map_right_iff, List.forall₂_same]
    exact h.described
  case indexed => exact fun hnil => h.indexed (List.map_eq_nil_iff.mp hnil)
  case ranged =>
    rw [halong, List.forall₂_map_left_iff, List.forall₂_map_right_iff, List.forall₂_same]
    intro e he
    obtain ⟨hintegral, hmin, hmax⟩ := checkIndexer_eq_ok.mp (h.checked e he)
    -- whole numbers have bounds in order, so neither of them is NaN
    obtain ⟨hmin', hmax'⟩ := Binary64.ne_nan_of_le (hb.min_le_max (h.described e he) hintegral)
    exact ⟨hintegral, Binary64.le_of_not_lt Binary64.zero_ne_nan hmin' hmin,
      Binary64.lt_of_not_le hmax' (Binary64.ofNat_ne_nan _) hmax⟩
  case shapes =>
    simp only [List.forall_mem_map]
    intro e he e' he' h0 h0'
    exact ((hshapes e he).resolve_left h0).trans ((hshapes e' he').resolve_left h0').symm
  case origins => exact origin_eq_of_commonRows h.rows
  case multiDim => exact hcount ▸ h.multiDim
  case consecutive =>
    intro hhead
    exact (forall_behind_keeps h.rank).mp (h.consecutive ((front_ne_nil h.rank).mpr hhead))
  case flat =>
    intro hhead i hi
    have hflat := h.flat ((front_ne_nil h.rank).mpr hhead)
    rw [hcount, List.countP_eq_zero] at hflat
    simpa using hflat i hi
  case static =>
    simp only [List.forall_mem_map]
    intro hhead e he
    rcases hshapes e he with h0 | heq
    · cases hdyn : e.2.2.shape.isDynamic with
      | false => rfl
      | true => exact absurd h0 (Shape.rank_ne_zero_of_isDynamic hdyn)
    · rw [heq]
      exact h.static ((front_ne_nil h.rank).mpr hhead)

/-- What has what it needs passes the tests. -/
theorem Admits.exists_passes (h : g.Admits Below source terms d is) :
    ∃ picked common rows shape,
      Passes g.describe source terms d picked common rows shape ∧ picked.map (·.2.2) = is := by
  obtain ⟨picked, hpicked, rfl⟩ :=
    @exists_picked g.describe d ((axesOf d).zip terms) is (by
      rw [map_terms h.rank]
      exact h.indexers) (by
      have hranged := h.ranged
      rw [← axesOf_dims, map_along, along, List.map_map] at hranged
      exact hranged)
  have hindexed : picked ≠ [] := fun hnil => h.indexed (List.map_eq_nil_iff.mpr hnil)
  have hshapes := h.shapes
  simp only [List.forall_mem_map] at hshapes
  obtain ⟨found, hfound⟩ := @Shape.exists_broadcast (picked.map (·.2.2.shape)) (by
    simp only [List.forall_mem_map]
    exact hshapes)
  obtain ⟨rows, hrows⟩ := exists_commonRows h.origins
  have hcount : picked.countP (2 ≤ ·.2.2.shape.rank) =
      (picked.map (·.2.2)).countP (2 ≤ ·.shape.rank) := by
    rw [List.countP_map]
    rfl
  have hstatic : front terms (axesOf d) ≠ [] → (found.getD .scalar).isDynamic = false := by
    intro hfront
    obtain ⟨-, hmem⟩ := Shape.broadcast_spec hfound fun hnil => hindexed (List.map_eq_nil_iff.mp hnil)
    obtain ⟨e, he, heq⟩ := List.mem_map.mp hmem
    rw [← heq]
    exact h.static ((front_ne_nil h.rank).mp hfront) _ (List.mem_map_of_mem he)
  obtain ⟨shape, hshape⟩ := exists_shape h.rank hstatic
  refine ⟨picked, found.getD .scalar, rows, shape, ⟨h.source, h.rank, hpicked, hindexed,
    ⟨found, hfound, rfl⟩, hrows, hcount ▸ h.multiDim, fun hfront => ?_, fun hfront => ?_, hstatic,
    hshape⟩, rfl⟩
  · exact (forall_behind_keeps h.rank).mpr (h.consecutive ((front_ne_nil h.rank).mp hfront))
  · rw [hcount, List.countP_eq_zero]
    intro i hi
    simpa using h.flat ((front_ne_nil h.rank).mp hfront) i hi

theorem describe_ne {id : NodeId} : g.describe id ≠ .error .dynamicOutputBehindLeading := by
  intro h
  rcases Outcome.bind_eq_error.mp h with h | ⟨node, -, h⟩
  · unfold Graph.node at h
    split at h
    · cases h
    · cases h
  · split at h
    · cases h
    · cases h

theorem advancedIndexing_eq_error {e : Failure} :
    g.advancedIndexing source terms = .error e ↔
      ofTerms g.identity g.describe source terms = .error e :=
  Outcome.map_eq_error

/-- **What is accepted.**  Advanced indexing accepts just the selections that
have what they need, from a source whose strides are words; otherwise it stops
with an overflow, and there is no other fault.  The result has the whole axes
before the first index array, the axes of the index arrays, and the other whole
axes, and none but the leading one is dynamic; it is never refused for a dynamic
one behind that. -/
theorem advancedIndexing_outcome (hb : g.Built) (source : NodeId) (terms : List IndexTerm) :
    ((∃ node, g.advancedIndexing source terms = .ok node) ↔
        ∃ d is, g.Admits Below source terms d is ∧ d.shape.LaysOut) ∧
      (∀ f, g.advancedIndexing source terms = .error (.fault f) ↔
        f = .overflow ∧ ∃ d is, g.Admits Below source terms d is ∧ ¬ d.shape.LaysOut) ∧
      (∀ node, g.advancedIndexing source terms = .ok node →
        ∃ d is common, g.Admits Below source terms d is ∧
          (∀ i ∈ is, i.shape.rank = 0 ∨ i.shape = common) ∧ (∃ i ∈ is, i.shape = common) ∧
          ∀ id, ∃ r, node.description? id = some r ∧
            r.shape.dims = front terms d.shape.dims ++ common.dims ++ behind terms d.shape.dims ∧
            .dynamic ∉ r.shape.dims.tail) ∧
      g.advancedIndexing source terms ≠ .error (.refused .dynamicOutputBehindLeading) := by
  refine ⟨⟨?_, ?_⟩, fun f => ⟨?_, ?_⟩, ?_, ?_⟩
  · rintro ⟨node, hnode⟩
    obtain ⟨a, ha, -⟩ := advancedIndexing_eq_ok.mp hnode
    obtain ⟨d, picked, common, rows, shape, hpasses, hlays, -⟩ := ofTerms_eq_ok.mp ha
    exact ⟨d, _, admits_of_passes hb hpasses, hlays⟩
  · rintro ⟨d, is, h, hlays⟩
    obtain ⟨picked, common, rows, shape, hpasses, -⟩ := h.exists_passes
    have ha : ofTerms g.identity g.describe source terms = .ok _ :=
      ofTerms_eq_ok.mpr ⟨d, picked, common, rows, shape, hpasses, hlays, rfl⟩
    exact ⟨_, advancedIndexing_eq_ok.mpr ⟨_, ha, rfl⟩⟩
  · intro h
    obtain ⟨hf, d, picked, common, rows, shape, hpasses, hlays⟩ :=
      ofTerms_eq_fault.mp (advancedIndexing_eq_error.mp h)
    exact ⟨hf, d, _, admits_of_passes hb hpasses, hlays⟩
  · rintro ⟨hf, d, is, h, hlays⟩
    obtain ⟨picked, common, rows, shape, hpasses, -⟩ := h.exists_passes
    exact advancedIndexing_eq_error.mpr
      (ofTerms_eq_fault.mpr ⟨hf, d, picked, common, rows, shape, hpasses, hlays⟩)
  · intro node hnode
    obtain ⟨a, ha, rfl⟩ := advancedIndexing_eq_ok.mp hnode
    obtain ⟨d, picked, common, rows, shape, hpasses, -, rfl⟩ := ofTerms_eq_ok.mp ha
    obtain ⟨hall, e, he, hcommon⟩ := hpasses.shapes
    refine ⟨d, picked.map (·.2.2), common, admits_of_passes hb hpasses, List.forall_mem_map.mpr hall,
      ⟨e.2.2, List.mem_map_of_mem he, hcommon⟩, fun id => ⟨_, rfl, ?_, ?_⟩⟩
    · rw [← axesOf_dims d, map_front, map_behind]
      exact Shape.dims_of_ofDims? hpasses.shape
    · exact Shape.dynamic_not_mem_tail shape
  · exact fun h => ofTerms_ne (fun id => describe_ne) (advancedIndexing_eq_error.mp h)

/-- Rows of two by three numbers and index arrays for both of their axes; an
axis with more positions than binary64 can tell apart, with an index array that
points at the last but one; and two axes with more positions together than a word
can count. -/
def shelf : Graph :=
  ((((((Graph.empty 0).extend
    fun _ => Node.leaf <$> Variable.rows <$> RowVariable.ofDomain [2, 3] (.ofInt 0) (.ofInt 9) true).extend
      fun _ => Node.leaf <$> Variable.integer <$> IntegerVariable.ofBounds [4] 0 1).extend
        fun _ => .ok (.constant (.scalar (.ofNat 2)))).extend
          fun _ => Node.leaf <$> Variable.integer <$>
            IntegerVariable.ofBounds [9007199254740993] 0 1).extend
              fun _ => .ok (.constant (.ofArray #[.ofNat 9007199254740992]))).extend
                fun _ => Node.leaf <$> Variable.integer <$>
                  IntegerVariable.ofBounds [4294967296, 4294967296] 0 1

theorem built_shelf : shelf.Built := by
  refine .extend_leaf (.extend (.extend_leaf (.extend (.extend_leaf (.extend_leaf (.empty 0) _) _)
    ?_) _) ?_) _
  · intro n hn
    obtain rfl := Except.ok.inj hn
    exact .constant _
  · intro n hn
    obtain rfl := Except.ok.inj hn
    exact .constant _

/-- All rows at four of their six positions, and a row of the array that is too
wide. -/
theorem shelf_admits : shelf.Built ∧
    (∃ node d is, shelf.advancedIndexing 0 [.whole, .indexer 1, .indexer 2] = .ok node ∧
      shelf.Admits Below 0 [.whole, .indexer 1, .indexer 2] d is ∧
      (node.description? 6).map (·.shape) = some (.dynamic [4])) ∧
    shelf.advancedIndexing 5 [.indexer 1, .whole] = .error (.fault .overflow) ∧
      ∃ d is, shelf.Admits Below 5 [.indexer 1, .whole] d is := by
  obtain ⟨node, hnode⟩ := Outcome.exists_ok
    (x := shelf.advancedIndexing 0 [.whole, .indexer 1, .indexer 2]) (by decide +kernel)
  obtain ⟨⟨haccepted, -⟩, -⟩ :=
    advancedIndexing_outcome built_shelf 0 [.whole, .indexer 1, .indexer 2]
  obtain ⟨d, is, h, -⟩ := haccepted ⟨node, hnode⟩
  have hshape : ∀ n ∈ (shelf.advancedIndexing 0 [.whole, .indexer 1, .indexer 2]).toOption,
      (n.description? 6).map (·.shape) = some (.dynamic [4]) := by decide +kernel
  have hstops : shelf.advancedIndexing 5 [.indexer 1, .whole] = .error (.fault .overflow) := by
    decide +kernel
  obtain ⟨-, hfaults, -⟩ := advancedIndexing_outcome built_shelf 5 [.indexer 1, .whole]
  obtain ⟨-, d', is', hwide, -⟩ := (hfaults .overflow).mp hstops
  exact ⟨built_shelf, ⟨node, d, is, hnode, h, hshape node (by rw [hnode]; rfl)⟩, hstops, d', is', hwide⟩

/-- An index below the extent is refused where the extent is rounded down to
it. -/
theorem admits_exact_fails : ¬ ∀ g : Graph, g.Built → ∀ source terms,
    (∃ node, g.advancedIndexing source terms = .ok node) ↔
      ∃ d is, g.Admits BelowExactly source terms d is := by
  intro h
  have hrefused : (shelf.advancedIndexing 3 [.indexer 4]).isOk = false := by decide +kernel
  obtain ⟨node, hnode⟩ := (h shelf built_shelf 3 [.indexer 4]).mpr ⟨
    ⟨.static [9007199254740993], .ofInt 0, .ofInt 1, true,
      ⟨3, 9007199254740993, some 9007199254740993⟩⟩,
    [⟨.static [1], .ofNat 9007199254740992, .ofNat 9007199254740992, true, ⟨4, 1, some 1⟩⟩], {
    source := by decide +kernel
    rank := rfl
    indexers := .cons (by decide +kernel) .nil
    indexed := List.cons_ne_nil _ _
    ranged := .cons (by decide +kernel) .nil
    shapes := by simp
    origins := by simp
    multiDim := by decide
    consecutive := nofun
    flat := nofun
    static := nofun }⟩
  rw [hnode] at hrefused
  cases hrefused

end Graph
end ArrayFlow
