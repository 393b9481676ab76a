import ArrayFlow.Proofs.Binary64
import ArrayFlow.Proofs.Gathered
import ArrayFlow.Proofs.Indexers
import ArrayFlow.Proofs.View
import Mathlib.Tactic.Ring

/-!
# Advanced indexing reads what it promises

Position `p` of the result is a triple of positions in the three blocks
(`Blocks.position_eq`), and reads the source at `offset`: the part that the
whole axes contribute, and the part that the index arrays contribute with the
values `picks`.

* `offset_lt` — if the index arrays keep their bounds, the offset is a
  position of the source, in whatever sizes source and index arrays have;
* `gather_eq` — a result that is read anew holds at each position the offset
  and the source element there (`Gathered.Mirrors`);
* `not_named_of_not_dirty` and `kept_of_not_dirty` — a position that is not
  dirty has kept its offset, and the source its element;
* `refresh_spec` — bringing a result up to date leads to what reading it anew
  would give.
-/

namespace ArrayFlow
namespace Blocks

variable {b : Blocks} {p : Nat}

/-- What has been counted is the number of positions. -/
theorem count_eq_ok {n : Nat} : b.count = .ok n ↔
    RowMajor.size b.pre * b.broadcast < 2 ^ 64 ∧ b.size < 2 ^ 64 ∧ b.size = n := by
  unfold count
  rw [Outcome.bind_eq_ok]
  constructor
  · rintro ⟨front, hfront, h⟩
    obtain ⟨hlt, rfl⟩ := word_eq_ok.mp hfront
    exact ⟨hlt, word_eq_ok.mp h⟩
  · rintro ⟨hlt, h⟩
    exact ⟨_, word_of_lt hlt, word_eq_ok.mpr h⟩

/-- The positions of each block can be counted, and all positions together. -/
structure Counts (b : Blocks) : Prop where
  post : RowMajor.CountsFrom 1 b.post
  pre : RowMajor.CountsFrom 1 b.pre
  front : RowMajor.size b.pre * b.broadcast < 2 ^ 64
  all : b.size < 2 ^ 64

instance (b : Blocks) : Decidable b.Counts :=
  decidable_of_iff (RowMajor.CountsFrom 1 b.post ∧ RowMajor.CountsFrom 1 b.pre ∧
      RowMajor.size b.pre * b.broadcast < 2 ^ 64 ∧ b.size < 2 ^ 64)
    ⟨fun ⟨hpost, hpre, hfront, hall⟩ => ⟨hpost, hpre, hfront, hall⟩,
      fun h => ⟨h.post, h.pre, h.front, h.all⟩⟩

theorem Counts.count_eq (h : b.Counts) : b.count = .ok b.size :=
  count_eq_ok.mpr ⟨h.front, h.all, rfl⟩

/-- A position is a triple of positions in the three blocks. -/
theorem position_eq (h : p < b.size) :
    b.preIndex p < RowMajor.size b.pre ∧ b.broadcastIndex p < b.broadcast ∧
      b.postIndex p < RowMajor.size b.post ∧
      p = (b.preIndex p * b.broadcast + b.broadcastIndex p) * RowMajor.size b.post + b.postIndex p := by
  unfold size at h
  have hpost : 0 < RowMajor.size b.post := by
    rcases Nat.eq_zero_or_pos (RowMajor.size b.post) with h0 | h0
    · rw [h0, Nat.mul_zero] at h
      omega
    · exact h0
  have hfront : p / RowMajor.size b.post < RowMajor.size b.pre * b.broadcast :=
    Nat.div_lt_of_lt_mul (by rw [Nat.mul_comm]; exact h)
  have hbroadcast : 0 < b.broadcast := by
    rcases Nat.eq_zero_or_pos b.broadcast with h0 | h0
    · rw [h0, Nat.mul_zero] at hfront
      exact absurd hfront (Nat.not_lt_zero _)
    · exact h0
  refine ⟨?_, Nat.mod_lt _ hbroadcast, Nat.mod_lt _ hpost, ?_⟩
  · exact Nat.div_lt_of_lt_mul (by rw [Nat.mul_comm]; exact hfront)
  · rw [preIndex, broadcastIndex, postIndex, Nat.div_add_mod', Nat.div_add_mod']

/-- A triple of positions in the three blocks is the one of its position. -/
theorem index_eq {i q k : Nat} (hq : q < b.broadcast) (hk : k < RowMajor.size b.post) :
    b.preIndex ((i * b.broadcast + q) * RowMajor.size b.post + k) = i ∧
      b.broadcastIndex ((i * b.broadcast + q) * RowMajor.size b.post + k) = q ∧
      b.postIndex ((i * b.broadcast + q) * RowMajor.size b.post + k) = k := by
  have hdiv : ∀ x y n : Nat, y < n → (x * n + y) / n = x := by
    intro x y n hy
    rw [Nat.mul_comm, Nat.mul_add_div (by omega), Nat.div_eq_of_lt hy, Nat.add_zero]
  have hmod : ∀ x y n : Nat, y < n → (x * n + y) % n = y := by
    intro x y n hy
    rw [Nat.mul_comm, Nat.mul_add_mod, Nat.mod_eq_of_lt hy]
  refine ⟨?_, ?_, hmod _ _ _ hk⟩
  · rw [preIndex, hdiv _ _ _ hk, hdiv _ _ _ hq]
  · rw [broadcastIndex, hdiv _ _ _ hk, hmod _ _ _ hq]

/-- A position is among those that read its own value of the index arrays. -/
theorem mem_positionsOf (h : p < b.size) : p ∈ b.positionsOf (b.broadcastIndex p) := by
  obtain ⟨hpre, -, hpost, heq⟩ := position_eq h
  refine List.mem_flatMap.mpr ⟨b.preIndex p, List.mem_range.mpr hpre, ?_⟩
  exact List.mem_map.mpr ⟨b.postIndex p, List.mem_range.mpr hpost, heq.symm⟩

end Blocks

/-- Only the extent of the leading axis can depend on a number of rows, and
the coordinates of a position do not depend on it. -/
theorem coordinates_extents {ds : List Dim} (h : ∀ d ∈ ds.tail, d ≠ .dynamic) {r r' k : Nat}
    (hk : k < RowMajor.size (ds.map (Dim.extentOr r)))
    (hk' : k < RowMajor.size (ds.map (Dim.extentOr r'))) :
    RowMajor.coordinates (ds.map (Dim.extentOr r)) k =
      RowMajor.coordinates (ds.map (Dim.extentOr r')) k := by
  cases ds with
  | nil => rfl
  | cons d ds =>
    have htail : ds.map (Dim.extentOr r) = ds.map (Dim.extentOr r') := by
      refine List.map_congr_left fun x hx => ?_
      cases x with
      | fixed n => rfl
      | dynamic => exact absurd rfl (h _ hx)
    rw [List.map_cons] at hk
    rw [List.map_cons, ← htail] at hk'
    rw [List.map_cons, List.map_cons, ← htail]
    rw [RowMajor.coordinates_cons hk, RowMajor.coordinates_cons hk']

/-- Two views agree wherever both have a position that the diff does not
name. -/
def Explains (diff : List (Update Binary64)) (before after : View) : Prop :=
  ∀ k < before.size, k < after.size → (∀ u ∈ diff, u.index ≠ k) → after.cell k = before.cell k

namespace Gathered

/-- Every position below `n` holds the offset that `offset` gives and the
value that `cell` has there. -/
structure Mirrors (g : Gathered) (n : Nat) (offset : Nat → Nat) (cell : Nat → Binary64) : Prop where
  valid : g.Valid
  size : g.size = n
  reading : ∀ q < n, g.reading q = some (offset q, (cell (offset q)).place?)

/-- The values are those of the source, up to the sign of a zero. -/
theorem Mirrors.place?_values {g : Gathered} {n : Nat} {offset : Nat → Nat} {cell : Nat → Binary64}
    (h : g.Mirrors n offset cell) {q : Nat} (hq : q < n) :
    (g.values.values[q]?.getD .nan).place? = (cell (offset q)).place? := by
  obtain ⟨f, hf, hrest⟩ := Option.bind_eq_some_iff.mp (h.reading q hq)
  obtain ⟨x, hx, hpair⟩ := Option.map_eq_some_iff.mp hrest
  obtain ⟨y, hy, rfl⟩ := Option.map_eq_some_iff.mp hx
  rw [hy]
  exact (Prod.mk.inj hpair).2

/-- A position and the offset it holds are linked. -/
theorem Mirrors.mem_readers {g : Gathered} {n : Nat} {offset : Nat → Nat} {cell : Nat → Binary64}
    (h : g.Mirrors n offset cell) {q : Nat} (hq : q < n) : q ∈ g.readers.of (offset q) :=
  h.valid.mem_readers (h.reading q hq)

end Gathered

namespace AdvancedIndexing

variable {a : AdvancedIndexing}

/-- The blocks of the result, whether their positions can be counted or not. -/
def blocksAt (a : AdvancedIndexing) (sourceRows broadcast : Nat) : Blocks :=
  ⟨a.pre.map (·.dim.extentOr sourceRows), broadcast, a.post.map (·.dim.extentOr 0)⟩

theorem blocks_eq_ok {rows n : Nat} {b : Blocks} : a.blocks rows n = .ok b ↔
    (RowMajor.CountsFrom 1 (a.blocksAt rows n).post ∧ RowMajor.CountsFrom 1 (a.blocksAt rows n).pre) ∧
      a.blocksAt rows n = b := by
  constructor
  · intro h
    obtain ⟨_, hpost, h⟩ := Outcome.bind_eq_ok.mp h
    obtain ⟨_, hpre, h⟩ := Outcome.bind_eq_ok.mp h
    exact ⟨⟨(RowMajor.count_eq_ok.mp hpost).1, (RowMajor.count_eq_ok.mp hpre).1⟩, Except.ok.inj h⟩
  · rintro ⟨⟨hpost, hpre⟩, rfl⟩
    exact Outcome.bind_eq_ok.mpr ⟨_, RowMajor.count_eq_ok.mpr ⟨hpost, rfl⟩,
      Outcome.bind_eq_ok.mpr ⟨_, RowMajor.count_eq_ok.mpr ⟨hpre, rfl⟩, rfl⟩⟩

/-- The part of an offset that the whole axes contribute. -/
def wholeOffset (a : AdvancedIndexing) (b : Blocks) (p : Nat) : Nat :=
  RowMajor.flatten (RowMajor.coordinates b.pre (b.preIndex p)) (a.pre.map (a.stride ·.number)) +
    RowMajor.flatten (RowMajor.coordinates b.post (b.postIndex p)) (a.post.map (a.stride ·.number))

/-- The positions that the index arrays, read through their views, give at
position `q` of their common shape. -/
def picks (a : AdvancedIndexing) (view : NodeId → View) (q : Nat) : List Nat :=
  a.indexers.map fun ix => ((view ix.node).cell (if ix.scalar then 0 else q)).toNat

/-- The source position that position `p` of the result reads. -/
def offset (a : AdvancedIndexing) (b : Blocks) (view : NodeId → View) (p : Nat) : Nat :=
  a.wholeOffset b p +
    RowMajor.flatten (a.picks view (b.broadcastIndex p)) (a.indexers.map (a.stride ·.axis))

/-- The offset depends on the index arrays only where it reads them. -/
theorem offset_congr {b : Blocks} {view view' : NodeId → View} {p : Nat}
    (h : ∀ ix ∈ a.indexers,
      ((view ix.node).cell (if ix.scalar then 0 else b.broadcastIndex p)).place? =
        ((view' ix.node).cell (if ix.scalar then 0 else b.broadcastIndex p)).place?) :
    a.offset b view p = a.offset b view' p := by
  have hpicks : a.picks view (b.broadcastIndex p) = a.picks view' (b.broadcastIndex p) :=
    List.map_congr_left fun ix hix => Binary64.toNat_congr (h ix hix)
  rw [offset, hpicks, offset]

/-- Every index array can be read wherever a position below `n` reads it. -/
def CanRead (a : AdvancedIndexing) (view : NodeId → View) (n : Nat) : Prop :=
  ∀ ix ∈ a.indexers, (view ix.node).Readable ∧
    ∀ q < n, (if ix.scalar then 0 else q) < (view ix.node).size

/-- As long as the sum is a word, so are its parts. -/
theorem addIndexed_eq {view : NodeId → View} {q sum : Nat} {indexers : List Indexer}
    (h : ∀ ix ∈ indexers, (view ix.node).Readable ∧
      (if ix.scalar then 0 else q) < (view ix.node).size)
    (hlt : sum + RowMajor.flatten
        (indexers.map fun ix => ((view ix.node).cell (if ix.scalar then 0 else q)).toNat)
        (indexers.map (a.stride ·.axis)) < 2 ^ 64) :
    a.addIndexed q sum (indexers.zip (indexers.map (view ·.node))) =
      .ok (sum + RowMajor.flatten
        (indexers.map fun ix => ((view ix.node).cell (if ix.scalar then 0 else q)).toNat)
        (indexers.map (a.stride ·.axis))) := by
  induction indexers generalizing sum with
  | nil => rfl
  | cons ix indexers ih =>
    obtain ⟨⟨hread, hcell⟩, hrest⟩ := List.forall_mem_cons.mp h
    simp only [List.map_cons, RowMajor.flatten_cons] at hlt ⊢
    rw [← Nat.add_assoc] at hlt ⊢
    rw [List.zip_cons_cons, addIndexed, View.get_eq hread hcell, Outcome.ok_bind,
      word_of_lt (by omega), Outcome.ok_bind, word_of_lt (by omega), Outcome.ok_bind, ih hrest hlt]

variable {b : Blocks} {view : NodeId → View} {p : Nat}

theorem sourceIndex_eq (h : a.CanRead view b.broadcast) (hp : p < b.size)
    (hlt : a.offset b view p < 2 ^ 64) :
    a.sourceIndex b (a.indexers.map (view ·.node)) p = .ok (a.offset b view p) := by
  have hq := (Blocks.position_eq hp).2.1
  have hwhole : a.wholeOffset b p < 2 ^ 64 := Nat.lt_of_le_of_lt (Nat.le_add_right _ _) hlt
  unfold wholeOffset at hwhole
  rw [sourceIndex, if_neg (Nat.ne_zero_of_lt hp), word_of_lt hwhole, Outcome.ok_bind]
  exact addIndexed_eq (fun ix hix => ⟨(h ix hix).1, (h ix hix).2 _ hq⟩) hlt

theorem entry_eq {source : View} (h : a.CanRead view b.broadcast) (hs : source.Readable)
    (hp : p < b.size) (hf : a.offset b view p < source.size) :
    a.entry b (a.indexers.map (view ·.node)) source p =
      .ok (a.offset b view p, source.cell (a.offset b view p)) := by
  have hlt : a.offset b view p < 2 ^ 64 :=
    Nat.lt_of_lt_of_le hf (Nat.le_trans hs.size_le (by decide))
  unfold entry
  rw [sourceIndex_eq h hp hlt]
  show (do return (a.offset b view p, ← source.get (a.offset b view p))) = _
  rw [View.get_eq hs hf]
  rfl

section Promises

variable {describe : NodeId → Except Refusal Description} {picked : List Picked}

/-- The values of the index arrays are positions of their axes. -/
def Picks (picked : List Picked) (rows : Nat) (xs : List Nat) : Prop :=
  RowMajor.Within xs (picked.map (axisExtent rows ·.1))

/-- The stride of an axis is its weight in the source. -/
theorem stride_eq (h : a.Fits describe picked) (x : SourceAxis) :
    a.stride x.number = axisWeight a.sourceDescription.shape x :=
  congrArg (List.getD · x.number 0) h.strides

theorem strides_indexers (h : a.Fits describe picked) :
    a.indexers.map (a.stride ·.axis) =
      picked.map (axisWeight a.sourceDescription.shape ·.1) := by
  rw [h.indexers, List.map_map]
  exact List.map_congr_left fun e _ => stride_eq h e.1

/-- **Offsets stay in the source.**  With index values on their axes, the
position that is read exists in a source with `rows` rows. -/
theorem offset_lt (h : a.Fits describe picked) {rows n : Nat} {view : NodeId → View} {p : Nat}
    (hp : p < (a.blocksAt rows n).size)
    (hpicks : Picks picked rows (a.picks view ((a.blocksAt rows n).broadcastIndex p))) :
    a.offset (a.blocksAt rows n) view p < a.sourceDescription.shape.sizeWith rows := by
  obtain ⟨hpre, -, hpost, -⟩ := Blocks.position_eq hp
  have hpostExtents : (a.blocksAt rows n).post = a.post.map (axisExtent rows) := by
    refine List.map_congr_left fun x hx => ?_
    have := h.post_fixed x hx
    cases hd : x.dim with
    | fixed m => simp [axisExtent, hd, Dim.extentOr]
    | dynamic => exact absurd hd this
  have hwhole : RowMajor.Within
      (RowMajor.coordinates (a.blocksAt rows n).pre ((a.blocksAt rows n).preIndex p) ++
        RowMajor.coordinates (a.blocksAt rows n).post ((a.blocksAt rows n).postIndex p))
      ((a.pre ++ a.post).map (axisExtent rows)) := by
    rw [List.map_append, ← hpostExtents]
    exact List.rel_append (RowMajor.within_coordinates hpre) (RowMajor.within_coordinates hpost)
  obtain ⟨cs, hcs, hsum⟩ := h.merge rows _ _ hwhole hpicks
  have hsplit : RowMajor.flatten
      (RowMajor.coordinates (a.blocksAt rows n).pre ((a.blocksAt rows n).preIndex p) ++
        RowMajor.coordinates (a.blocksAt rows n).post ((a.blocksAt rows n).postIndex p))
      ((a.pre ++ a.post).map (axisWeight a.sourceDescription.shape)) =
        a.wholeOffset (a.blocksAt rows n) p := by
    rw [List.map_append, RowMajor.flatten_append, wholeOffset]
    · simp only [stride_eq h]
    · simp [blocksAt]
  have hoffset : a.offset (a.blocksAt rows n) view p =
      RowMajor.flatten cs a.sourceDescription.shape.weights := by
    rw [hsum, hsplit, offset, strides_indexers h]
  rw [hoffset, ← Shape.weights_withRows _ rows]
  exact RowMajor.flatten_lt hcs

/-- Values between the declared bounds of an index array are positions of its
axis in any state in which the source has its least number of rows. -/
theorem picks_spec (h : a.Fits describe picked) {rows : Nat} {view : NodeId → View} {q : Nat}
    (hrows : a.sourceDescription.shape.isDynamic = true → a.sourceDescription.rows.minRows ≤ rows)
    (hcells : ∀ e ∈ picked, e.2.2.integral = true → e.2.2.min ≤
        (view e.2.1).cell (if e.2.2.shape.rank == 0 then 0 else q) ∧
      (view e.2.1).cell (if e.2.2.shape.rank == 0 then 0 else q) ≤ e.2.2.max) :
    Picks picked rows (a.picks view q) := by
  unfold Picks picks
  rw [h.indexers, List.map_map, RowMajor.Within, List.forall₂_map_left_iff,
    List.forall₂_map_right_iff, List.forall₂_same]
  intro e he
  obtain ⟨hintegral, hrange⟩ := checkIndexer_eq_ok.mp (h.checked e he)
  obtain ⟨hlo, hhi⟩ := hcells e he hintegral
  have hmin := (Binary64.ne_nan_of_le hlo).1
  have hzero := Binary64.le_trans (Binary64.le_of_not_lt Binary64.zero_ne_nan hmin hrange.1) hlo
  have hlt := Binary64.toNat_lt_of_le hzero hhi hrange.2
  refine Nat.lt_of_lt_of_le hlt ?_
  show e.1.dim.extentOr _ ≤ e.1.dim.extentOr rows
  cases hd : e.1.dim with
  | fixed n => exact Nat.le_refl _
  | dynamic => exact hrows (Shape.isDynamic_iff.mpr (hd ▸ h.picked_dims e he))

/-- The part of the whole axes does not depend on the sizes of source and
index arrays, and neither does the position in the index arrays. -/
theorem wholeOffset_eq (h : a.Fits describe picked) {r r' n n' p : Nat}
    (hn : a.pre ≠ [] → n = n') (hp : p < (a.blocksAt r n).size) (hp' : p < (a.blocksAt r' n').size) :
    a.wholeOffset (a.blocksAt r n) p = a.wholeOffset (a.blocksAt r' n') p ∧
      (a.blocksAt r n).broadcastIndex p = (a.blocksAt r' n').broadcastIndex p := by
  obtain ⟨hpre, hq, -, -⟩ := Blocks.position_eq hp
  obtain ⟨hpre', hq', -, -⟩ := Blocks.position_eq hp'
  have hpost : (a.blocksAt r n).post = (a.blocksAt r' n').post := rfl
  rcases List.eq_nil_or_concat a.pre with hnil | ⟨init, last, hcons⟩
  · have hempty : (a.blocksAt r n).pre = [] := by simp [blocksAt, hnil]
    have hempty' : (a.blocksAt r' n').pre = [] := by simp [blocksAt, hnil]
    refine ⟨by unfold wholeOffset; rw [hempty, hempty', hnil]; rfl, ?_⟩
    -- without whole axes in front there is only one block
    have hone : (a.blocksAt r n).preIndex p = 0 := by
      rw [hempty] at hpre; exact Nat.lt_one_iff.mp hpre
    have hone' : (a.blocksAt r' n').preIndex p = 0 := by
      rw [hempty'] at hpre'; exact Nat.lt_one_iff.mp hpre'
    have hlt : p / RowMajor.size (a.blocksAt r n).post < n := by
      rcases Nat.div_eq_zero_iff.mp hone with h0 | hlt
      · exact absurd hq (by rw [h0]; omega)
      · exact hlt
    have hlt' : p / RowMajor.size (a.blocksAt r' n').post < n' := by
      rcases Nat.div_eq_zero_iff.mp hone' with h0 | hlt
      · exact absurd hq' (by rw [h0]; omega)
      · exact hlt
    unfold Blocks.broadcastIndex
    rw [hpost]
    exact (Nat.mod_eq_of_lt hlt).trans (Nat.mod_eq_of_lt hlt').symm
  · obtain rfl : n = n' := hn (by rw [hcons]; simp)
    refine ⟨?_, rfl⟩
    have hfixed : ∀ d ∈ (a.pre.map (·.dim)).tail, d ≠ .dynamic := by
      intro d hd
      rw [← List.map_tail] at hd
      obtain ⟨x, hx, rfl⟩ := List.mem_map.mp hd
      exact h.pre_fixed x hx
    have hdims : ∀ m, (a.blocksAt m n).pre = (a.pre.map (·.dim)).map (Dim.extentOr m) := by
      intro m
      rw [List.map_map]
      rfl
    have hindex : (a.blocksAt r' n).preIndex p = (a.blocksAt r n).preIndex p := rfl
    unfold wholeOffset
    rw [hindex, hdims, hdims, coordinates_extents hfixed (hdims r ▸ hpre)
      (hdims r' ▸ hindex ▸ hpre')]
    rfl

/-- The extents of fixed axes do not depend on a number of rows. -/
theorem extents_fixed {axes : List SourceAxis} (h : ∀ x ∈ axes, x.dim ≠ .dynamic) (r r' : Nat) :
    axes.map (axisExtent r) = axes.map (axisExtent r') := by
  refine List.map_congr_left fun x hx => ?_
  cases hd : x.dim with
  | fixed n => simp only [axisExtent, hd, Dim.extentOr]
  | dynamic => exact absurd hd (h x hx)

/-- The extents of the result are those of the blocks. -/
theorem withRows_shape (h : a.Fits describe picked) (rows : Nat) :
    a.shape.withRows rows = a.pre.map (axisExtent rows) ++ a.broadcast.withRows rows ++
      a.post.map (axisExtent rows) := by
  rw [Shape.withRows_eq_map, h.dims, List.map_append, List.map_append, List.map_map,
    List.map_map, Shape.withRows_eq_map]
  rfl

/-- Extents depend on a number of rows only where an axis is dynamic. -/
theorem extents_congr {axes : List SourceAxis} {r r' : Nat}
    (h : (∃ x ∈ axes, x.dim = .dynamic) → r = r') :
    axes.map (axisExtent r) = axes.map (axisExtent r') := by
  by_cases hdyn : ∃ x ∈ axes, x.dim = .dynamic
  · rw [h hdyn]
  · exact extents_fixed (fun x hx hd => hdyn ⟨x, hx, hd⟩) r r'

/-- The blocks together have the size of the result. -/
theorem size_blocks (h : a.Fits describe picked) {r rows : Nat}
    (hr : (∃ x ∈ a.pre, x.dim = .dynamic) → r = rows) :
    (a.blocksAt r (a.broadcast.sizeWith rows)).size = a.shape.sizeWith rows := by
  have hpre : a.pre.map (axisExtent r) = a.pre.map (axisExtent rows) := extents_congr hr
  have hpost : a.post.map (axisExtent 0) = a.post.map (axisExtent rows) :=
    extents_fixed h.post_fixed 0 rows
  show RowMajor.size (a.pre.map (axisExtent r)) * a.broadcast.sizeWith rows *
    RowMajor.size (a.post.map (axisExtent 0)) = _
  rw [hpre, hpost, Shape.sizeWith, Shape.sizeWith, withRows_shape h, RowMajor.size_append,
    RowMajor.size_append]

/-- Blocks that can be counted with some rows can be counted without any. -/
theorem counts_without_rows {r n m : Nat} (h : (a.blocksAt r n).Counts) (hm : m ≤ n) :
    (a.blocksAt 0 m).Counts := by
  have hle : List.Forall₂ (· ≤ ·) (a.blocksAt 0 m).pre (a.blocksAt r n).pre := by
    refine List.forall₂_map_left_iff.mpr (List.forall₂_map_right_iff.mpr
      (List.forall₂_same.mpr fun x _ => ?_))
    cases x.dim with
    | fixed k => exact Nat.le_refl k
    | dynamic => exact Nat.zero_le r
  have hfront := Nat.mul_le_mul (RowMajor.size_le_size hle) hm
  exact {
    post := h.post
    pre := h.pre.of_le hle (Nat.le_refl 1)
    front := Nat.lt_of_le_of_lt hfront h.front
    all := Nat.lt_of_le_of_lt (Nat.mul_le_mul_right _ hfront) h.all }

/-- A source with elements that are in room has no more positions along the axes in
front than a word counts, and elements behind each of them. -/
theorem size_axes (h : a.Fits describe picked) {r : Nat}
    (hz : a.sourceDescription.shape.sizeWith r ≠ 0)
    (hle : a.sourceDescription.shape.sizeWith r < 2 ^ 64) :
    RowMajor.size (a.pre.map (axisExtent r)) < 2 ^ 64 ∧
      RowMajor.size (a.pre.map (axisExtent r)) ≠ 0 ∧
        RowMajor.size (a.post.map (axisExtent 0)) ≠ 0 := by
  have hsize := h.size_source r
  have hpost : a.post.map (axisExtent r) = a.post.map (axisExtent 0) :=
    extents_fixed h.post_fixed r 0
  rw [List.map_append, RowMajor.size_append, hpost, Nat.mul_assoc] at hsize
  rw [hsize] at hz hle
  obtain ⟨hpre, hrest⟩ := Nat.mul_ne_zero_iff.mp hz
  exact ⟨Nat.lt_of_le_of_lt (Nat.le_mul_of_pos_right _ (Nat.pos_of_ne_zero hrest)) hle, hpre,
    (Nat.mul_ne_zero_iff.mp hrest).1⟩

/-- Blocks that can be counted without rows can be counted with as many as there
is room for. -/
theorem counts_with_rows (h : a.Fits describe picked)
    (h0 : (a.blocksAt 0 (a.broadcast.sizeWith 0)).Counts) {r rows : Nat}
    (hsource : (∃ x ∈ a.pre, x.dim = .dynamic) →
      a.sourceDescription.shape.sizeWith r ≤ maxElements ∧
        (a.sourceDescription.shape.sizeWith r = 0 → r = 0))
    (hbroadcast : a.broadcast.isDynamic = true → a.broadcast.sizeWith rows ≤ maxElements)
    (hroom : (a.blocksAt r (a.broadcast.sizeWith rows)).size ≤ maxElements) :
    (a.blocksAt r (a.broadcast.sizeWith rows)).Counts := by
  have hmax : maxElements < 2 ^ 64 := by decide
  have hall := Nat.lt_of_le_of_lt hroom hmax
  cases hdyn : a.broadcast.isDynamic with
  | true =>
    -- nothing stands before index arrays that grow
    have hnil : a.pre = [] := by
      by_contra hne
      rw [h.static hne] at hdyn
      cases hdyn
    have hpre : (a.blocksAt r (a.broadcast.sizeWith rows)).pre = [] := by
      rw [blocksAt, hnil]
      rfl
    refine ⟨h0.post, ?_, ?_, hall⟩
    · rw [hpre]
      trivial
    · rw [hpre, RowMajor.size, Nat.one_mul]
      exact Nat.lt_of_le_of_lt (hbroadcast hdyn) hmax
  | false =>
    have hn : a.broadcast.sizeWith rows = a.broadcast.sizeWith 0 :=
      Shape.sizeWith_congr fun hd => absurd hd (by rw [hdyn]; exact Bool.false_ne_true)
    by_cases hpre : ∃ x ∈ a.pre, x.dim = .dynamic
    · obtain ⟨hle, hzero⟩ := hsource hpre
      by_cases hr : r = 0
      · rw [hn, hr]
        exact h0
      · obtain ⟨hpreLt, hpreSize, hpostSize⟩ :=
          size_axes h (fun hz => hr (hzero hz)) (Nat.lt_of_le_of_lt hle hmax)
        refine ⟨h0.post, RowMajor.countsFrom_of_size hpreSize ?_, ?_, hall⟩
        · rwa [Nat.one_mul]
        · exact Nat.lt_of_le_of_lt (Nat.le_mul_of_pos_right _ (Nat.pos_of_ne_zero hpostSize)) hall
    · have hfixed : ∀ x ∈ a.pre, x.dim ≠ .dynamic := fun x hx hdim => hpre ⟨x, hx, hdim⟩
      have heq : a.blocksAt r (a.broadcast.sizeWith rows) =
          a.blocksAt 0 (a.broadcast.sizeWith 0) := by
        rw [hn]
        exact congrArg (Blocks.mk · _ _) (extents_fixed hfixed r 0)
      rw [heq]
      exact h0

/-- A source whose rows have no elements leaves nothing to read: the index
arrays cannot select along an axis without positions. -/
theorem size_blocks_eq_zero (h : a.Fits describe picked)
    (hbounds : ∀ e ∈ picked, e.2.2.integral = true → e.2.2.min ≤ e.2.2.max)
    (hz : a.sourceDescription.shape.sizeWith 1 = 0) (r n : Nat) : (a.blocksAt r n).size = 0 := by
  have hpicked : RowMajor.size (picked.map (axisExtent 1 ·.1)) ≠ 0 := by
    refine RowMajor.size_ne_zero.mpr fun m hm => ?_
    obtain ⟨e, he, rfl⟩ := List.mem_map.mp hm
    obtain ⟨hintegral, hrange⟩ := checkIndexer_eq_ok.mp (h.checked e he)
    have hle := hbounds e he hintegral
    have hmin := (Binary64.ne_nan_of_le hle).1
    have hzero := Binary64.le_of_not_lt Binary64.zero_ne_nan hmin hrange.1
    have hlt := Binary64.toNat_lt_of_le hzero hle hrange.2
    cases hd : e.1.dim with
    | fixed n =>
      rw [hd] at hlt
      simp only [axisExtent, hd, Dim.extentOr] at hlt ⊢
      omega
    | dynamic => simp only [axisExtent, hd, Dim.extentOr]; omega
  rw [h.size_source, Nat.mul_eq_zero] at hz
  have hwhole := hz.resolve_right hpicked
  rw [List.map_append, RowMajor.size_append, Nat.mul_eq_zero] at hwhole
  have hkeep : ∀ (axes : List SourceAxis) (m : Nat), RowMajor.size (axes.map (axisExtent 1)) = 0 →
      RowMajor.size (axes.map (axisExtent m)) = 0 := by
    intro axes m h0
    by_contra hne
    refine absurd h0 (RowMajor.size_ne_zero.mpr fun e he => ?_)
    obtain ⟨x, hx, rfl⟩ := List.mem_map.mp he
    have := RowMajor.size_ne_zero.mp hne _ (List.mem_map_of_mem hx)
    cases hd : x.dim with
    | fixed n => simpa only [axisExtent, hd, Dim.extentOr] using this
    | dynamic => simp only [axisExtent, hd, Dim.extentOr]; omega
  show RowMajor.size (a.pre.map (axisExtent r)) * n * RowMajor.size (a.post.map (axisExtent 0)) = 0
  rcases hwhole with hpre | hpost
  · rw [hkeep _ r hpre, Nat.zero_mul, Nat.zero_mul]
  · rw [hkeep _ 0 hpost, Nat.mul_zero]

end Promises

/-! ### Reading anew -/

/-- **Reading anew.**  The result holds every offset and the source element
there, if its positions can be counted and there is room for it. -/
theorem gather_eq {source : View} (hcount : b.count = .ok b.size) (hroom : b.size ≤ maxElements)
    (h : a.CanRead view b.broadcast) (hs : source.Readable)
    (hf : ∀ p < b.size, a.offset b view p < source.size) :
    ∃ g, a.gather b (a.indexers.map (view ·.node)) source = .ok g ∧
      g.Mirrors b.size (a.offset b view) source.cell ∧ g.Clean := by
  have hentries : (List.range b.size).mapM (a.entry b (a.indexers.map (view ·.node)) source) =
      .ok ((List.range b.size).map fun p => (a.offset b view p, source.cell (a.offset b view p))) := by
    rw [Outcome.mapM_eq_ok, List.map_map]
    refine List.map_congr_left fun p hp => ?_
    have hlt := List.mem_range.mp hp
    exact entry_eq h hs hlt (hf p hlt)
  refine ⟨_, Outcome.bind_eq_ok.mpr ⟨_, hcount, Outcome.bind_eq_ok.mpr
    ⟨(), Outcome.check_eq_ok.mpr hroom, Outcome.map_eq_ok.mpr ⟨_, hentries, rfl⟩⟩⟩, ⟨Gathered.valid_ofEntries _, ?_, ?_⟩,
    Gathered.clean_ofEntries _⟩
  · rw [Gathered.size_ofEntries, List.length_map, List.length_range]
  · intro q hq
    rw [Gathered.reading_ofEntries, List.getElem?_map, List.getElem?_range hq]
    rfl

/-! ### Bringing up to date -/

section Refresh

variable {g : Gathered} {entry : Nat → Except Fault (Nat × Binary64)} {off : Nat → Nat}
  {cell : Nat → Binary64} {n : Nat}

theorem popMany_spec (hg : g.Valid) (n : Nat) :
    (Nat.repeat Gathered.pop n g).Valid ∧ (Nat.repeat Gathered.pop n g).size = g.size - n ∧
      g.Extends (Nat.repeat Gathered.pop n g) ∧
      (∀ q < g.size - n, (Nat.repeat Gathered.pop n g).reading q = g.reading q) ∧
      ∀ P, g.values.Logs P → (∀ k < g.size, P k) → (Nat.repeat Gathered.pop n g).values.Logs P := by
  induction n with
  | zero => exact ⟨hg, rfl, .refl g, fun _ _ => rfl, fun _ hP _ => hP⟩
  | succ n ih =>
    obtain ⟨hv, hsize, hext, hread, hlogs⟩ := ih
    refine ⟨hv.pop, ?_, hext.trans (.pop _), fun q hq => ?_, fun P hP hk => ?_⟩
    · rw [Nat.repeat, Gathered.size_pop, hsize]
      omega
    · rw [Nat.repeat, hv.reading_pop, if_pos (by omega), hread q (by omega)]
    · refine (hlogs P hP hk).pop fun k hk' => hk k ?_
      have : (Nat.repeat Gathered.pop n g).values.size = g.size - n := hsize
      omega

/-- Reading some positions again. -/
theorem updateAll_spec {ps : List Nat} (hg : g.Valid) (hps : ∀ p ∈ ps, p < g.size)
    (hentry : ∀ p ∈ ps, entry p = .ok (off p, cell (off p))) :
    ∃ g', ps.foldlM (fun g p => do
        let (f, x) ← entry p
        g.store p f x) g = .ok g' ∧
      g'.Valid ∧ g'.size = g.size ∧ g.Extends g' ∧
      (∀ q, g'.reading q =
        if q ∈ ps then some (off q, (cell (off q)).place?) else g.reading q) ∧
      ∀ P, g.values.Logs P → (∀ k < g.size, P k) → g'.values.Logs P := by
  induction ps generalizing g with
  | nil => exact ⟨g, rfl, hg, rfl, .refl g, fun q => by simp, fun _ hP _ => hP⟩
  | cons p ps ih =>
    obtain ⟨hp, hps⟩ := List.forall_mem_cons.mp hps
    obtain ⟨hep, hentry⟩ := List.forall_mem_cons.mp hentry
    have hsize := Gathered.size_update g p (off p) (cell (off p))
    obtain ⟨g', hrun, hv, hs, hext, hread, hlogs⟩ :=
      ih (hg.update p (off p) (cell (off p))) (by rw [hsize]; exact hps) hentry
    refine ⟨g', ?_, hv, hs.trans hsize, (Gathered.Extends.update g p _ _).trans hext, ?_, ?_⟩
    · rw [List.foldlM_cons, hep]
      exact Outcome.bind_eq_ok.mpr ⟨_, Gathered.store_eq_ok.mpr ⟨hp, rfl⟩, hrun⟩
    · intro q
      rw [hread, hg.reading_update hp]
      by_cases hqs : q ∈ ps
      · rw [if_pos hqs, if_pos (List.mem_cons_of_mem _ hqs)]
      · by_cases hqp : q = p
        · rw [if_neg hqs, if_pos hqp, if_pos (hqp ▸ List.mem_cons_self), hqp]
        · rw [if_neg hqs, if_neg hqp, if_neg (by simp [hqs, hqp])]
    · intro P hP hk
      refine hlogs P ?_ (by rw [hsize]; exact hk)
      rw [Gathered.values_update]
      exact hP.set hk _ _

/-- Appending what is missing. -/
theorem placeAll_spec {count : Nat} (hg : g.Valid)
    (hentry : ∀ p, g.size ≤ p → p < g.size + count → entry p = .ok (off p, cell (off p))) :
    ∃ g', (List.range' g.size count).foldlM (fun g p => do
        let (f, x) ← entry p
        return g.place f x) g = .ok g' ∧
      g'.Valid ∧ g'.size = g.size + count ∧ g.Extends g' ∧
      (∀ q < g.size, g'.reading q = g.reading q) ∧
      (∀ q, g.size ≤ q → q < g.size + count →
        g'.reading q = some (off q, (cell (off q)).place?)) ∧
      ∀ P, g.values.Logs P → (∀ k < g.size + count, P k) → g'.values.Logs P := by
  induction count generalizing g with
  | zero =>
    exact ⟨g, rfl, hg, rfl, .refl g, fun _ _ => rfl, fun q _ _ => by omega, fun _ hP _ => hP⟩
  | succ count ih =>
    have hsize := Gathered.size_place g (off g.size) (cell (off g.size))
    have hfirst := hentry g.size (Nat.le_refl _) (by omega)
    obtain ⟨g', hrun, hv, hs, hext, hread, hnew, hlogs⟩ :=
      ih (hg.place (off g.size) (cell (off g.size))) (by
        intro p hlo hhi
        rw [hsize] at hlo hhi
        exact hentry p (by omega) (by omega))
    rw [hsize] at hrun hs hread hnew hlogs
    refine ⟨g', ?_, hv, by omega, (Gathered.Extends.place g _ _).trans hext, ?_, ?_, ?_⟩
    · rw [List.range'_succ, List.foldlM_cons, hfirst]
      exact hrun
    · intro q hq
      rw [hread q (by omega), hg.reading_place, if_neg (by omega)]
    · intro q hlo hhi
      by_cases hq : q = g.size
      · rw [hread q (by omega), hg.reading_place, if_pos hq, hq]
      · exact hnew q (by omega) (by omega)
    · intro P hP hk
      refine hlogs P (hP.push (hk _ ?_) _) fun k hk' => hk k (by omega)
      show g.size < _
      omega

end Refresh

theorem lt_of_mem_dirtyPositions {indexerDiffs : List (List (Update Binary64))}
    {sourceDiff : List (Update Binary64)} {readers : Readers} {limit : Nat}
    (hp : p ∈ a.dirtyPositions b indexerDiffs sourceDiff readers limit) : p < limit := by
  unfold dirtyPositions at hp
  simp only at hp
  split at hp
  · exact List.mem_range.mp hp
  · rw [Ascending.mem_sorted, List.mem_filter] at hp
    exact of_decide_eq_true hp.2

/-- **Nothing is missed.**  What a position that is not dirty reads is named
by no pending record, neither in an index array nor in the source. -/
theorem not_named_of_not_dirty {diff : NodeId → List (Update Binary64)}
    {sourceDiff : List (Update Binary64)} {readers : Readers} {limit : Nat} (hb : p < b.size)
    (hlimit : p < limit)
    (hp : p ∉ a.dirtyPositions b (a.indexers.map (diff ·.node)) sourceDiff readers limit) :
    (∀ ix ∈ a.indexers, ∀ u ∈ diff ix.node,
        u.index ≠ if ix.scalar then 0 else b.broadcastIndex p) ∧
      ∀ u ∈ sourceDiff, p ∉ readers.of u.index := by
  have hzip : a.indexers.zip (a.indexers.map (diff ·.node)) =
      a.indexers.map fun ix => (ix, diff ix.node) := by
    conv_lhs => rw [← List.map_id a.indexers, List.map_map]
    exact List.zip_map'
  unfold dirtyPositions at hp
  simp only [hzip] at hp
  split at hp
  · exact absurd (List.mem_range.mpr hlimit) hp
  · next hscalar =>
    rw [Ascending.mem_sorted, List.mem_filter, List.mem_append, not_and] at hp
    have hp : ¬ (_ ∨ _) := fun hmem => hp hmem (decide_eq_true hlimit)
    rw [not_or] at hp
    constructor
    · intro ix hix u hu
      by_cases hsc : ix.scalar = true
      · refine absurd ?_ hscalar
        refine List.any_eq_true.mpr ⟨_, List.mem_map.mpr ⟨ix, hix, rfl⟩, ?_⟩
        rw [hsc, Bool.true_and, Bool.not_eq_true', List.isEmpty_eq_false_iff]
        exact List.ne_nil_of_mem hu
      · intro hname
        rw [if_neg hsc] at hname
        refine hp.1 (List.mem_flatMap.mpr ⟨_, List.mem_map.mpr ⟨ix, hix, rfl⟩, ?_⟩)
        refine List.mem_flatMap.mpr ⟨u, List.mem_filter.mpr ⟨hu, ?_⟩, ?_⟩
        · rw [hname]
          exact decide_eq_true (Blocks.position_eq hb).2.1
        · rw [hname]
          exact Blocks.mem_positionsOf hb
    · intro u hu hmem
      exact hp.2 (List.mem_flatMap.mpr ⟨u, hu, hmem⟩)

/-- A position that is not dirty has kept its offset, and no record names
it. -/
theorem kept_of_not_dirty {describe : NodeId → Except Refusal Description} {picked : List Picked}
    (h : a.Fits describe picked) {r r' n n' : Nat} (hn : a.pre ≠ [] → n = n')
    {before after : NodeId → View} {diff : NodeId → List (Update Binary64)}
    {sourceDiff : List (Update Binary64)} {readers : Readers} {limit : Nat}
    (hbefore : a.CanRead before n) (hafter : a.CanRead after n')
    (hdiff : ∀ ix ∈ a.indexers, Explains (diff ix.node) (before ix.node) (after ix.node))
    (hp : p < (a.blocksAt r n).size) (hp' : p < (a.blocksAt r' n').size) (hlimit : p < limit)
    (hreads : p ∈ readers.of (a.offset (a.blocksAt r n) before p))
    (hclean : p ∉ a.dirtyPositions (a.blocksAt r' n') (a.indexers.map (diff ·.node)) sourceDiff
      readers limit) :
    a.offset (a.blocksAt r' n') after p = a.offset (a.blocksAt r n) before p ∧
      ∀ u ∈ sourceDiff, u.index ≠ a.offset (a.blocksAt r n) before p := by
  obtain ⟨hindexed, hsource⟩ := not_named_of_not_dirty hp' hlimit hclean
  obtain ⟨hwhole, hindex⟩ := wholeOffset_eq h hn hp hp'
  have hq := (Blocks.position_eq hp).2.1
  have hq' := (Blocks.position_eq hp').2.1
  refine ⟨?_, ?_⟩
  · unfold offset
    rw [← hwhole, ← hindex]
    congr 2
    refine List.map_congr_left fun ix hix => ?_
    have hlt := (hafter ix hix).2 _ hq'
    rw [← hindex] at hlt
    refine congrArg Binary64.toNat (hdiff ix hix _ ((hbefore ix hix).2 _ hq) hlt ?_)
    rw [hindex]
    exact hindexed ix hix
  · intro u hu hname
    exact hsource u hu (hname ▸ hreads)

/-- **Bringing up to date is reading anew**, if the positions that are not
dirty have kept their offsets and the source its elements there. -/
theorem refresh_spec {g : Gathered} {n : Nat} {off : Nat → Nat} {cell : Nat → Binary64}
    {source : View} {indexerDiffs : List (List (Update Binary64))}
    {sourceDiff : List (Update Binary64)} (hcount : b.count = .ok b.size)
    (hg : g.Mirrors n off cell) (h : a.CanRead view b.broadcast) (hs : source.Readable)
    (hf : ∀ p < b.size, a.offset b view p < source.size)
    (hkept : ∀ p < min n b.size,
      p ∉ a.dirtyPositions b indexerDiffs sourceDiff g.readers (min n b.size) →
      a.offset b view p = off p ∧ (source.cell (off p)).place? = (cell (off p)).place?) :
    ∃ g', a.refresh b (a.indexers.map (view ·.node)) source indexerDiffs sourceDiff g = .ok g' ∧
      g'.Mirrors b.size (a.offset b view) source.cell ∧ g.Extends g' ∧
      ∀ P, g.values.Logs P → (∀ k < n, P k) → (∀ k < b.size, P k) → g'.values.Logs P := by
  have hentry : ∀ p < b.size, a.entry b (a.indexers.map (view ·.node)) source p =
      .ok (a.offset b view p, source.cell (a.offset b view p)) :=
    fun p hp => entry_eq h hs hp (hf p hp)
  obtain ⟨hv1, hs1, hext1, hread1, hlogs1⟩ := popMany_spec hg.valid (g.size - b.size)
  have hmin : g.size - (g.size - b.size) = min g.size b.size := by omega
  rw [hmin] at hs1 hread1
  rw [← hg.size] at hkept
  obtain ⟨g2, hrun2, hv2, hs2, hext2, hread2, hlogs2⟩ :=
    @updateAll_spec _ _ (a.offset b view) source.cell
      (a.dirtyPositions b indexerDiffs sourceDiff g.readers (min g.size b.size)) hv1
      (fun p hp => by rw [hs1]; exact lt_of_mem_dirtyPositions hp)
      (fun p hp => hentry p (by have := lt_of_mem_dirtyPositions hp; omega))
  rw [hs1] at hs2
  obtain ⟨g3, hrun3, hv3, hs3, hext3, hread3, hnew3, hlogs3⟩ :=
    @placeAll_spec g2 (a.entry b (a.indexers.map (view ·.node)) source) (a.offset b view) source.cell
      (b.size - min g.size b.size) hv2 (fun p _ hp => hentry p (by omega))
  have hsize : g2.size + (b.size - min g.size b.size) = b.size := by omega
  rw [hsize] at hs3 hnew3 hlogs3
  refine ⟨g3, ?_, ⟨hv3, hs3, fun q hq => ?_⟩, (hext1.trans hext2).trans hext3, ?_⟩
  · unfold refresh
    rw [hs2] at hrun3
    rw [hcount, Outcome.ok_bind]
    simp only [hrun2]
    exact hrun3
  · by_cases hold : q < min g.size b.size
    · rw [hread3 q (by omega), hread2, hread1 q hold]
      by_cases hdirty : q ∈ a.dirtyPositions b indexerDiffs sourceDiff g.readers (min g.size b.size)
      · rw [if_pos hdirty]
      · obtain ⟨hoff, hcell⟩ := hkept q hold hdirty
        rw [if_neg hdirty, hg.reading q (by rw [← hg.size]; omega), hoff, hcell]
    · exact hnew3 q (by omega) hq
  · intro P hP hbefore hafter
    refine hlogs3 P (hlogs2 P (hlogs1 P hP fun k hk => hbefore k (hg.size ▸ hk)) fun k hk => ?_) hafter
    exact hafter k (by omega)

/-- Without pending records, and at the size it has, the selection stays as it
is. -/
theorem refresh_eq_self {x : Gathered} {views : List View} {source : View}
    {diffs : List (List (Update Binary64))} (hcount : b.count = .ok b.size)
    (hsize : x.size = b.size)
    (hdiffs : ∀ diff ∈ diffs, diff = []) : a.refresh b views source diffs [] x = .ok x := by
  have hdirty : a.dirtyPositions b diffs [] x.readers b.size = [] := by
    have hzip : ∀ e ∈ a.indexers.zip diffs, e.2 = [] :=
      fun e he => hdiffs e.2 (List.of_mem_zip (a := e.1) (b := e.2) he).2
    apply List.eq_nil_iff_forall_not_mem.mpr
    intro p hp
    unfold dirtyPositions at hp
    simp only at hp
    split at hp
    · next hany =>
      obtain ⟨e, he, hflag⟩ := List.any_eq_true.mp hany
      simp only [hzip e he, List.isEmpty_nil, Bool.not_true, Bool.and_false] at hflag
      cases hflag
    · rw [Ascending.mem_sorted, List.mem_filter, List.flatMap_nil, List.append_nil] at hp
      obtain ⟨e, he, hmem⟩ := List.mem_flatMap.mp hp.1
      rw [hzip e he] at hmem
      cases hmem
  unfold refresh
  rw [hcount, Outcome.ok_bind]
  simp only [hsize, Nat.min_self, Nat.sub_self, hdirty]
  rfl

end AdvancedIndexing
end ArrayFlow
