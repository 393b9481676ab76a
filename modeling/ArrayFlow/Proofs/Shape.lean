import ArrayFlow.Proofs.RowMajor
import ArrayFlow.Shape
import ArrayFlow.Word

/-!
# Shapes with a number of rows

A dynamic shape becomes a list of extents once the number of rows is given
(`withRows`).  Neither the strides nor the coordinates of a position depend
on that number, so two states in which an array has different sizes agree on
where its elements are.

* `Shows` — some extents are those of a shape with a given number of rows.
  Rows without elements cannot be counted, so for them any number will do;
* `Reaches` — a position that an array of the shape has in some state;
* `resolve_eq`, `strides_eq` — what is found of a shape, and when it overflows.
-/

namespace ArrayFlow
namespace Shape

/-- The extents of a shape with a number of rows. -/
def withRows : Shape → Nat → List Nat
  | static extents, _ => extents
  | dynamic trailing, rows => rows :: trailing

/-- The number of elements, where the shape fixes it. -/
def size? : Shape → Option Nat
  | static extents => some (RowMajor.size extents)
  | dynamic _ => none

/-- The number of elements per position of the leading axis. -/
def rowSize (s : Shape) : Nat := RowMajor.size s.trailing

/-- The extents of an array that holds `size` elements, as far as its rows can
be counted. -/
def extentsOf : Shape → Nat → List Nat
  | static extents, _ => extents
  | dynamic trailing, size => size / RowMajor.size trailing :: trailing

/-- The number of elements behind each axis. -/
def weights (s : Shape) : List Nat := RowMajor.weights (s.withRows 0)

/-- The number of elements with a number of rows. -/
def sizeWith (s : Shape) (rows : Nat) : Nat := RowMajor.size (s.withRows rows)

/-- The coordinates of a position.  The dynamic axis takes what the others
leave. -/
def coordinates : Shape → Nat → List Nat
  | static extents, k => RowMajor.coordinates extents k
  | dynamic trailing, k => (RowMajor.split trailing k).1 :: (RowMajor.split trailing k).2

/-- Extents of the shape with a number of rows, if its rows can be counted. -/
def Shows (s : Shape) (rows : Nat) (extents : List Nat) : Prop :=
  ∃ m, extents = s.withRows m ∧ (s.isDynamic → s.rowSize ≠ 0 → m = rows)

/-- A position of some array of the shape for which there is room. -/
def Reaches (s : Shape) (k : Nat) : Prop :=
  ∃ rows, k < s.sizeWith rows ∧ s.sizeWith rows ≤ maxElements

theorem weights_withRows (s : Shape) (rows : Nat) :
    RowMajor.weights (s.withRows rows) = s.weights := by
  cases s <;> rfl

@[simp] theorem length_withRows (s : Shape) (rows : Nat) : (s.withRows rows).length = s.rank := by
  cases s <;> rfl

theorem tail_withRows (s : Shape) (rows : Nat) : (s.withRows rows).tail = s.trailing := by
  cases s <;> rfl

theorem coordinates_withRows {s : Shape} {rows k : Nat} (h : k < s.sizeWith rows) :
    RowMajor.coordinates (s.withRows rows) k = s.coordinates k := by
  cases s with
  | static ns => rfl
  | dynamic ns => exact RowMajor.coordinates_cons h

theorem sizeWith_static (ns : List Nat) (rows : Nat) :
    (static ns).sizeWith rows = RowMajor.size ns := rfl

theorem sizeWith_of_not_isDynamic {s : Shape} (h : s.isDynamic = false) (rows : Nat) :
    s.size? = some (s.sizeWith rows) := by
  cases s with
  | static ns => rfl
  | dynamic ns => simp [isDynamic] at h

/-- The size of a static shape does not depend on a number of rows. -/
theorem sizeWith_congr {s : Shape} {rows rows' : Nat} (h : s.isDynamic = true → rows = rows') :
    s.sizeWith rows = s.sizeWith rows' := by
  cases s with
  | static ns => rfl
  | dynamic ns => rw [h rfl]

theorem sizeWith_of_isDynamic {s : Shape} (h : s.isDynamic = true) (rows : Nat) :
    s.sizeWith rows = rows * s.rowSize := by
  cases s with
  | static ns => simp [isDynamic] at h
  | dynamic ns => rfl

/-- The number of rows does not tell in the size if there are none to count. -/
theorem sizeWith_of_not_resizing {s : Shape} (h : s.isDynamic = true → s.rowSize = 0)
    (rows rows' : Nat) : s.sizeWith rows = s.sizeWith rows' := by
  cases hd : s.isDynamic with
  | false => exact sizeWith_congr fun hd' => absurd hd' (Bool.eq_false_iff.mp hd)
  | true => rw [sizeWith_of_isDynamic hd, sizeWith_of_isDynamic hd, h hd, Nat.mul_zero, Nat.mul_zero]

namespace Shows

variable {s : Shape} {rows : Nat} {es : List Nat}

theorem size_eq (h : s.Shows rows es) : RowMajor.size es = s.sizeWith rows := by
  obtain ⟨m, rfl, hm⟩ := h
  cases s with
  | static ns => rfl
  | dynamic ns =>
    by_cases hz : RowMajor.size ns = 0
    · simp [sizeWith, withRows, RowMajor.size, hz]
    · rw [hm rfl hz, sizeWith]

/-- Rows with elements can be told from the extents. -/
theorem rows_eq {m : Nat} (h : s.Shows rows (s.withRows m)) (hdyn : s.isDynamic = true)
    (hz : s.rowSize ≠ 0) : m = rows := by
  obtain ⟨m', heq, hm⟩ := h
  cases s with
  | static ns => cases hdyn
  | dynamic ns => exact (List.cons.inj heq).1.trans (hm hdyn hz)

end Shows

theorem shows_withRows (s : Shape) (rows : Nat) : s.Shows rows (s.withRows rows) :=
  ⟨rows, rfl, fun _ _ => rfl⟩

/-- A buffer of the right size is shown under its shape. -/
theorem shows_extentsOf (s : Shape) (rows : Nat) : s.Shows rows (s.extentsOf (s.sizeWith rows)) := by
  cases s with
  | static ns => exact shows_withRows _ rows
  | dynamic ns =>
    refine ⟨rows * RowMajor.size ns / RowMajor.size ns, rfl, fun _ hz => ?_⟩
    exact Nat.mul_div_cancel rows (Nat.pos_of_ne_zero hz)

theorem extentsOf_of_rank_zero {s : Shape} (h : s.rank = 0) (size : Nat) : s.extentsOf size = [] := by
  cases s with
  | static ns => exact List.eq_nil_of_length_eq_zero h
  | dynamic ns => cases h

theorem extentsOf_ne_nil {s : Shape} (h : s.rank ≠ 0) (size : Nat) : s.extentsOf size ≠ [] := by
  cases s with
  | static ns => exact fun hnil => h (congrArg List.length hnil)
  | dynamic ns => exact List.cons_ne_nil _ _

/-- Rows with elements can be counted. -/
theorem extentsOf_sizeWith {s : Shape} {rows : Nat} (h : 0 ∉ (s.withRows rows).tail) :
    s.extentsOf (s.sizeWith rows) = s.withRows rows := by
  cases s with
  | static ns => rfl
  | dynamic ns =>
    have hz : RowMajor.size ns ≠ 0 :=
      RowMajor.size_ne_zero.mpr fun n hn h0 => h (h0 ▸ hn)
    exact congrArg (· :: ns) (Nat.mul_div_cancel rows (Nat.pos_of_ne_zero hz))

/-! ### What is found of a shape -/

theorem countRow_eq_ok {s : Shape} {n : Nat} :
    s.countRow = .ok n ↔ RowMajor.CountsFrom 1 s.trailing ∧ s.rowSize = n :=
  RowMajor.count_eq_ok

/-- The elements can be counted, where the shape fixes their number. -/
def Counts : Shape → Prop
  | static extents => RowMajor.CountsFrom 1 extents
  | dynamic _ => True

instance : (s : Shape) → Decidable s.Counts
  | static extents => RowMajor.decidableCountsFrom 1 extents
  | dynamic _ => inferInstanceAs (Decidable True)

/-- Rows that can be counted, and all their elements. -/
theorem countsFrom_cons {rows : Nat} {ns : List Nat} (hsize : rows * RowMajor.size ns < 2 ^ 64)
    (hz : RowMajor.size ns = 0 → rows = 0) : RowMajor.CountsFrom 1 (rows :: ns) := by
  by_cases hrows : rows = 0
  · rw [hrows]
    exact ⟨Nat.two_pow_pos 64, RowMajor.countsFrom_zero ns⟩
  · have hne : RowMajor.size (rows :: ns) ≠ 0 := Nat.mul_ne_zero hrows fun h => hrows (hz h)
    refine RowMajor.countsFrom_of_size hne ?_
    rw [Nat.one_mul]
    exact hsize

theorem count_eq (s : Shape) : s.count = if s.Counts then .ok s.size? else .error .overflow := by
  cases s with
  | static ns =>
    show some <$> RowMajor.count ns = if RowMajor.CountsFrom 1 ns then _ else _
    rw [RowMajor.count_eq]
    split
    · rfl
    · rfl
  | dynamic ns => exact (if_pos (show (dynamic ns).Counts from trivial)).symm

theorem count_eq_ok {s : Shape} {n : Option Nat} : s.count = .ok n ↔ s.Counts ∧ s.size? = n := by
  rw [count_eq, Outcome.if_eq_ok]

/-- The number of elements of a dynamic array is not asked of its shape. -/
theorem counts_static {s : Shape} (h : s.isDynamic = false) (hc : s.Counts) (rows : Nat) :
    RowMajor.CountsFrom 1 (s.withRows rows) := by
  cases s with
  | static ns => exact hc
  | dynamic ns => cases h

theorem counts_of_isDynamic {s : Shape} (h : s.isDynamic = true) : s.Counts := by
  cases s with
  | static ns => cases h
  | dynamic ns => trivial

/-- The extents of an array whose elements can be counted. -/
theorem counts_extentsOf {s : Shape} (h : s.Counts) {size : Nat}
    (hsize : RowMajor.size (s.extentsOf size) < 2 ^ 64) :
    RowMajor.CountsFrom 1 (s.extentsOf size) := by
  cases s with
  | static ns => exact h
  | dynamic ns => exact countsFrom_cons hsize fun hz => by rw [hz, Nat.div_zero]

/-- The extents are found if the elements of a row can be counted. -/
theorem resolve_eq (s : Shape) (size : Nat) :
    s.resolve size =
      if RowMajor.CountsFrom 1 s.trailing then .ok (s.extentsOf size) else .error .overflow := by
  unfold resolve countRow
  rw [RowMajor.count_eq]
  split
  · cases s <;> rfl
  · rfl

theorem resolve_eq_ok {s : Shape} {size : Nat} {es : List Nat} :
    s.resolve size = .ok es ↔ RowMajor.CountsFrom 1 s.trailing ∧ s.extentsOf size = es := by
  rw [resolve_eq, Outcome.if_eq_ok]

/-- All that has to fit into words for the strides of a shape: the number of
elements of a row, and the products of the last extents. -/
def LaysOut (s : Shape) : Prop := RowMajor.CountsFrom 1 s.trailing ∧ RowMajor.LaysOut (s.withRows 0)

instance (s : Shape) : Decidable s.LaysOut := inferInstanceAs (Decidable (_ ∧ _))

theorem extentsOf_zero (s : Shape) : s.extentsOf 0 = s.withRows 0 := by
  cases s with
  | static ns => rfl
  | dynamic ns => exact congrArg (· :: ns) (Nat.zero_div _)

theorem strides_eq_ok {s : Shape} {ss : List Nat} :
    s.strides = .ok ss ↔ s.LaysOut ∧ s.weights = ss := by
  unfold strides
  simp only [Outcome.bind_eq_ok, resolve_eq_ok, extentsOf_zero]
  constructor
  · rintro ⟨_, ⟨hrow, rfl⟩, hss⟩
    obtain ⟨hlays, hss⟩ := RowMajor.strides_eq_ok.mp hss
    exact ⟨⟨hrow, hlays⟩, hss⟩
  · rintro ⟨⟨hrow, hlays⟩, hss⟩
    exact ⟨_, ⟨hrow, rfl⟩, RowMajor.strides_eq_ok.mpr ⟨hlays, hss⟩⟩

theorem strides_eq_error {s : Shape} {f : Fault} :
    s.strides = .error f ↔ ¬ s.LaysOut ∧ .overflow = f := by
  unfold strides
  rw [resolve_eq, extentsOf_zero]
  by_cases hrow : RowMajor.CountsFrom 1 s.trailing
  · rw [if_pos hrow]
    show RowMajor.strides (s.withRows 0) = _ ↔ _
    rw [RowMajor.strides_eq, Outcome.if_eq_error]
    exact and_congr_left' (not_congr (and_iff_right hrow).symm)
  · rw [if_neg hrow]
    show Except.error Fault.overflow = _ ↔ _
    rw [Except.error.injEq]
    exact (and_iff_right fun h => hrow h.1).symm

/-- The number of rows has no part in what a layout asks for, as long as the
elements are not too many. -/
theorem laysOut_withRows {s : Shape} {rows rows' : Nat} (h : RowMajor.LaysOut (s.withRows rows))
    (hsize : s.sizeWith rows' < 2 ^ 64) : RowMajor.LaysOut (s.withRows rows') := by
  cases s with
  | static ns => exact h
  | dynamic ns => exact ⟨hsize, h.2⟩

/-- A row is no larger than an array that has elements. -/
theorem rowSize_le {s : Shape} {rows : Nat} (hz : s.sizeWith rows ≠ 0) :
    s.rowSize ≠ 0 ∧ s.rowSize ≤ s.sizeWith rows := by
  have general : ∀ {n : Nat} {ns : List Nat}, RowMajor.size (n :: ns) ≠ 0 →
      RowMajor.size ns ≠ 0 ∧ RowMajor.size ns ≤ RowMajor.size (n :: ns) := by
    intro n ns hne
    obtain ⟨hn, hns⟩ := Nat.mul_ne_zero_iff.mp hne
    exact ⟨hns, Nat.le_mul_of_pos_left _ (Nat.pos_of_ne_zero hn)⟩
  cases s with
  | dynamic ns => exact general hz
  | static ns =>
    cases ns with
    | nil => exact ⟨hz, Nat.le_refl _⟩
    | cons n ns => exact general hz

/-- With elements, all is in words if their number is. -/
theorem words_of_size {s : Shape} {rows : Nat} (hz : s.sizeWith rows ≠ 0)
    (hlt : s.sizeWith rows < 2 ^ 64) : s.Counts ∧ s.countRow = .ok s.rowSize ∧ s.LaysOut := by
  obtain ⟨hrow, hle⟩ := rowSize_le hz
  have hrowLt := Nat.lt_of_le_of_lt hle hlt
  have htrailing : RowMajor.CountsFrom 1 s.trailing :=
    RowMajor.countsFrom_of_size hrow ((Nat.one_mul _).symm ▸ hrowLt)
  refine ⟨?_, countRow_eq_ok.mpr ⟨htrailing, rfl⟩, htrailing, ?_⟩
  · cases s with
    | static ns => exact RowMajor.countsFrom_of_size hz ((Nat.one_mul _).symm ▸ hlt)
    | dynamic ns => trivial
  · cases s with
    | static ns => exact RowMajor.laysOut_of_size hz hlt
    | dynamic ns =>
      refine ⟨?_, RowMajor.laysOut_of_size hrow hrowLt⟩
      rw [RowMajor.size, Nat.zero_mul]
      exact Nat.two_pow_pos 64

/-- So are the strides of a row, if it has elements that can be counted. -/
theorem laysOut_of_rowSize {s : Shape} (hd : s.isDynamic = true) (hz : s.rowSize ≠ 0)
    (hrow : RowMajor.CountsFrom 1 s.trailing) : s.LaysOut := by
  have hone : s.sizeWith 1 = s.rowSize := by rw [sizeWith_of_isDynamic hd, Nat.one_mul]
  have hlt : s.rowSize < 2 ^ 64 := by
    have hsize := hrow.size_lt (by decide)
    rwa [Nat.one_mul] at hsize
  exact (@words_of_size s 1 (hone ▸ hz) (hone ▸ hlt)).2.2

end Shape
end ArrayFlow
