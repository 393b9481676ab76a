import ArrayFlow.Proofs.Journal
import ArrayFlow.Proofs.Outcome
import ArrayFlow.Proofs.Shape
import ArrayFlow.Proofs.WholeNumbers
import ArrayFlow.Variable

/-!
# The contents of variables

Contents **hold** for a variable if they have a size that it allows and every
element keeps its bounds.  Defaults and seeds hold, and edits that are not
refused keep them so.  Every edit extends the journals of the contents.

* `seed_outcome`, `edit_outcome` — what seeding and editing do, with everything
  they have checked; what fails has not written yet;
* `Holds.edit` — the invariant of the contents;
* `Contents.Extends.edit` — edits can be taken back;
* `Holds.size_eq`, `Holds.minRows_le` — the size of the elements follows the
  number of rows, which never falls below the minimum.
-/

namespace ArrayFlow

/-- The value lies within two bounds. -/
abbrev Between (lower upper x : Binary64) : Prop := lower ≤ x ∧ x ≤ upper

namespace IntegerVariable

variable {v : IntegerVariable}

/-- The number of elements. -/
def size (v : IntegerVariable) : Nat := RowMajor.size v.extents

/-- The values of a variable that nobody has seeded. -/
def initial (v : IntegerVariable) : Journal Binary64 :=
  .ofArray (Array.replicate v.size (.ofInt v.nearestToZero))

theorem count_eq_ok {n : Nat} :
    v.count = .ok n ↔ RowMajor.CountsFrom 1 v.extents ∧ v.size = n := RowMajor.count_eq_ok

/-- The number of elements, where it is found. -/
theorem count_eq_size {n : Nat} (h : v.count = .ok n) : v.count = .ok v.size := by
  rw [h, (count_eq_ok.mp h).2]

theorem defaults_eq_ok {j : Journal Binary64} : v.defaults = .ok j ↔
    v.count = .ok v.size ∧ v.size ≤ maxElements ∧ v.initial = j := by
  constructor
  · intro h
    obtain ⟨n, hn, h⟩ := Outcome.bind_eq_ok.mp h
    obtain ⟨_, hroom, h⟩ := Outcome.bind_eq_ok.mp h
    obtain rfl := (count_eq_ok.mp hn).2
    exact ⟨hn, Outcome.check_eq_ok.mp hroom, Except.ok.inj h⟩
  · rintro ⟨hn, hroom, rfl⟩
    exact Outcome.bind_eq_ok.mpr ⟨_, hn, Outcome.bind_eq_ok.mpr
      ⟨(), Outcome.check_eq_ok.mpr hroom, rfl⟩⟩

theorem between_nearestToZero (v : IntegerVariable) :
    Between v.min v.max (.ofInt v.nearestToZero) := by
  have := v.lower_le_upper
  have hmem : v.lower ≤ v.nearestToZero ∧ v.nearestToZero ≤ v.upper := by
    unfold nearestToZero
    split
    · omega
    · split <;> omega
  exact ⟨Binary64.ofInt_mono hmem.1, Binary64.ofInt_mono hmem.2⟩

theorem between_of_admits {x : Binary64} (h : v.admits x = true) : Between v.min v.max x := by
  simp only [admits, Bool.and_eq_true, Bool.not_eq_true', decide_eq_false_iff_not] at h
  obtain ⟨⟨hw, hlo⟩, hhi⟩ := h
  have hx : x ≠ .nan := by rintro rfl; cases hw
  exact ⟨Binary64.le_of_not_lt (Binary64.ofInt_ne_nan _) hx hlo,
    Binary64.le_of_not_lt hx (Binary64.ofInt_ne_nan _) hhi⟩

theorem entire_of_admits {x : Binary64} (h : v.admits x = true) : x.Entire := by
  simp only [admits, Bool.and_eq_true] at h
  exact Binary64.entire_of_isWhole h.1.1

theorem checkValue_eq_ok {x : Binary64} : v.checkValue x = .ok () ↔ v.admits x = true :=
  Outcome.check_eq_ok

theorem checkIndex_eq_ok {i : Nat} :
    v.checkIndex i = .ok () ↔ v.count = .ok v.size ∧ i < v.size := by
  unfold checkIndex
  rw [Outcome.bind_eq_ok]
  simp only [Outcome.fault_eq_ok]
  constructor
  · rintro ⟨n, hn, h⟩
    obtain rfl := (count_eq_ok.mp hn).2
    exact ⟨hn, Outcome.check_eq_ok.mp h⟩
  · rintro ⟨hn, hi⟩
    exact ⟨_, hn, Outcome.check_eq_ok.mpr hi⟩

theorem refused_of_checkIndex {i : Nat} {f : Failure} (hc : v.count = .ok v.size)
    (h : v.checkIndex i = .error f) : ∃ r, f = .refused r := by
  unfold checkIndex at h
  rcases Outcome.bind_eq_error.mp h with h | ⟨n, -, h⟩
  · rw [hc] at h
    cases h
  · split at h
    · cases h
    · exact ⟨_, (Except.error.inj h).symm⟩

end IntegerVariable

namespace ListVariable

variable {v : ListVariable}

/-- The list that nobody has seeded. -/
def initial (v : ListVariable) : Contents where
  items := .ofArray ((Array.range v.minSize).map .ofNat)
  unused := .ofArray (((List.range v.count).drop v.minSize).reverse.map Binary64.ofNat).toArray

theorem defaults_eq_ok {c : Contents} :
    v.defaults = .ok c ↔ v.count ≤ maxElements ∧ v.initial = c := by
  constructor
  · intro h
    obtain ⟨_, hroom, h⟩ := Outcome.bind_eq_ok.mp h
    exact ⟨Outcome.check_eq_ok.mp hroom, Except.ok.inj h⟩
  · rintro ⟨hroom, rfl⟩
    exact Outcome.bind_eq_ok.mpr ⟨(), Outcome.check_eq_ok.mpr hroom, rfl⟩

/-- The top of the stack has become the last item; nothing happens without
one. -/
def Contents.grow (c : Contents) : Contents :=
  match c.unused.values.back? with
  | some x => ⟨c.items.push x, c.unused.pop⟩
  | none => c

/-- The last item has become the top of the stack. -/
def Contents.shrink (c : Contents) : Contents :=
  match c.items.values.back? with
  | some x => ⟨c.items.pop, c.unused.push x⟩
  | none => c

theorem between_ofNat {i : Nat} (h : i < v.count) : Between .zero v.max (.ofNat i) :=
  ⟨Binary64.zero_le_ofNat i, Binary64.ofNat_mono (by omega)⟩

theorem between_of_admits {seen : List Nat} {x : Binary64} (h : v.admits seen x = true) :
    Between .zero v.max x := by
  simp only [admits, Bool.and_eq_true, Bool.not_eq_true', decide_eq_false_iff_not] at h
  obtain ⟨⟨⟨hw, hlo⟩, hhi⟩, -⟩ := h
  have hx : x ≠ .nan := by rintro rfl; cases hw
  have h0 := Binary64.le_of_not_lt Binary64.zero_ne_nan hx hlo
  exact ⟨h0, Binary64.le_ofNat_pred hw h0 hhi⟩

theorem entire_of_admits {seen : List Nat} {x : Binary64} (h : v.admits seen x = true) :
    x.Entire := by
  simp only [admits, Bool.and_eq_true] at h
  exact Binary64.entire_of_isWhole h.1.1.1

theorem admits_of_itemsOf {seen used : List Nat} {xs : List Binary64}
    (h : v.itemsOf seen xs = .ok used) : ∀ x ∈ xs, ∃ seen', v.admits seen' x = true := by
  induction xs generalizing seen with
  | nil => simp
  | cons x xs ih =>
    rw [itemsOf] at h
    split at h
    · next hx => exact List.forall_mem_cons.mpr ⟨⟨seen, hx⟩, ih h⟩
    · cases h

end ListVariable

namespace RowVariable

variable {v : RowVariable}

/-- The least value of the domain: the lower bound, or the whole number at or
above it if whole numbers are asked for. -/
def first (v : RowVariable) : Binary64 := if v.integral then v.lower.ceil else v.lower

/-- The greatest value of the domain. -/
def last (v : RowVariable) : Binary64 := if v.integral then v.upper.floor else v.upper

theorem ne_nan (v : RowVariable) : v.lower ≠ .nan ∧ v.upper ≠ .nan := by
  have h := v.domain_nonempty
  simp only [domainEmpty, Bool.or_eq_false_iff] at h
  constructor
  · intro h0
    rw [h0] at h
    cases h.1.1
  · intro h0
    rw [h0] at h
    cases h.1.2

theorem lower_le_first (v : RowVariable) : v.lower ≤ v.first := by
  unfold first
  split
  · exact Binary64.le_ceil v.ne_nan.1
  · exact Binary64.le_refl v.ne_nan.1

theorem last_le_upper (v : RowVariable) : v.last ≤ v.upper := by
  unfold last
  split
  · exact Binary64.floor_le v.ne_nan.2
  · exact Binary64.le_refl v.ne_nan.2

/-- The domain of a variable of rows is not empty. -/
theorem first_le_last (v : RowVariable) : v.first ≤ v.last := by
  have hfirst := (Binary64.ne_nan_of_le v.lower_le_first).2
  have hlast := (Binary64.ne_nan_of_le v.last_le_upper).1
  apply Binary64.le_of_not_lt hfirst hlast
  have h := v.domain_nonempty
  simp only [domainEmpty, Bool.or_eq_false_iff] at h
  unfold first last
  cases hi : v.integral with
  | false => simpa [hi] using h.2
  | true => simpa [hi] using h.2

/-- A variable of rows has bounds between which there is a number. -/
theorem lower_le_upper (v : RowVariable) : v.lower ≤ v.upper :=
  Binary64.le_trans v.lower_le_first (Binary64.le_trans v.first_le_last v.last_le_upper)

/-- The default value lies where zero is clamped into the domain. -/
theorem place?_nearestToZero (v : RowVariable) :
    v.nearestToZero.place? = (Binary64.clamp .zero v.first v.last).place? := by
  have hdomain := v.first_le_last
  unfold nearestToZero
  cases hi : v.integral with
  | false => simp [first, last, hi]
  | true =>
    simp only [first, last, hi, if_true] at hdomain ⊢
    obtain ⟨hl, hu⟩ := v.ne_nan
    have hzero : Binary64.zero.Entire := Binary64.entire_of_isWhole (by decide +kernel)
    by_cases hlo : Binary64.zero < v.lower
    · have hceil := Binary64.lt_of_lt_of_le hlo (Binary64.le_ceil hl)
      rw [Binary64.clamp, if_pos hlo, Binary64.clamp, if_pos hceil]
      exact Binary64.place?_min_of_le hdomain
    · have hle := Binary64.le_of_not_lt hl Binary64.zero_ne_nan hlo
      have hceil := Binary64.not_lt_of_le ((Binary64.ceil_le hl hzero).mpr hle)
      by_cases hhi : v.upper < Binary64.zero
      · have hfloor := Binary64.lt_of_le_of_lt (Binary64.floor_le hu) hhi
        rw [Binary64.clamp, if_neg hlo, if_pos hhi, Binary64.clamp, if_neg hceil, if_pos hfloor]
        exact Binary64.place?_min_of_ge
          (Binary64.le_trans (Binary64.floor_le hu) (Binary64.le_ceil hu))
      · have hle' := (Binary64.le_floor hu hzero).mpr
          (Binary64.le_of_not_lt Binary64.zero_ne_nan hu hhi)
        rw [Binary64.clamp, if_neg hlo, if_neg hhi, Binary64.clamp, if_neg hceil,
          if_neg (Binary64.not_lt_of_le hle'), show Binary64.zero.ceil = .zero by decide +kernel]
        exact Binary64.place?_min_of_le hle'

theorem nearestToZero_mem (v : RowVariable) : Between v.first v.last v.nearestToZero := by
  have hplace := v.place?_nearestToZero
  obtain ⟨hlo, hhi⟩ := Binary64.clamp_mem Binary64.zero_ne_nan v.first_le_last
  exact ⟨(Binary64.le_congr_right hplace).mpr hlo, (Binary64.le_congr_left hplace).mpr hhi⟩

theorem between_nearestToZero (v : RowVariable) : Between v.lower v.upper v.nearestToZero :=
  ⟨Binary64.le_trans v.lower_le_first v.nearestToZero_mem.1,
    Binary64.le_trans v.nearestToZero_mem.2 v.last_le_upper⟩

theorem between_of_admits {x : Binary64} (h : v.admits x = true) : Between v.lower v.upper x := by
  simp only [admits, Bool.and_eq_true, Bool.not_eq_true', decide_eq_false_iff_not] at h
  obtain ⟨⟨⟨hnan, hlo⟩, hhi⟩, -⟩ := h
  have hx : x ≠ .nan := by rintro rfl; cases hnan
  obtain ⟨hl, hu⟩ := Binary64.ne_nan_of_le v.lower_le_upper
  exact ⟨Binary64.le_of_not_lt hl hx hlo, Binary64.le_of_not_lt hx hu hhi⟩

theorem isWhole_of_admits {x : Binary64} (h : v.admits x = true) (hi : v.integral = true) :
    x.isWhole = true := by
  simp only [admits, Bool.and_eq_true, hi, Bool.not_true, Bool.false_or] at h
  exact h.2

theorem entire_of_admits {x : Binary64} (h : v.admits x = true) (hi : v.integral = true) :
    x.Entire :=
  Binary64.entire_of_isWhole (isWhole_of_admits h hi)

theorem entire_nearestToZero (v : RowVariable) (hi : v.integral = true) :
    v.nearestToZero.Entire := by
  unfold nearestToZero
  simp only [hi, if_true]
  rcases Binary64.min_eq_or (Binary64.clamp .zero v.lower v.upper).ceil v.upper.floor
    with heq | heq <;> rw [heq]
  · exact Binary64.entire_ceil _
  · exact Binary64.entire_floor _

theorem checkValue_eq_ok {x : Binary64} : v.checkValue x = .ok () ↔ v.admits x = true :=
  Outcome.check_eq_ok

/-- The number of elements of a row. -/
def rowSize (v : RowVariable) : Nat := RowMajor.size v.trailing

/-- The rows of a variable that nobody has seeded. -/
def initial (v : RowVariable) : Journal Binary64 :=
  .ofArray (Array.replicate (v.minRows * v.rowSize) v.nearestToZero)

theorem countRow_eq_ok {n : Nat} :
    v.countRow = .ok n ↔ RowMajor.CountsFrom 1 v.trailing ∧ v.rowSize = n := RowMajor.count_eq_ok

theorem defaults_eq_ok {j : Journal Binary64} : v.defaults = .ok j ↔
    v.countRow = .ok v.rowSize ∧ v.minRows * v.rowSize ≤ maxElements ∧ v.initial = j := by
  have hmax : maxElements < 2 ^ 60 := by decide
  constructor
  · intro h
    obtain ⟨n, hn, h⟩ := Outcome.bind_eq_ok.mp h
    obtain ⟨size, hsize, h⟩ := Outcome.bind_eq_ok.mp h
    obtain ⟨_, hroom, h⟩ := Outcome.bind_eq_ok.mp h
    obtain rfl := (countRow_eq_ok.mp hn).2
    obtain rfl := (word_eq_ok.mp hsize).2
    exact ⟨hn, Outcome.check_eq_ok.mp hroom, Except.ok.inj h⟩
  · rintro ⟨hn, hroom, rfl⟩
    exact Outcome.bind_eq_ok.mpr ⟨_, hn, Outcome.bind_eq_ok.mpr ⟨_, word_of_lt (by omega),
      Outcome.bind_eq_ok.mpr ⟨(), Outcome.check_eq_ok.mpr hroom, rfl⟩⟩⟩

theorem le_of_checkRows {rows : Nat} (h : v.checkRows rows = .ok ()) : v.minRows ≤ rows := by
  simp only [checkRows] at h
  split at h
  · cases h
  · omega

theorem le_maxRows_of_checkRows {rows m : Nat} (h : v.checkRows rows = .ok ())
    (hm : m ∈ v.maxRows) : rows ≤ m := by
  simp only [checkRows, Option.mem_def.mp hm, Option.getD_some] at h
  split at h
  · cases h
  · omega

theorem rowsOf_eq_ok {length rows : Nat} : v.rowsOf length = .ok rows ↔
    v.countRow = .ok v.rowSize ∧
      if v.rowSize = 0 then rows = 0 else length = rows * v.rowSize := by
  unfold rowsOf
  rw [Outcome.bind_eq_ok]
  simp only [Outcome.fault_eq_ok]
  constructor
  · rintro ⟨n, hn, h⟩
    obtain rfl := (countRow_eq_ok.mp hn).2
    refine ⟨hn, ?_⟩
    split at h
    · next hz => exact (if_pos hz).mpr (Except.ok.inj h).symm
    · next hz =>
      rw [if_neg hz]
      split at h
      · next hmod =>
        obtain rfl := Except.ok.inj h
        exact (Nat.div_mul_cancel (Nat.dvd_of_mod_eq_zero hmod)).symm
      · obtain ⟨_, -, h⟩ := Outcome.bind_eq_ok.mp h
        cases h
  · rintro ⟨hn, h⟩
    refine ⟨_, hn, ?_⟩
    by_cases hz : v.rowSize = 0
    · rw [if_pos hz] at h ⊢
      rw [h]
      rfl
    · rw [if_neg hz] at h ⊢
      rw [h, if_pos (Nat.mul_mod_left _ _), Nat.mul_div_cancel _ (Nat.pos_of_ne_zero hz)]
      rfl

theorem rowsOf_spec {length rows : Nat} (h : v.rowsOf length = .ok rows) (hz : v.rowSize ≠ 0) :
    length = rows * v.rowSize := by
  have h := (rowsOf_eq_ok.mp h).2
  rwa [if_neg hz] at h

theorem rowSize_lt (h : v.countRow = .ok v.rowSize) : v.rowSize < 2 ^ 64 := by
  have := (countRow_eq_ok.mp h).1.size_lt (by decide)
  rwa [Nat.one_mul] at this

/-- Not too many elements fill whole rows or are refused. -/
theorem rowsOf_outcome (h : v.countRow = .ok v.rowSize) {length : Nat}
    (hroom : length ≤ maxElements) :
    (∃ rows ≤ length, v.rowsOf length = .ok rows) ∨
      ∃ r, v.rowsOf length = .error (.refused r) := by
  have hmax : maxElements < 2 ^ 60 := by decide
  have hlt := rowSize_lt h
  by_cases hz : v.rowSize = 0
  · exact .inl ⟨0, Nat.zero_le _, rowsOf_eq_ok.mpr ⟨h, (if_pos hz).mpr rfl⟩⟩
  · by_cases hmod : length % v.rowSize = 0
    · refine .inl ⟨length / v.rowSize, Nat.div_le_self _ _, rowsOf_eq_ok.mpr ⟨h, ?_⟩⟩
      rw [if_neg hz, Nat.div_mul_cancel (Nat.dvd_of_mod_eq_zero hmod)]
    · have hdiv : length / v.rowSize * v.rowSize ≤ length := Nat.div_mul_le_self _ _
      have hexpected : (length / v.rowSize + 1) * v.rowSize < 2 ^ 64 := by
        rw [Nat.add_mul, Nat.one_mul]
        rcases Nat.lt_or_ge length v.rowSize with hshort | hlong
        · rw [Nat.div_eq_of_lt hshort]
          omega
        · omega
      refine .inr ⟨.shapeMismatch ((length / v.rowSize + 1) * v.rowSize) length, ?_⟩
      unfold rowsOf
      rw [h]
      show (if v.rowSize = 0 then _ else _) = _
      rw [if_neg hz, if_neg hmod, word_of_lt hexpected]
      rfl

theorem rowsOf_le (h : v.countRow = .ok v.rowSize) {length rows : Nat}
    (hroom : length ≤ maxElements) (hrows : v.rowsOf length = .ok rows) : rows ≤ length := by
  rcases rowsOf_outcome h hroom with ⟨n, hn, heq⟩ | ⟨r, heq⟩
  · rw [heq] at hrows
    exact Except.ok.inj hrows ▸ hn
  · cases heq.symm.trans hrows

theorem refused_of_rowsOf (h : v.countRow = .ok v.rowSize) {length : Nat} {f : Failure}
    (hroom : length ≤ maxElements) (hf : v.rowsOf length = .error f) : ∃ r, f = .refused r := by
  rcases rowsOf_outcome h hroom with ⟨n, -, heq⟩ | ⟨r, heq⟩
  · cases heq.symm.trans hf
  · exact ⟨r, Except.error.inj (hf.symm.trans heq)⟩

/-- How many elements an edit brings. -/
def Edit.length : Edit → Nat
  | .grow values => values.length
  | _ => 0

end RowVariable

namespace Variable

/-- The shape of a variable. -/
def shape : Variable → Shape
  | integer v => .static v.extents
  | list v => v.shape
  | rows v => v.shape

/-- The value lies within the bounds of a variable, and has no fraction where
whole numbers are asked for. -/
def Admits : Variable → Binary64 → Prop
  | integer v, x => Between v.min v.max x ∧ x.Entire
  | list v, x => Between .zero v.max x ∧ x.Entire
  | rows v, x => Between v.lower v.upper x ∧ (v.integral = true → x.Entire)

namespace Admits

theorem integer {v : IntegerVariable} {x : Binary64} (h : v.checkValue x = .ok ()) :
    (Variable.integer v).Admits x :=
  have h := IntegerVariable.checkValue_eq_ok.mp h
  ⟨IntegerVariable.between_of_admits h, IntegerVariable.entire_of_admits h⟩

theorem list {v : ListVariable} {seen used : List Nat} {xs : List Binary64}
    (h : v.itemsOf seen xs = .ok used) : ∀ x ∈ xs, (Variable.list v).Admits x := by
  intro x hx
  obtain ⟨seen', h⟩ := ListVariable.admits_of_itemsOf h x hx
  exact ⟨ListVariable.between_of_admits h, ListVariable.entire_of_admits h⟩

theorem list_ofNat {v : ListVariable} {i : Nat} (h : i < v.count) :
    (Variable.list v).Admits (.ofNat i) :=
  ⟨ListVariable.between_ofNat h, Binary64.entire_ofNat i⟩

theorem rows {v : RowVariable} {x : Binary64} (h : v.checkValue x = .ok ()) :
    (Variable.rows v).Admits x :=
  have h := RowVariable.checkValue_eq_ok.mp h
  ⟨RowVariable.between_of_admits h, RowVariable.entire_of_admits h⟩

end Admits

/-- The contents of a variable that nobody has seeded. -/
def initial : Variable → Contents
  | integer v => .values v.initial
  | list v => .list v.initial
  | rows v => .values v.initial

/-- The elements of a variable, or those of a row, can be counted. -/
def Counts : Variable → Prop
  | integer v => v.count = .ok v.size
  | list _ => True
  | rows v => v.countRow = .ok v.rowSize

instance : (v : Variable) → Decidable v.Counts
  | integer _ => inferInstanceAs (Decidable (_ = _))
  | list _ => inferInstanceAs (Decidable True)
  | rows _ => inferInstanceAs (Decidable (_ = _))

/-- The number of elements that a variable starts with, those that wait
included. -/
def defaultSize : Variable → Nat
  | integer v => v.size
  | list v => v.count
  | rows v => v.minRows * v.rowSize

/-- **What nobody has seeded** is found if it can be counted and there is room
for it. -/
theorem defaults_eq_ok {v : Variable} {c : Contents} : v.defaults = .ok c ↔
    v.Counts ∧ v.defaultSize ≤ maxElements ∧ v.initial = c := by
  cases v with
  | integer v =>
    show Contents.values <$> v.defaults = .ok c ↔ _
    rw [Outcome.map_eq_ok]
    simp only [IntegerVariable.defaults_eq_ok]
    exact ⟨fun ⟨_, ⟨hn, hroom, hj⟩, hc⟩ => ⟨hn, hroom, (congrArg _ hj).trans hc⟩,
      fun ⟨hn, hroom, hc⟩ => ⟨_, ⟨hn, hroom, rfl⟩, hc⟩⟩
  | list v =>
    show Contents.list <$> v.defaults = .ok c ↔ _
    rw [Outcome.map_eq_ok]
    simp only [ListVariable.defaults_eq_ok]
    exact ⟨fun ⟨_, ⟨hroom, hj⟩, hc⟩ => ⟨trivial, hroom, (congrArg _ hj).trans hc⟩,
      fun ⟨_, hroom, hc⟩ => ⟨_, ⟨hroom, rfl⟩, hc⟩⟩
  | rows v =>
    show Contents.values <$> v.defaults = .ok c ↔ _
    rw [Outcome.map_eq_ok]
    simp only [RowVariable.defaults_eq_ok]
    exact ⟨fun ⟨_, ⟨hn, hroom, hj⟩, hc⟩ => ⟨hn, hroom, (congrArg _ hj).trans hc⟩,
      fun ⟨hn, hroom, hc⟩ => ⟨_, ⟨hn, hroom, rfl⟩, hc⟩⟩

/-- Contents that a variable allows.  Rows without elements are not
counted. -/
inductive Holds : Variable → Contents → Prop
  | integer {v : IntegerVariable} {j : Journal Binary64} (count : v.count = .ok j.size)
      (values : j.Every (Admits (.integer v))) : Holds (.integer v) (.values j)
  | list {v : ListVariable} {c : ListVariable.Contents} (least : v.minSize ≤ c.items.size)
      (most : c.items.size ≤ v.maxSize) (items : c.items.Every (Admits (.list v)))
      (unused : c.unused.Every (Admits (.list v))) : Holds (.list v) (.list c)
  | rows {v : RowVariable} {j : Journal Binary64} (row : v.countRow = .ok v.rowSize)
      (size : v.rowSize ≠ 0 → ∃ n, v.minRows ≤ n ∧ j.size = n * v.rowSize)
      (values : j.Every (Admits (.rows v))) : Holds (.rows v) (.values j)

/-- The number of rows in some contents; the least one if rows have no
elements. -/
def rowsIn (c : Contents) : Variable → Nat
  | integer _ => 0
  | list _ => c.elements.size
  | rows v => if v.rowSize = 0 then v.minRows else c.elements.size / v.rowSize

theorem description_shape (id : NodeId) (v : Variable) : (v.description id).shape = v.shape := by
  cases v <;> rfl

theorem admits_iff {id : NodeId} {v : Variable} {x : Binary64} :
    v.Admits x ↔ Between (v.description id).min (v.description id).max x ∧
      ((v.description id).integral = true → x.Entire) := by
  cases v <;> simp only [Admits, description, true_implies]

/-- A variable that nobody has seeded has its least number of rows. -/
theorem rowsIn_initial (v : Variable) (id : NodeId) (hd : v.shape.isDynamic = true) :
    v.rowsIn v.initial = (v.description id).rows.minRows := by
  cases v with
  | integer v => cases hd
  | list v => exact (show v.initial.items.size = v.minSize by simp [ListVariable.initial])
  | rows v =>
    show (if v.rowSize = 0 then v.minRows else v.initial.size / v.rowSize) = v.minRows
    split
    · rfl
    · next hz => simp [RowVariable.initial, Nat.mul_div_cancel _ (Nat.pos_of_ne_zero hz)]

/-- What seeding makes of explicit elements, and what has been checked
before. -/
inductive Seeds (values : List Binary64) : Variable → Contents → Prop
  | integer {v : IntegerVariable} (length_eq : v.count = .ok values.length)
      (checked : ∀ x ∈ values, v.checkValue x = .ok ()) :
      Seeds values (.integer v) (.values (.ofArray values.toArray))
  | list {v : ListVariable} {used : List Nat} (least : v.minSize ≤ values.length)
      (most : values.length ≤ v.maxSize) (room : v.count ≤ maxElements) (items : v.itemsOf [] values = .ok used) :
      Seeds values (.list v) (.list ⟨.ofArray values.toArray,
        .ofArray (((List.range v.count).reverse.filter fun item => !used.contains item).map
          Binary64.ofNat).toArray⟩)
  | rows {v : RowVariable} {rows : Nat} (rows_eq : v.rowsOf values.length = .ok rows)
      (limits : v.checkRows rows = .ok ()) (checked : ∀ x ∈ values, v.checkValue x = .ok ()) :
      Seeds values (.rows v) (.values (.ofArray values.toArray))

/-- **What seeding does**: it inserts what has been checked, or fails before it
inserts anything. -/
theorem seed_outcome {σ : Type} (v : Variable) (values : List Binary64)
    (insert : Contents → EStateM Failure σ Unit) (s : σ) :
    (∃ c, Seeds values v c ∧ v.seed values insert s = insert c s) ∨
      ∃ f, v.seed values insert s = .error f s := by
  cases v with
  | integer v =>
    cases hn : v.count with
    | error f => exact .inr ⟨.fault f, by simp [seed, IntegerVariable.seed, hn]⟩
    | ok n =>
      by_cases hlength : values.length = n
      · cases hchecked : values.forM v.checkValue with
        | error r =>
          exact .inr ⟨.refused r, by simp [seed, IntegerVariable.seed, hn, hlength, hchecked]⟩
        | ok u =>
          exact .inl ⟨_, .integer (hlength ▸ hn) (Outcome.forM_eq_ok.mp hchecked),
            by simp [seed, IntegerVariable.seed, hn, hlength, hchecked]⟩
      · exact .inr ⟨.refused (.shapeMismatch n values.length),
          by simp [seed, IntegerVariable.seed, hn, hlength]⟩
  | list v =>
    by_cases hlength : values.length < v.minSize ∨ v.maxSize < values.length
    · exact .inr ⟨.refused (.sizeOutOfBounds values.length v.minSize v.maxSize),
        by simp [seed, ListVariable.seed, hlength]⟩
    · cases hroom : checkRoom v.count with
      | error f => exact .inr ⟨.fault f, by simp [seed, ListVariable.seed, hlength, hroom]⟩
      | ok u =>
        cases hused : v.itemsOf [] values with
        | error r => exact .inr ⟨.refused r, by simp [seed, ListVariable.seed, hlength, hroom, hused]⟩
        | ok used =>
          refine .inl ⟨_, .list ?_ ?_ (Outcome.check_eq_ok.mp hroom) hused, ?_⟩
          · exact Nat.le_of_not_lt fun h => hlength (.inl h)
          · exact Nat.le_of_not_lt fun h => hlength (.inr h)
          · simp [seed, ListVariable.seed, hlength, hroom, hused]
  | rows v =>
    cases hrows : v.rowsOf values.length with
    | error f => exact .inr ⟨f, by simp [seed, RowVariable.seed, hrows]⟩
    | ok rows =>
      cases hlimits : v.checkRows rows with
      | error r => exact .inr ⟨.refused r, by simp [seed, RowVariable.seed, hrows, hlimits]⟩
      | ok u =>
        cases hchecked : values.forM v.checkValue with
        | error r =>
          exact .inr ⟨.refused r, by simp [seed, RowVariable.seed, hrows, hlimits, hchecked]⟩
        | ok u =>
          exact .inl ⟨_, .rows hrows hlimits (Outcome.forM_eq_ok.mp hchecked),
            by simp [seed, RowVariable.seed, hrows, hlimits, hchecked]⟩

namespace Holds

variable {v : Variable} {c c' : Contents}

theorem admits (h : v.Holds c) : c.elements.Every v.Admits := by
  cases h with
  | integer _ values => exact values
  | list _ _ items _ => exact items
  | rows _ _ values => exact values

theorem counts (h : v.Holds c) : v.Counts := by
  cases h with
  | integer count _ => exact IntegerVariable.count_eq_size count
  | list _ _ _ _ => trivial
  | rows row _ _ => exact row

theorem minRows_le (h : v.Holds c) (id : NodeId) (hd : v.shape.isDynamic = true) :
    (v.description id).rows.minRows ≤ v.rowsIn c := by
  cases h with
  | integer _ _ => cases hd
  | list least _ _ _ => exact least
  | @rows v j _ size _ =>
    show v.minRows ≤ if v.rowSize = 0 then v.minRows else j.size / v.rowSize
    split
    · exact Nat.le_refl _
    · next hz =>
      obtain ⟨n, hn, hj⟩ := size hz
      rwa [hj, Nat.mul_div_cancel n (Nat.pos_of_ne_zero hz)]

/-- The elements are as many as the shape and the number of rows say, if
rows have elements. -/
theorem size_eq (h : v.Holds c) (hz : v.shape.isDynamic = true → v.shape.rowSize ≠ 0) :
    c.elements.size = v.shape.sizeWith (v.rowsIn c) := by
  cases h with
  | integer count _ => exact (IntegerVariable.count_eq_ok.mp count).2.symm
  | @list v c least most _ _ =>
    show c.items.size = v.shape.sizeWith c.items.size
    cases hg : v.growing with
    | true => simp [ListVariable.shape, hg, Shape.sizeWith, Shape.withRows, RowMajor.size]
    | false =>
      have := v.fixed_minSize hg
      have := v.maxSize_le_count
      have hsize : RowMajor.size [v.count] = v.count := Nat.mul_one _
      simp only [ListVariable.shape, hg, Bool.false_eq_true, if_false, Shape.sizeWith,
        Shape.withRows, hsize]
      omega
  | @rows v j _ size _ =>
    have hz : v.rowSize ≠ 0 := hz rfl
    obtain ⟨n, hn, hj⟩ := size hz
    show j.size = (if v.rowSize = 0 then v.minRows else j.size / v.rowSize) * v.rowSize
    rw [if_neg hz, hj, Nat.mul_div_cancel n (Nat.pos_of_ne_zero hz)]

/-- A position of the elements is one that the variable can have. -/
theorem reaches (h : v.Holds c)
    (hz : v.shape.isDynamic = true → v.shape.rowSize ≠ 0)
    (hroom : c.elements.size ≤ maxElements) : ∀ k < c.elements.size, v.shape.Reaches k := by
  intro k hk
  rw [h.size_eq hz] at hk hroom
  exact ⟨_, hk, hroom⟩

theorem commit (h : v.Holds c) : v.Holds c.commit := by
  cases h with
  | integer count values => exact .integer count values
  | list least most items unused => exact .list least most items unused
  | rows row size values => exact .rows row size values

/-- What nobody has seeded holds, where it can be counted. -/
theorem initial {v : Variable} (hc : v.Counts) : v.Holds v.initial := by
  cases v with
  | integer v =>
    refine .integer ?_ (.replicate ⟨v.between_nearestToZero, Binary64.entire_ofInt _⟩ _)
    rw [show v.count = .ok v.size from hc]
    simp [IntegerVariable.initial]
  | list v =>
    have hle := v.minSize_le_maxSize
    have hcount := v.maxSize_le_count
    refine .list ?_ ?_ ?_ ?_
    · simp [ListVariable.initial]
    · simpa [ListVariable.initial] using hle
    · intro x hx
      obtain ⟨i, hi, rfl⟩ := Array.mem_map.mp hx
      exact .list_ofNat (by have := Array.mem_range.mp hi; omega)
    · refine .ofList fun x hx => ?_
      obtain ⟨i, hi, rfl⟩ := List.mem_map.mp hx
      have := List.mem_range.mp (List.mem_of_mem_drop (List.mem_reverse.mp hi))
      exact .list_ofNat this
  | rows v =>
    refine .rows hc (fun _ => ⟨v.minRows, Nat.le_refl _, ?_⟩)
      (.replicate ⟨v.between_nearestToZero, v.entire_nearestToZero⟩ _)
    simp [RowVariable.initial]

theorem defaults (h : v.defaults = .ok c) : v.Holds c := by
  obtain ⟨hc, -, rfl⟩ := defaults_eq_ok.mp h
  exact initial hc

theorem seed {values : List Binary64} (h : Seeds values v c) : v.Holds c := by
  cases h with
  | integer hlength hchecked =>
    exact .integer (by simpa using hlength) (.ofList fun x hx => .integer (hchecked x hx))
  | list hleast hmost _ hitems =>
    refine .list (by simpa using hleast) (by simpa using hmost) (.ofList (Admits.list hitems))
      (.ofList fun x hx => ?_)
    obtain ⟨i, hi, rfl⟩ := List.mem_map.mp hx
    have := List.mem_range.mp (List.mem_reverse.mp (List.mem_of_mem_filter hi))
    exact .list_ofNat this
  | @rows v rows hrows hlimits hchecked =>
    refine .rows (RowVariable.rowsOf_eq_ok.mp hrows).1
      (fun hz => ⟨rows, RowVariable.le_of_checkRows hlimits, ?_⟩)
      (.ofList fun x hx => .rows (hchecked x hx))
    simpa using RowVariable.rowsOf_spec hrows hz

end Holds

/-! ### Edits -/

/-- The second contents were reached from the first by edits. -/
inductive Contents.Extends : Contents → Contents → Prop
  | values {j j' : Journal Binary64} (h : j.Extends j') : Extends (.values j) (.values j')
  | list {c c' : ListVariable.Contents} (items : c.items.Extends c'.items)
      (unused : c.unused.Extends c'.unused) : Extends (.list c) (.list c')

/-- Contents without pending edits. -/
def Contents.Clean : Contents → Prop
  | values j => j.Clean
  | list c => c.items.Clean ∧ c.unused.Clean

namespace Contents

variable {c c' c'' : Contents}

theorem Extends.refl (c : Contents) : c.Extends c := by
  cases c with
  | values j => exact .values (.refl j)
  | list c => exact .list (.refl _) (.refl _)

theorem Extends.trans (h : c.Extends c') (h' : c'.Extends c'') : c.Extends c'' := by
  cases h with
  | values h =>
    cases h' with
    | values h' => exact .values (h.trans h')
  | list hi hu =>
    cases h' with
    | list hi' hu' => exact .list (hi.trans hi') (hu.trans hu')

theorem Extends.elements (h : c.Extends c') : c.elements.Extends c'.elements := by
  cases h with
  | values h => exact h
  | list items _ => exact items

theorem Clean.elements (h : c.Clean) : c.elements.Clean := by
  cases c with
  | values j => exact h
  | list c => exact h.1

/-- **Reverting is exact**, for the items and the stack alike. -/
theorem Extends.revert_eq (h : c.Extends c') (hc : c.Clean) : c'.revert = c := by
  cases h with
  | values h => exact congrArg Contents.values (h.revert_eq hc)
  | @list c c' items unused =>
    have hi := items.revert_eq hc.1
    have hu := unused.revert_eq hc.2
    show Contents.list ⟨c'.items.revert, c'.unused.revert⟩ = .list c
    rw [hi, hu]

theorem clean_commit (c : Contents) : c.commit.Clean := by
  cases c with
  | values j => exact j.clean_commit
  | list c => exact ⟨c.items.clean_commit, c.unused.clean_commit⟩

theorem Clean.commit_eq (h : c.Clean) : c.commit = c := by
  cases c with
  | values j => exact congrArg values (Journal.Clean.commit_eq h)
  | list c =>
    show list ⟨c.items.commit, c.unused.commit⟩ = list c
    rw [h.1.commit_eq, h.2.commit_eq]

/-- The stack of a list has pending records only if its items have some. -/
def Linked : Contents → Prop
  | values _ => True
  | list c => c.items.log = [] → c.unused.log = []

theorem Clean.linked (h : c.Clean) : c.Linked := by
  cases c with
  | values j => trivial
  | list c => exact fun _ => h.2.1

theorem Extends.clean_of_linked (h : c.Extends c') (hc : c.Clean) (hl : c'.Linked)
    (hlog : c'.elements.log = []) : c'.Clean := by
  cases h with
  | values h => exact h.clean_of_log hc hlog
  | list items unused =>
    exact ⟨items.clean_of_log hc.1 hlog, unused.clean_of_log hc.2 (hl hlog)⟩

theorem elements_commit (c : Contents) : c.commit.elements = c.elements.commit := by
  cases c <;> rfl

end Contents

theorem clean_initial (v : Variable) : v.initial.Clean := by
  cases v with
  | integer v => exact Journal.clean_ofArray _
  | list v => exact ⟨Journal.clean_ofArray _, Journal.clean_ofArray _⟩
  | rows v => exact Journal.clean_ofArray _

theorem Seeds.clean {v : Variable} {values : List Binary64} {c : Contents} (h : Seeds values v c) :
    c.Clean := by
  cases h with
  | integer => exact Journal.clean_ofArray _
  | list => exact ⟨Journal.clean_ofArray _, Journal.clean_ofArray _⟩
  | rows => exact Journal.clean_ofArray _

section Edit

variable {v : Variable} {c c' : Contents} {id : NodeId} {e : Edit}

/-- What an edit that is carried out makes of the contents of a variable, and
what has been checked before. -/
inductive Becomes : Variable → Contents → Contents → Prop
  | setInteger {v : IntegerVariable} {j : Journal Binary64} {i : Nat} {x : Binary64}
      (index : v.checkIndex i = .ok ()) (value : v.checkValue x = .ok ()) :
      Becomes (.integer v) (.values j) (.values (j.set i x))
  | exchangeIntegers {v : IntegerVariable} {j : Journal Binary64} {i k : Nat}
      (first : v.checkIndex i = .ok ()) (second : v.checkIndex k = .ok ()) :
      Becomes (.integer v) (.values j) (.values (j.exchange i k))
  | exchangeItems {v : ListVariable} {c : ListVariable.Contents} {i k : Nat}
      (first : i < c.items.size) (second : k < c.items.size) :
      Becomes (.list v) (.list c) (.list { c with items := c.items.exchange i k })
  | growItems {v : ListVariable} {c : ListVariable.Contents} {id : NodeId}
      (growing : v.checkGrowing id = .ok ()) (most : c.items.size < v.maxSize) :
      Becomes (.list v) (.list c) (.list c.grow)
  | shrinkItems {v : ListVariable} {c : ListVariable.Contents} {id : NodeId}
      (growing : v.checkGrowing id = .ok ()) (least : v.minSize < c.items.size) :
      Becomes (.list v) (.list c) (.list c.shrink)
  | setElement {v : RowVariable} {j : Journal Binary64} {i : Nat} {x : Binary64}
      (value : v.checkValue x = .ok ()) (index : i < j.size) :
      Becomes (.rows v) (.values j) (.values (j.set i x))
  | growRows {v : RowVariable} {j : Journal Binary64} {xs : List Binary64} {added rows : Nat}
      (added_eq : v.rowsOf xs.length = .ok added) (values : ∀ x ∈ xs, v.checkValue x = .ok ())
      (rows_eq : v.rowsOf j.size = .ok rows) (limits : v.checkRows (rows + added) = .ok ()) :
      Becomes (.rows v) (.values j) (.values (xs.foldl Journal.push j))
  | shrinkRows {v : RowVariable} {j : Journal Binary64} {rows : Nat}
      (rows_eq : v.rowsOf j.size = .ok rows) (rows_ne_zero : rows ≠ 0)
      (limits : v.checkRows (rows - 1) = .ok ()) :
      Becomes (.rows v) (.values j) (.values (Nat.repeat Journal.pop v.rowSize j))

theorem edit_integer (v : IntegerVariable) (e : IntegerVariable.Edit) (j : Journal Binary64) :
    Outcome.Attempts (v.count = .ok v.size) (fun j' => Becomes (.integer v) (.values j) (.values j'))
      (v.edit e) j := by
  cases e with
  | set i x =>
    refine .ask (fun _ h hc => IntegerVariable.refused_of_checkIndex hc h) fun _ hindex => ?_
    exact .check fun _ hvalue => .done rfl (.setInteger hindex hvalue)
  | exchange i k =>
    refine .ask (fun _ h hc => IntegerVariable.refused_of_checkIndex hc h) fun _ hfirst => ?_
    refine .ask (fun _ h hc => IntegerVariable.refused_of_checkIndex hc h) fun _ hsecond => ?_
    exact .done rfl (.exchangeIntegers hfirst hsecond)

/-- Growing, once nothing speaks against it. -/
theorem edit_grow {v : ListVariable} {id : NodeId} {c : ListVariable.Contents}
    (hgrowing : v.checkGrowing id = .ok ()) (hmost : c.items.size < v.maxSize) :
    v.edit id .grow c = .ok () c.grow := by
  unfold ListVariable.Contents.grow
  cases hx : c.unused.values.back? with
  | none => simp [ListVariable.edit, hgrowing, Nat.not_le_of_lt hmost, hx]
  | some x => simp [ListVariable.edit, hgrowing, Nat.not_le_of_lt hmost, hx]

/-- Shrinking, once nothing speaks against it. -/
theorem edit_shrink {v : ListVariable} {id : NodeId} {c : ListVariable.Contents}
    (hgrowing : v.checkGrowing id = .ok ()) (hleast : v.minSize < c.items.size) :
    v.edit id .shrink c = .ok () c.shrink := by
  unfold ListVariable.Contents.shrink
  cases hx : c.items.values.back? with
  | none => simp [ListVariable.edit, hgrowing, Nat.not_le_of_lt hleast, hx]
  | some x => simp [ListVariable.edit, hgrowing, Nat.not_le_of_lt hleast, hx]

theorem edit_list (v : ListVariable) (id : NodeId) (e : ListVariable.Edit)
    (c : ListVariable.Contents) :
    Outcome.Attempts True (fun c' => Becomes (.list v) (.list c) (.list c')) (v.edit id e) c := by
  cases e with
  | exchange i k =>
    by_cases hfirst : c.items.size ≤ i
    · exact .inr ⟨_, by simp [ListVariable.edit, hfirst]; rfl, fun _ => ⟨_, rfl⟩⟩
    · by_cases hsecond : c.items.size ≤ k
      · exact .inr ⟨_, by simp [ListVariable.edit, hfirst, hsecond]; rfl, fun _ => ⟨_, rfl⟩⟩
      · exact .done (by simp [ListVariable.edit, hfirst, hsecond])
          (.exchangeItems (Nat.lt_of_not_le hfirst) (Nat.lt_of_not_le hsecond))
  | grow =>
    cases hgrowing : v.checkGrowing id with
    | error r => exact .inr ⟨.refused r, by simp [ListVariable.edit, hgrowing], fun _ => ⟨r, rfl⟩⟩
    | ok u =>
      by_cases hmost : v.maxSize ≤ c.items.size
      · exact .inr ⟨_, by simp [ListVariable.edit, hgrowing, hmost]; rfl, fun _ => ⟨_, rfl⟩⟩
      · have hmost := Nat.lt_of_not_le hmost
        exact .done (edit_grow hgrowing hmost) (.growItems hgrowing hmost)
  | shrink =>
    cases hgrowing : v.checkGrowing id with
    | error r => exact .inr ⟨.refused r, by simp [ListVariable.edit, hgrowing], fun _ => ⟨r, rfl⟩⟩
    | ok u =>
      by_cases hleast : c.items.size ≤ v.minSize
      · exact .inr ⟨_, by simp [ListVariable.edit, hgrowing, hleast]; rfl, fun _ => ⟨_, rfl⟩⟩
      · have hleast := Nat.lt_of_not_le hleast
        exact .done (edit_shrink hgrowing hleast) (.shrinkItems hgrowing hleast)

/-- Elements that are put at the end one by one. -/
theorem run_pushes (xs : List Binary64) (j : Journal Binary64) :
    (xs.forM fun x => modify (·.push x) : EStateM Failure (Journal Binary64) Unit) j =
      .ok () (xs.foldl Journal.push j) := by
  induction xs generalizing j with
  | nil => rfl
  | cons x xs ih => exact ih (j.push x)

/-- Elements that are taken from the end one by one. -/
theorem run_pops (n : Nat) (j : Journal Binary64) :
    ((List.range n).forM fun _ => modify (·.pop) : EStateM Failure (Journal Binary64) Unit) j =
      .ok () (Nat.repeat Journal.pop n j) := by
  have hcomm : ∀ (n : Nat) (j : Journal Binary64),
      Nat.repeat Journal.pop n j.pop = (Nat.repeat Journal.pop n j).pop := by
    intro n j
    induction n with
    | zero => rfl
    | succ n ih => exact congrArg Journal.pop ih
  have general : ∀ (xs : List Nat) (j : Journal Binary64),
      (xs.forM fun _ => modify (·.pop) : EStateM Failure (Journal Binary64) Unit) j =
        .ok () (Nat.repeat Journal.pop xs.length j) := by
    intro xs
    induction xs with
    | nil => exact fun j => rfl
    | cons x xs ih =>
      intro j
      exact (ih j.pop).trans (congrArg _ (hcomm xs.length j))
  rw [general, List.length_range]

theorem edit_rows (v : RowVariable) (e : RowVariable.Edit) (j : Journal Binary64) :
    Outcome.Attempts (v.countRow = .ok v.rowSize ∧ j.size ≤ maxElements ∧ e.length ≤ maxElements)
      (fun j' => Becomes (.rows v) (.values j) (.values j')) (v.edit e) j := by
  cases e with
  | set i x =>
    refine .check fun _ hvalue => .get (.guard fun hindex => ?_)
    exact .done rfl (.setElement hvalue (Nat.lt_of_not_le hindex))
  | grow xs =>
    refine .ask (fun _ h hrules => RowVariable.refused_of_rowsOf hrules.1 hrules.2.2 h)
      fun added hadded => ?_
    refine .check fun _ hvalues => .get (.ask (fun _ h hrules =>
      RowVariable.refused_of_rowsOf hrules.1 hrules.2.1 h) fun rows hrows => ?_)
    refine .compute (fun _ h hrules => ?_) fun sum hsum => .check fun _ hlimits => ?_
    · have hmax : maxElements < 2 ^ 60 := by decide
      have hrows := RowVariable.rowsOf_le hrules.1 hrules.2.1 hrows
      have hadded := RowVariable.rowsOf_le hrules.1 hrules.2.2 hadded
      have hover := (word_eq_error.mp h).1
      omega
    · obtain ⟨-, rfl⟩ := word_eq_ok.mp hsum
      exact .done (run_pushes xs j)
        (.growRows hadded (Outcome.forM_eq_ok.mp hvalues) hrows hlimits)
  | shrink =>
    refine .compute (fun _ h hrules => by rw [hrules.1] at h; cases h) fun row hrow => ?_
    obtain rfl := (RowVariable.countRow_eq_ok.mp hrow).2
    refine .get (.ask (fun _ h hrules =>
      RowVariable.refused_of_rowsOf hrules.1 hrules.2.1 h) fun rows hrows => ?_)
    refine .guard fun hpos => .check fun _ hlimits => ?_
    exact .done (run_pops v.rowSize j) (.shrinkRows hrows hpos hlimits)

/-- How many elements an edit brings. -/
def Edit.length : Edit → Nat
  | rows e => e.length
  | _ => 0

/-- An edit is for contents of its kind, and there are no more elements to count
than an array can hold. -/
structure Manages (v : Variable) (c : Contents) (e : Edit) : Prop where
  holds : v.Holds c
  kind : v.kind = e.kind
  room : c.elements.size ≤ maxElements
  fits : e.length ≤ maxElements

/-- **What an edit does**: it is carried out, or it fails before it changes
anything.  It is refused then, where its elements can be counted. -/
theorem edit_outcome (v : Variable) (id : NodeId) (e : Edit) (c : Contents) :
    (∃ c', v.edit id e c = .ok () c' ∧ v.Becomes c c') ∨
      ∃ f, v.edit id e c = .error f c ∧ (v.Manages c e → ∃ r, f = .refused r) := by
  unfold Variable.edit
  split
  · next v j e =>
    rcases edit_integer v e j with ⟨j', hj, hbecomes⟩ | ⟨f, hj, hrefused⟩
    · exact .inl ⟨_, by rw [hj]; rfl, hbecomes⟩
    · exact .inr ⟨f, by rw [hj]; rfl, fun h => hrefused h.holds.counts⟩
  · next v c e =>
    rcases edit_list v id e c with ⟨c', hc, hbecomes⟩ | ⟨f, hc, hrefused⟩
    · exact .inl ⟨_, by rw [hc]; rfl, hbecomes⟩
    · exact .inr ⟨f, by rw [hc]; rfl, fun _ => hrefused trivial⟩
  · next v j e =>
    rcases edit_rows v e j with ⟨j', hj, hbecomes⟩ | ⟨f, hj, hrefused⟩
    · exact .inl ⟨_, by rw [hj]; rfl, hbecomes⟩
    · exact .inr ⟨f, by rw [hj]; rfl, fun h => hrefused ⟨h.holds.counts, h.room, h.fits⟩⟩
  · next hinteger hlist hrows =>
    refine .inr ⟨_, rfl, fun ⟨hholds, hkind, _, _⟩ => ?_⟩
    cases hholds <;> cases e <;> cases hkind
    · exact absurd rfl (hinteger _ _ _ rfl rfl)
    · exact absurd rfl (hlist _ _ _ rfl rfl)
    · exact absurd rfl (hrows _ _ _ rfl rfl)

theorem becomes_of_edit (h : v.edit id e c = .ok () c') : v.Becomes c c' := by
  rcases edit_outcome v id e c with ⟨c'', hc, hbecomes⟩ | ⟨f, hc, -⟩
  · cases hc.symm.trans h
    exact hbecomes
  · cases hc.symm.trans h

/-- An accepted edit is made of edits of the journals. -/
theorem Contents.Extends.edit (h : v.edit id e c = .ok () c') : c.Extends c' := by
  cases becomes_of_edit h with
  | setInteger => exact .values (.set _ _ _)
  | exchangeIntegers => exact .values (.exchange _ _ _)
  | exchangeItems => exact .list (.exchange _ _ _) (.refl _)
  | growItems =>
    unfold ListVariable.Contents.grow
    split
    · exact .list (.push _ _) (.pop _)
    · exact .refl _
  | shrinkItems =>
    unfold ListVariable.Contents.shrink
    split
    · exact .list (.pop _) (.push _ _)
    · exact .refl _
  | setElement => exact .values (.set _ _ _)
  | growRows => exact .values (.pushAll _ _)
  | shrinkRows => exact .values (.popMany _ _)

theorem Contents.Linked.edit (hl : c.Linked) (h : v.edit id e c = .ok () c') : c'.Linked := by
  cases becomes_of_edit h with
  | exchangeItems => exact fun hlog => hl ((Journal.Extends.exchange _ _ _).log_eq_nil hlog)
  | growItems =>
    unfold ListVariable.Contents.grow
    split
    · intro hlog
      cases hlog
    · exact hl
  | shrinkItems =>
    unfold ListVariable.Contents.shrink
    split
    · next x hx =>
      intro hlog
      simp only [Journal.pop, hx] at hlog
      cases hlog
    · exact hl
  | setInteger | exchangeIntegers | setElement | growRows | shrinkRows => trivial

/-- **Accepted edits keep the rules of a variable.** -/
theorem Holds.edit (h : v.Holds c) (he : v.edit id e c = .ok () c') : v.Holds c' := by
  cases becomes_of_edit he with
  | setInteger _ hvalue =>
    cases h with
    | integer count values =>
      exact .integer (by rwa [Journal.size_set]) (values.set (.integer hvalue) _)
  | exchangeIntegers =>
    cases h with
    | integer count values =>
      exact .integer (by rwa [Journal.size_exchange]) (values.exchange _ _)
  | exchangeItems =>
    cases h with
    | list least most items unused =>
      exact .list (by rw [Journal.size_exchange]; exact least)
        (by rw [Journal.size_exchange]; exact most) (items.exchange _ _) unused
  | growItems _ hmost =>
    cases h with
    | list least most items unused =>
      unfold ListVariable.Contents.grow
      split
      · next x hx =>
        rw [Array.back?_eq_getElem?] at hx
        exact .list (by rw [Journal.size_push]; omega) (by rw [Journal.size_push]; omega)
          (items.push (unused x (Array.mem_of_getElem? hx))) unused.pop
      · exact .list least most items unused
  | shrinkItems _ hleast =>
    cases h with
    | list least most items unused =>
      unfold ListVariable.Contents.shrink
      split
      · next x hx =>
        rw [Array.back?_eq_getElem?] at hx
        exact .list (by rw [Journal.size_pop]; omega) (by rw [Journal.size_pop]; omega)
          items.pop (unused.push (items x (Array.mem_of_getElem? hx)))
      · exact .list least most items unused
  | setElement hvalue _ =>
    cases h with
    | rows row size values =>
      exact .rows row (fun hz => by rw [Journal.size_set]; exact size hz) (values.set (.rows hvalue) _)
  | @growRows v _ _ added rows hadded hvalues hrows hlimits =>
    cases h with
    | rows row size values =>
      refine .rows row (fun hz => ⟨rows + added, RowVariable.le_of_checkRows hlimits, ?_⟩)
        (values.pushAll fun x hx => .rows (hvalues x hx))
      rw [Journal.size_pushAll, RowVariable.rowsOf_spec hadded hz,
        RowVariable.rowsOf_spec hrows hz, Nat.add_mul]
  | @shrinkRows v _ rows hrows _ hlimits =>
    cases h with
    | rows row size values =>
      refine .rows row (fun hz => ⟨rows - 1, RowVariable.le_of_checkRows hlimits, ?_⟩)
        (values.popMany _)
      rw [Journal.size_popMany, RowVariable.rowsOf_spec hrows hz, Nat.sub_mul, Nat.one_mul]

/-- An edit logs positions that exist before or after it. -/
theorem logs_edit {P : Nat → Prop} (h : c.elements.Logs P) (hbefore : ∀ k < c.elements.size, P k)
    (hafter : ∀ k < c'.elements.size, P k) (he : v.edit id e c = .ok () c') :
    c'.elements.Logs P := by
  cases becomes_of_edit he with
  | setInteger => exact Journal.Logs.set h hbefore _ _
  | exchangeIntegers => exact Journal.Logs.exchange h hbefore _ _
  | exchangeItems => exact Journal.Logs.exchange h hbefore _ _
  | @growItems _ c _ _ _ =>
    revert hafter
    unfold ListVariable.Contents.grow
    split
    · next x hx =>
      intro hafter
      refine Journal.Logs.push h (hafter _ ?_) x
      show c.items.size < (c.items.push x).size
      rw [Journal.size_push]
      omega
    · exact fun _ => h
  | shrinkItems =>
    unfold ListVariable.Contents.shrink
    split
    · exact Journal.Logs.pop h hbefore
    · exact h
  | setElement => exact Journal.Logs.set h hbefore _ _
  | @growRows _ j xs _ _ _ _ _ _ =>
    refine Journal.Logs.pushAll h fun k hk => hafter k ?_
    show k < (xs.foldl Journal.push j).size
    rw [Journal.size_pushAll]
    exact hk
  | @shrinkRows v _ _ _ _ _ => exact Journal.Logs.popMany h hbefore v.rowSize

end Edit
end Variable
end ArrayFlow
