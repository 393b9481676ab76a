import ArrayFlow.Proofs.Outcome
import ArrayFlow.Proofs.RowMajor
import ArrayFlow.View
import ArrayFlow.Word
import Mathlib.Data.Int.ModEq

/-!
# Reading through a view

A view can be read if every position of it lies in its buffer, and the buffer
is no longer than a buffer can be (`Readable`).  Then no read fails, and it
makes no difference whether the elements are fetched one by one or copied in
one piece (`elements_eq`, `toList_eq`).

A view is `Strided` if the contiguous address and the strided address of
each position agree.  This is so wherever the flag of a view says what its
strides say (`Flagged.strided`), which is how the flag is made: for the whole
of a buffer (`ofArray_flagged`) and for a view of a view (`restride_flagged`).

Where an element lies is said without regard to words (`position`).  The
address that is computed is congruent to it (`place_modEq`), and it is computed
if the view can be read: on the way the sum leads from one position of the view
to another (`place_eq`).
-/

namespace ArrayFlow
namespace View

/-- The number of elements. -/
def size (v : View) : Nat := RowMajor.size v.extents

/-- Whether strides put the elements of an array one after the other. -/
def isContiguous (extents : List Nat) (strides : List Int) : Bool :=
  extents.contains 0 ||
    (extents.zip ((RowMajor.weights extents).zip strides)).all fun (n, c, s) =>
      n ≤ 1 || signedWord c == s

/-- The whole of a buffer in row-major order. -/
def ofArray (data : Array Binary64) (extents : List Nat) : View :=
  ⟨data, 0, extents, (RowMajor.weights extents).map signedWord, true⟩

/-- Where in the buffer the element at a flat position lies. -/
def position (v : View) (flat : Nat) : Int :=
  if v.contiguous then v.offset + flat
  else v.offset + RowMajor.dot (RowMajor.coordinates v.extents flat) v.strides

/-- Every position of the view lies in its buffer, within the limits of
buffers. -/
structure Readable (v : View) : Prop where
  inside : ∀ k < v.size, 0 ≤ v.position k ∧ v.position k < v.data.size
  near : ∀ k < v.size, v.position k ≤ maxElements
  size_le : v.size ≤ maxElements
  length_strides : v.strides.length = v.extents.length

/-- Every position of the view lies where its strides say. -/
def Strided (v : View) : Prop :=
  ∀ k < v.size, v.position k = v.offset + RowMajor.dot (RowMajor.coordinates v.extents k) v.strides

/-- The view can be read, and its strides can be relied on. -/
structure Regular (v : View) : Prop where
  readable : v.Readable
  strided : v.Strided

theorem Regular.length_strides {v : View} (h : v.Regular) : v.strides.length = v.extents.length :=
  h.readable.length_strides

/-- The element at a flat position, NaN where there is none. -/
def cell (v : View) (k : Nat) : Binary64 := v.data[(v.position k).toNat]?.getD .nan

/-- The elements in row-major order. -/
def cells (v : View) : List Binary64 := (List.range v.size).map v.cell

@[simp] theorem length_cells (v : View) : v.cells.length = v.size := by simp [cells]

theorem getElem?_cells (v : View) (k : Nat) :
    v.cells[k]? = if k < v.size then some (v.cell k) else none := by
  by_cases h : k < v.size <;> simp [cells, h]

/-! ### Counting the elements -/

theorem count_eq_ok {v : View} {n : Nat} :
    v.count = .ok n ↔ RowMajor.CountsFrom 1 v.extents ∧ v.size = n := RowMajor.count_eq_ok

/-- Elements that are not too many are counted. -/
theorem count_of_size {v : View} (hz : v.size ≠ 0) (h : v.size < 2 ^ 64) : v.count = .ok v.size :=
  RowMajor.count_of_size hz h

theorem get_eq_ok {v : View} {k : Nat} {x : Binary64} :
    v.get k = .ok x ↔ v.count = .ok v.size ∧ k < v.size ∧
      ∃ place, v.place k = .ok place ∧ v.fetch place = .ok x := by
  unfold get
  rw [Outcome.bind_eq_ok]
  constructor
  · rintro ⟨n, hn, h⟩
    obtain rfl := (count_eq_ok.mp hn).2
    by_cases hk : k < v.size
    · rw [if_pos hk] at h
      exact ⟨hn, hk, Outcome.bind_eq_ok.mp h⟩
    · rw [if_neg hk] at h
      cases h
  · rintro ⟨hn, hk, h⟩
    refine ⟨_, hn, ?_⟩
    rw [if_pos hk]
    exact Outcome.bind_eq_ok.mpr h

/-! ### Reads -/

theorem fetch_eq_ok {v : View} {place : Int} {x : Binary64} :
    v.fetch place = .ok x ↔ 0 ≤ place ∧ v.data[place.toNat]? = some x := by
  unfold fetch
  by_cases hplace : 0 ≤ place
  · rw [if_pos hplace, and_iff_right hplace]
    cases v.data[place.toNat]? with
    | none => exact ⟨nofun, nofun⟩
    | some y => rw [Except.ok.injEq, Option.some.injEq]
  · rw [if_neg hplace]
    exact ⟨nofun, fun h => absurd h.1 hplace⟩

/-- What a view reads is in its buffer. -/
theorem mem_data_of_get {v : View} {k : Nat} {x : Binary64} (h : v.get k = .ok x) :
    x ∈ v.data := by
  obtain ⟨-, -, place, -, hfetch⟩ := get_eq_ok.mp h
  exact Array.mem_of_getElem? (fetch_eq_ok.mp hfetch).2

/-- What is taken out of the buffer in one piece. -/
theorem toList_eq_ok {v : View} {xs : List Binary64} (h : v.toList = .ok xs) :
    v.count = .ok v.size ∧ (v.size = 0 ∧ xs = [] ∨ v.size ≠ 0 ∧
      (v.contiguous = true ∧ v.offset + v.size < 2 ^ 64 ∧ v.offset + v.size ≤ v.data.size ∧
          xs = (v.data.extract v.offset (v.offset + v.size)).toList ∨
        v.contiguous = false ∧ v.elements = .ok xs)) := by
  obtain ⟨n, hn, h⟩ := Outcome.bind_eq_ok.mp h
  obtain rfl := (count_eq_ok.mp hn).2
  refine ⟨hn, ?_⟩
  by_cases hz : v.size = 0
  · rw [if_pos hz] at h
    exact .inl ⟨hz, (Except.ok.inj h).symm⟩
  · rw [if_neg hz] at h
    refine .inr ⟨hz, ?_⟩
    cases hc : v.contiguous with
    | false =>
      rw [hc] at h
      exact .inr ⟨rfl, h⟩
    | true =>
      rw [hc] at h
      obtain ⟨stop, hstop, h⟩ := Outcome.bind_eq_ok.mp h
      obtain ⟨hlt, rfl⟩ := word_eq_ok.mp hstop
      by_cases hfit : v.offset + v.size ≤ v.data.size
      · rw [if_pos hfit] at h
        exact .inl ⟨rfl, hlt, hfit, (Except.ok.inj h).symm⟩
      · rw [if_neg hfit] at h
        cases h

theorem mem_data_of_toList {v : View} {xs : List Binary64} (h : v.toList = .ok xs) :
    ∀ x ∈ xs, x ∈ v.data := by
  intro x hx
  obtain ⟨-, ⟨-, rfl⟩ | ⟨-, ⟨-, -, -, rfl⟩ | ⟨-, helements⟩⟩⟩ := toList_eq_ok h
  · cases hx
  · obtain ⟨k, hk⟩ := Array.mem_iff_getElem?.mp (Array.mem_toList_iff.mp hx)
    rw [Array.getElem?_extract] at hk
    split at hk
    · exact Array.mem_of_getElem? hk
    · cases hk
  · obtain ⟨n, -, h⟩ := Outcome.bind_eq_ok.mp helements
    rw [elementsFrom_eq_mapM] at h
    obtain ⟨k, -, hk⟩ := Outcome.exists_of_mem_mapM h hx
    exact mem_data_of_get hk

theorem position_of_contiguous {v : View} (hc : v.contiguous = true) (k : Nat) :
    v.position k = v.offset + k := by
  rw [position, if_pos hc]

theorem position_of_not_contiguous {v : View} (hc : v.contiguous = false) (k : Nat) :
    v.position k = v.offset + RowMajor.dot (RowMajor.coordinates v.extents k) v.strides := by
  rw [position, hc]
  rfl

/-- The address that is computed is congruent to the one that is meant. -/
theorem place_modEq {v : View} {k : Nat} {address : Int} (h : v.place k = .ok address) :
    address ≡ v.position k [ZMOD 2 ^ 64] := by
  unfold place at h
  cases hc : v.contiguous with
  | true =>
    rw [hc, if_pos rfl] at h
    obtain ⟨n, hn, h⟩ := Outcome.bind_eq_ok.mp h
    obtain ⟨-, rfl⟩ := word_eq_ok.mp hn
    rw [position_of_contiguous hc, ← Except.ok.inj h]
    push_cast
    rfl
  | false =>
    rw [hc] at h
    obtain ⟨distance, hdistance, h⟩ := Outcome.bind_eq_ok.mp h
    obtain ⟨-, rfl⟩ := signed_eq_ok.mp h
    rw [position_of_not_contiguous hc]
    have hway := RowMajor.advance_modEq hdistance
    rw [Int.zero_add] at hway
    exact (RowMajor.signedWord_modEq v.offset).add hway

/-- The sum of coordinates and strides leads from one position of a view to
another, wherever it stops. -/
theorem exists_position_of_take {v : View} (hc : v.contiguous = false) {k : Nat}
    (hk : k < v.size) (i : Nat) : ∃ j < v.size, v.position j =
      v.offset + RowMajor.dot ((RowMajor.coordinates v.extents k).take i) v.strides := by
  have hway := (RowMajor.within_coordinates hk).take i
  refine ⟨_, RowMajor.flatten_lt hway, ?_⟩
  rw [position_of_not_contiguous hc, RowMajor.coordinates_flatten hway,
    RowMajor.dot_append_zeros _ _ _ (by simp)]

/-- A view that can be read has an address for each position. -/
theorem Readable.place_eq {v : View} (h : v.Readable) {k : Nat} (hk : k < v.size) :
    v.place k = .ok (v.position k) := by
  have hmax : maxElements < 2 ^ 60 := by decide
  have hnear := h.near k hk
  unfold place
  cases hc : v.contiguous with
  | true =>
    rw [position_of_contiguous hc] at hnear ⊢
    rw [if_pos rfl, word_of_lt (by omega)]
    exact congrArg Except.ok (Nat.cast_add _ _)
  | false =>
    have hzero : (v.offset : Int) ≤ maxElements := by
      obtain ⟨j, hj, hposition⟩ := exists_position_of_take hc hk 0
      have := h.near j hj
      rw [List.take_zero, RowMajor.dot_nil] at hposition
      omega
    have hsmall : ∀ c ∈ RowMajor.coordinates v.extents k, c < 2 ^ 63 := by
      intro c hcoordinate
      have hlt : c < v.size := (RowMajor.within_coordinates hk).lt_size hcoordinate
      have := h.size_le
      omega
    have hdistance := RowMajor.advance_eq 0 v.strides hsmall fun i => by
      obtain ⟨j, hj, hposition⟩ := exists_position_of_take hc hk i
      obtain ⟨hlow, -⟩ := h.inside j hj
      have := h.near j hj
      rw [abs_lt]
      omega
    rw [Int.zero_add] at hdistance
    rw [if_neg Bool.false_ne_true]
    refine Outcome.bind_eq_ok.mpr ⟨_, hdistance, ?_⟩
    rw [signedWord_of_lt (show v.offset < 1 <<< 63 by omega), ← position_of_not_contiguous hc]
    have := (h.inside k hk).1
    exact signed_of_mem (by omega) (by omega)

theorem get_eq {v : View} (h : v.Readable) {k : Nat} (hk : k < v.size) :
    v.get k = .ok (v.cell k) := by
  have hsize := h.size_le
  have hmax : maxElements < 2 ^ 60 := by decide
  obtain ⟨hlo, hhi⟩ := h.inside k hk
  have hlt : (v.position k).toNat < v.data.size := by omega
  refine get_eq_ok.mpr ⟨count_of_size (by omega) (by omega), hk, _, h.place_eq hk, ?_⟩
  rw [fetch_eq_ok, cell, Array.getElem?_eq_getElem hlt]
  exact ⟨hlo, rfl⟩

theorem elementsFrom_eq {v : View} (h : v.Readable) {k count : Nat} (hk : k + count ≤ v.size) :
    v.elementsFrom k count = .ok ((List.range' k count).map v.cell) := by
  induction count generalizing k with
  | zero => rfl
  | succ n ih =>
    simp only [elementsFrom, get_eq h (show k < v.size by omega), ih (show k + 1 + n ≤ v.size by omega),
      List.range'_succ, List.map_cons]
    rfl

theorem elements_eq {v : View} (h : v.Readable) (hcount : v.count = .ok v.size) :
    v.elements = .ok v.cells := by
  rw [elements, hcount]
  show v.elementsFrom 0 v.size = _
  rw [elementsFrom_eq h (by omega), cells, List.range_eq_range']

/-- Copying a contiguous view in one piece gives the elements one by one. -/
theorem toList_eq {v : View} (h : v.Readable) (hcount : v.count = .ok v.size) :
    v.toList = .ok v.cells := by
  unfold toList
  rw [hcount]
  show (if v.size = 0 then _ else _) = _
  by_cases hz : v.size = 0
  · rw [if_pos hz, cells, hz]
    rfl
  · rw [if_neg hz]
    cases hc : v.contiguous with
    | true =>
      have hpos : ∀ k, v.position k = ((v.offset + k : Nat) : Int) := fun k =>
        (position_of_contiguous hc k).trans (Nat.cast_add _ _).symm
      have hlast := h.inside (v.size - 1) (by omega)
      have hnear := h.near (v.size - 1) (by omega)
      rw [hpos] at hlast hnear
      have hmax : maxElements < 2 ^ 60 := by decide
      have hfit : v.offset + v.size ≤ v.data.size := by omega
      rw [if_pos rfl, word_of_lt (by omega)]
      show (if v.offset + v.size ≤ v.data.size then _ else _) = _
      rw [if_pos hfit]
      refine congrArg Except.ok (List.ext_getElem (by simp; omega) fun k h1 h2 => ?_)
      have hk : k < v.size := by simpa using h2
      have hlt : v.offset + k < v.data.size := by omega
      have hplace : (v.position k).toNat = v.offset + k := by rw [hpos]; omega
      simp [cells, cell, hplace, Array.getElem?_eq_getElem hlt]
    | false =>
      rw [if_neg Bool.false_ne_true]
      exact elements_eq h hcount

/-- A view with elements starts where its first element lies. -/
theorem Regular.offset_lt {v : View} (h : v.Regular) (hz : v.size ≠ 0) : v.offset < 1 <<< 63 := by
  have hmax : maxElements < 2 ^ 60 := by decide
  have hpos : 0 < v.size := Nat.pos_of_ne_zero hz
  have hfirst := h.readable.near 0 hpos
  rw [h.strided 0 hpos, RowMajor.dot_coordinates_zero] at hfirst
  omega

/-! ### The flag of a view -/

/-- There is a stride for each axis, and the view counts as contiguous where
the strides say so. -/
structure Flagged (v : View) : Prop where
  length_strides : v.strides.length = v.extents.length
  contiguous_eq : v.contiguous = isContiguous v.extents v.strides

/-- Row-major strides say that a view is contiguous. -/
theorem isContiguous_weights (extents : List Nat) :
    isContiguous extents ((RowMajor.weights extents).map signedWord) = true := by
  rw [isContiguous, Bool.or_eq_true]
  right
  induction extents with
  | nil => rfl
  | cons n ns ih => simp [RowMajor.weights, ih]

/-- Where the strides are the row-major ones, up to axes with at most one
position, the strided address is the flat position. -/
theorem dot_of_isContiguous {extents : List Nat} {strides : List Int} {cs : List Nat}
    (hw : RowMajor.Within cs extents) (hlen : strides.length = extents.length)
    (hlt : RowMajor.size extents < 2 ^ 64) (hc : isContiguous extents strides = true) :
    RowMajor.dot cs strides = RowMajor.flatten cs (RowMajor.weights extents) := by
  have hnz : ∀ n ∈ extents, n ≠ 0 := by
    refine RowMajor.size_ne_zero.mp ?_
    have := RowMajor.flatten_lt hw
    omega
  rw [isContiguous, Bool.or_eq_true] at hc
  rcases hc with h0 | hc
  · exact absurd rfl (hnz 0 (by simpa using h0))
  · clear hnz
    induction hw generalizing strides with
    | nil => rfl
    | @cons c n cs ns hcn hw ih =>
      cases strides with
      | nil => simp at hlen
      | cons s ss =>
        simp only [RowMajor.weights, List.zip_cons_cons, List.all_cons, Bool.and_eq_true] at hc
        have hsize : RowMajor.size ns ≤ RowMajor.size (n :: ns) :=
          Nat.le_mul_of_pos_left _ (by omega)
        rw [RowMajor.dot_cons, RowMajor.weights, RowMajor.flatten_cons,
          ih (by simpa using hlen) (by omega) hc.2]
        have hhead : (c : Int) * s = c * (RowMajor.size ns : Int) := by
          by_cases hn : n ≤ 1
          · have : c = 0 := by omega
            simp [this]
          · -- the stride of an axis with two positions is at most half of the size
            have htwo : 2 * RowMajor.size ns ≤ RowMajor.size (n :: ns) :=
              Nat.mul_le_mul_right _ (by omega)
            have hs : signedWord (RowMajor.size ns) = s := by simpa [hn] using hc.1
            rw [← hs, signedWord_of_lt (by omega)]
        rw [hhead]
        push_cast
        rfl

/-- Where the flag says what the strides say, the contiguous address and the
strided one agree, if the size is a word. -/
theorem Flagged.strided {v : View} (h : v.Flagged) (hsize : v.size < 2 ^ 64) : v.Strided := by
  intro k hk
  unfold position
  split
  · next hc =>
    rw [dot_of_isContiguous (RowMajor.within_coordinates hk) h.length_strides hsize
      (h.contiguous_eq ▸ hc), RowMajor.flatten_coordinates hk]
  · rfl

/-! ### The whole of a buffer -/

@[simp] theorem size_ofArray (data : Array Binary64) (extents : List Nat) :
    (ofArray data extents).size = RowMajor.size extents := rfl

theorem position_ofArray (data : Array Binary64) (extents : List Nat) (k : Nat) :
    (ofArray data extents).position k = k := by
  simp [position, ofArray]

theorem layOut_eq (data : Array Binary64) (extents : List Nat) :
    layOut data extents =
      if RowMajor.LaysOut extents then .ok (ofArray data extents) else .error .overflow := by
  unfold layOut
  rw [RowMajor.strides_eq]
  split
  · rfl
  · rfl

theorem layOut_eq_ok {data : Array Binary64} {extents : List Nat} {v : View} :
    layOut data extents = .ok v ↔ RowMajor.LaysOut extents ∧ ofArray data extents = v := by
  rw [layOut_eq, Outcome.if_eq_ok]

theorem ofArray_flagged (data : Array Binary64) (extents : List Nat) :
    (ofArray data extents).Flagged where
  length_strides := by simp [ofArray]
  contiguous_eq := (isContiguous_weights extents).symm

theorem ofArray_readable {data : Array Binary64} {extents : List Nat}
    (h : RowMajor.size extents ≤ data.size) (hle : RowMajor.size extents ≤ maxElements) :
    (ofArray data extents).Readable where
  inside k hk := by
    rw [position_ofArray]
    have hdata : (ofArray data extents).data = data := rfl
    rw [size_ofArray] at hk
    rw [hdata]
    omega
  near k hk := by
    rw [position_ofArray]
    rw [size_ofArray] at hk
    omega
  size_le := hle
  length_strides := (ofArray_flagged data extents).length_strides

theorem ofArray_regular {data : Array Binary64} {extents : List Nat}
    (h : RowMajor.size extents ≤ data.size) (hle : RowMajor.size extents ≤ maxElements) :
    (ofArray data extents).Regular where
  readable := ofArray_readable h hle
  strided := (ofArray_flagged data extents).strided
    (show RowMajor.size extents < 2 ^ 64 from Nat.lt_of_le_of_lt hle (by decide))

theorem cell_ofArray (data : Array Binary64) (extents : List Nat) (k : Nat) :
    (ofArray data extents).cell k = data[k]?.getD .nan := by
  rw [cell, position_ofArray]; rfl

theorem cells_ofArray {data : Array Binary64} {extents : List Nat}
    (h : data.size = RowMajor.size extents) : (ofArray data extents).cells = data.toList := by
  apply List.ext_getElem
  · simp [h]
  · intro k h1 h2
    have hk : k < data.size := by simpa using h2
    simp [cells, cell_ofArray, Array.getElem?_eq_getElem hk]

/-- What is laid out is taken out again. -/
theorem toList_ofArray {data : Array Binary64} {extents : List Nat}
    (h : RowMajor.count extents = .ok data.size) :
    (ofArray data extents).toList = .ok data.toList := by
  obtain ⟨hcounts, hsize⟩ := RowMajor.count_eq_ok.mp h
  have hlt : data.size < 2 ^ 64 := by
    have := hcounts.size_lt (by decide)
    omega
  have hcount : (ofArray data extents).count = .ok data.size := h
  unfold toList
  rw [hcount]
  show (if data.size = 0 then _ else _) = _
  by_cases hz : data.size = 0
  · rw [if_pos hz, Array.toList_eq_nil_iff.mpr (Array.eq_empty_of_size_eq_zero hz)]
    rfl
  · rw [if_neg hz]
    show (word (0 + data.size) >>= fun stop => _) = _
    rw [word_eq_ok.mpr ⟨by omega, rfl⟩, Nat.zero_add, Outcome.ok_bind]
    show (if data.size ≤ data.size then _ else _) = _
    rw [if_pos (Nat.le_refl _)]
    show Except.ok (data.extract 0 data.size).toList = _
    rw [Array.extract_size]

/-! ### Views of views -/

/-- The view of the same buffer from `start` on. -/
def movedTo (v : View) (start : Nat) (extents : List Nat) (strides : List Int) : View :=
  ⟨v.data, start, extents, strides, isContiguous extents strides⟩

theorem runsOn_eq (extents : List Nat) (strides : List Int) :
    runsOn extents strides = if extents.contains 0 = true ∨ RowMajor.LaysOut extents
      then .ok (isContiguous extents strides) else .error .overflow := by
  unfold runsOn isContiguous
  by_cases h0 : extents.contains 0 = true
  · rw [if_pos h0, if_pos (.inl h0), h0]
    rfl
  · rw [if_neg h0, RowMajor.strides_eq, Bool.eq_false_iff.mpr h0]
    by_cases h : RowMajor.LaysOut extents
    · rw [if_pos h, if_pos (.inr h)]
      rfl
    · rw [if_neg h, if_neg fun h' => h'.elim Bool.false_ne_true h]
      rfl

/-- A view of a view starts where the sum of the offsets says. -/
theorem restride_eq_ok {v w : View} {offset : Int} {extents : List Nat} {strides : List Int} :
    v.restride offset extents strides = .ok w ↔ ∃ start,
      signed (signedWord v.offset + offset) = .ok start ∧
        (extents.contains 0 = true ∨ 0 ≤ start ∧ RowMajor.LaysOut extents) ∧
          v.movedTo start.toNat extents strides = w := by
  unfold restride
  rw [Outcome.bind_eq_ok]
  refine exists_congr fun start => and_congr_right fun _ => ?_
  by_cases h0 : extents.contains 0 = true
  · have hpass : ¬ (start < 0 ∧ (!extents.contains 0) = true) := by
      rw [h0]
      exact fun h => Bool.false_ne_true h.2
    rw [if_neg hpass, runsOn_eq, if_pos (.inl h0), and_iff_right (.inl h0)]
    show Except.ok (v.movedTo _ _ _) = _ ↔ _
    rw [Except.ok.injEq]
  · rw [or_iff_right h0]
    by_cases hstart : 0 ≤ start
    · rw [if_neg fun h => absurd h.1 (Int.not_lt.mpr hstart), runsOn_eq, and_iff_right hstart]
      by_cases h : RowMajor.LaysOut extents
      · rw [if_pos (.inr h), and_iff_right h]
        show Except.ok (v.movedTo _ _ _) = _ ↔ _
        rw [Except.ok.injEq]
      · rw [if_neg fun h' => h'.elim h0 h]
        exact ⟨nofun, fun h' => absurd h'.1 h⟩
    · rw [if_pos ⟨Int.not_le.mp hstart, by rw [Bool.eq_false_iff.mpr h0]; rfl⟩]
      exact ⟨nofun, fun h' => absurd h'.1.1 hstart⟩

theorem movedTo_flagged (v : View) (start : Nat) {extents : List Nat} {strides : List Int}
    (hlen : strides.length = extents.length) : (v.movedTo start extents strides).Flagged where
  length_strides := hlen
  contiguous_eq := rfl

/-- Where a view of a view finds its elements. -/
theorem movedTo_position {v : View} {start : Nat} {extents : List Nat} {strides : List Int}
    (hlen : strides.length = extents.length) (hlt : RowMajor.size extents < 2 ^ 64) {k : Nat}
    (hk : k < RowMajor.size extents) :
    (v.movedTo start extents strides).position k =
      start + RowMajor.dot (RowMajor.coordinates extents k) strides :=
  (v.movedTo_flagged start hlen).strided hlt k hk

end View
end ArrayFlow
