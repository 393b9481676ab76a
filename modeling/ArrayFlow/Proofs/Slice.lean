import ArrayFlow.Proofs.Outcome
import ArrayFlow.Proofs.Word
import ArrayFlow.Slice
import Mathlib.Data.List.Sort
import Mathlib.Tactic.Ring

/-!
# Slices stay on their axis

A slice that is resolved gives the range that its formulas name
(`resolve?_eq_ok`), and it is resolved unless a bound or the step is at the end
of the signed words (`resolve?_eq_range?`).  Against an extent below `2 ^ 63`
that range selects positions of the axis only (`range?_on`), each of them
once: a position is found again by its number (`indexOf?_position`), and
nothing else is found (`position_of_indexOf?`).

Which positions those are can be said without a computation of bounds and of a
number of steps: all that the slice hits, in the direction of its step
(`Slice.selected`).  The range of a slice has just these (`exists_range?`).
-/

namespace ArrayFlow
namespace SliceRange

/-- The range has a step and keeps to an axis of `n` positions.  One without
positions starts there too, or right beside it. -/
structure On (r : SliceRange) (n : Nat) : Prop where
  step_ne_zero : r.step ≠ 0
  le_start : -1 ≤ r.start
  start_le : r.start ≤ n
  inside : ∀ k < r.length, 0 ≤ r.start + k * r.step ∧ r.start + k * r.step < n

/-- The position number `k` of a range. -/
def position (r : SliceRange) (k : Nat) : Nat := (r.start + k * r.step).toNat

/-- Which of the positions of a range `c` is, if it is one. -/
def indexOf? (r : SliceRange) (c : Nat) : Option Nat :=
  let distance := (c : Int) - r.start
  let k := distance.tdiv r.step
  if distance % r.step = 0 ∧ 0 ≤ k ∧ k.toNat < r.length then some k.toNat else none

namespace On

variable {r : SliceRange} {n : Nat}

theorem position_lt (h : r.On n) {k : Nat} (hk : k < r.length) : r.position k < n := by
  have := h.inside k hk
  unfold position
  omega

theorem cast_position (h : r.On n) {k : Nat} (hk : k < r.length) :
    (r.position k : Int) = r.start + k * r.step :=
  Int.toNat_of_nonneg (h.inside k hk).1

/-- A position of the range is found. -/
theorem indexOf?_position (h : r.On n) {k : Nat} (hk : k < r.length) :
    r.indexOf? (r.position k) = some k := by
  have hd : (r.position k : Int) - r.start = k * r.step := by
    rw [h.cast_position hk]; omega
  simp only [indexOf?, hd, Int.mul_emod_left, Int.mul_tdiv_cancel _ h.step_ne_zero]
  rw [if_pos ⟨trivial, by omega, by omega⟩, Int.toNat_natCast]

/-- What is found is a position of the range. -/
theorem position_of_indexOf? (h : r.On n) {c k : Nat} (hk : r.indexOf? c = some k) :
    k < r.length ∧ r.position k = c := by
  simp only [indexOf?] at hk
  split at hk
  · next hfound =>
    obtain ⟨hmod, hnonneg, hlen⟩ := hfound
    obtain rfl := Option.some.inj hk
    refine ⟨hlen, ?_⟩
    have hdvd : r.step ∣ (c : Int) - r.start := Int.dvd_of_emod_eq_zero hmod
    have hmul := Int.tdiv_mul_cancel hdvd
    have hplace := h.cast_position hlen
    rw [Int.toNat_of_nonneg hnonneg, hmul] at hplace
    omega
  · cases hk

/-- What is looked for is found without an overflow, on an axis whose positions
have a sign to spare. -/
theorem find?_eq (h : r.On n) {c : Nat} (hc : c + 1 < 2 ^ 63) (hn : n < 2 ^ 63) :
    r.find? c = .ok (r.indexOf? c) := by
  have hlow := h.le_start
  have hhigh := h.start_le
  have hdistance : ((c : Int) - r.start).tdiv r.step ≤ 2 ^ 63 - 1 ∧
      -(2 ^ 63 - 1) ≤ ((c : Int) - r.start).tdiv r.step := by
    have := Int.natAbs_tdiv_le_natAbs ((c : Int) - r.start) r.step
    omega
  rw [find?, signedWord_of_lt (show c < 1 <<< 63 by omega), signed_of_mem (by omega) (by omega)]
  show signed (((c : Int) - r.start).tdiv r.step) >>= _ = _
  rw [signed_of_mem (by omega) (by omega)]
  rfl

/-- A range has no more positions than its axis. -/
theorem length_le (h : r.On n) : r.length ≤ n := by
  rcases Nat.eq_zero_or_pos r.length with h0 | hpos
  · omega
  · obtain ⟨hlo, hhi⟩ := h.inside 0 hpos
    obtain ⟨hlo', hhi'⟩ := h.inside (r.length - 1) (by omega)
    have hlast : (0 : Int) ≤ ((r.length - 1 : Nat) : Int) := Int.natCast_nonneg _
    rw [Int.natCast_zero, Int.zero_mul, Int.add_zero] at hlo hhi
    rcases Int.lt_or_gt_of_ne h.step_ne_zero with hneg | hstep
    · have := Int.mul_le_mul_of_nonneg_left (show r.step ≤ -1 by omega) hlast
      omega
    · have := Int.mul_le_mul_of_nonneg_left (show 1 ≤ r.step by omega) hlast
      omega

/-! ### The positions of a range -/

/-- A position of the axis is one of the range if whole steps lead to it. -/
theorem mem_positions (h : r.On n) {p : Nat} :
    p ∈ (List.range r.length).map r.position ↔
      ∃ k : Nat, k < r.length ∧ (p : Int) = r.start + k * r.step := by
  simp only [List.mem_map, List.mem_range]
  constructor
  · rintro ⟨k, hk, rfl⟩
    exact ⟨k, hk, h.cast_position hk⟩
  · rintro ⟨k, hk, hp⟩
    refine ⟨k, hk, ?_⟩
    have := h.cast_position hk
    omega

theorem positions_lt (h : r.On n) (hs : 0 < r.step) :
    ((List.range r.length).map r.position).Pairwise (· < ·) := by
  refine List.pairwise_map.mpr (List.pairwise_lt_range.imp_of_mem fun hk hk' hlt => ?_)
  have hcast := h.cast_position (List.mem_range.mp hk)
  have hcast' := h.cast_position (List.mem_range.mp hk')
  have := Int.mul_lt_mul_of_pos_right (Int.ofNat_lt.mpr hlt) hs
  omega

theorem positions_gt (h : r.On n) (hs : r.step < 0) :
    ((List.range r.length).map r.position).Pairwise (· > ·) := by
  refine List.pairwise_map.mpr (List.pairwise_lt_range.imp_of_mem fun hk hk' hlt => ?_)
  have hcast := h.cast_position (List.mem_range.mp hk)
  have hcast' := h.cast_position (List.mem_range.mp hk')
  have := Int.mul_lt_mul_of_neg_right (Int.ofNat_lt.mpr hlt) hs
  omega

end On
end SliceRange

namespace Slice

/-! ### The arithmetic of a slice -/

/-- Where a bound on an axis of extent `n` is moved to. -/
def clipped (n : Int) (bound : Option Int) (default low high : Int) : Int :=
  match bound with
  | none => default
  | some b => if b < 0 then max (b + n) low else min b high

/-- The range that the formulas of a slice name. -/
def range? (s : Slice) (extent : Nat) : Option SliceRange :=
  let n := signedWord extent
  if 0 < s.step then
    let start := clipped n s.start 0 0 n
    let stop := clipped n s.stop n 0 n
    let length := if start < stop then (stop - start - 1) / s.step + 1 else 0
    some ⟨start, s.step, length.toNat⟩
  else if s.step < 0 then
    let start := clipped n s.start (n - 1) (-1) (n - 1)
    let stop := clipped n s.stop (-1) (-1) (n - 1)
    let length := if stop < start then (start - stop - 1) / -s.step + 1 else 0
    some ⟨start, s.step, length.toNat⟩
  else none

/-- No bound of a slice lies below the signed words, and its step can be
turned around. -/
structure InWords (s : Slice) : Prop where
  start : ∀ b ∈ s.start, -2 ^ 63 ≤ b
  stop : ∀ b ∈ s.stop, -2 ^ 63 ≤ b
  step : -2 ^ 63 < s.step

section Arithmetic

variable {n : Int} {bound : Option Int} {default low high : Int}

theorem clip_eq_ok {c : Int} (h : clip n bound default low high = .ok c) :
    clipped n bound default low high = c := by
  cases bound with
  | none => exact Except.ok.inj h
  | some b =>
    unfold clip at h
    unfold clipped
    by_cases hb : b < 0
    · simp only [hb, if_true] at h ⊢
      obtain ⟨c', hc, rfl⟩ := Outcome.map_eq_ok.mp h
      rw [(signed_eq_ok.mp hc).2]
    · simp only [hb, if_false] at h ⊢
      exact Except.ok.inj h

theorem clip_eq (hn : 0 ≤ n ∧ n < 2 ^ 63) (hb : ∀ b ∈ bound, -2 ^ 63 ≤ b) :
    clip n bound default low high = .ok (clipped n bound default low high) := by
  cases bound with
  | none => rfl
  | some b =>
    have := hb b rfl
    unfold clip clipped
    by_cases hneg : b < 0
    · simp only [hneg, if_true]
      rw [signed_of_mem (by omega) (by omega)]
      rfl
    · simp only [hneg, if_false]

theorem clip_eq_error {f : Fault} (h : clip n bound default low high = .error f) :
    f = .overflow := by
  cases bound with
  | none => cases h
  | some b =>
    simp only [clip] at h
    split at h
    · exact (signed_eq_error.mp (Outcome.map_eq_error.mp h)).2
    · cases h

theorem stepsWithin_eq_ok {distance step length : Int} (h : stepsWithin distance step = .ok length) :
    (distance - 1) / step + 1 = length := by
  obtain ⟨last, hlast, h⟩ := Outcome.bind_eq_ok.mp h
  obtain ⟨-, rfl⟩ := signed_eq_ok.mp hlast
  exact (signed_eq_ok.mp h).2

theorem stepsWithin_eq {distance step : Int} (hd : 0 < distance ∧ distance < 2 ^ 63)
    (hs : 0 < step) : stepsWithin distance step = .ok ((distance - 1) / step + 1) := by
  have hle : (distance - 1) / step ≤ distance - 1 := Int.ediv_le_self _ (by omega)
  have hnonneg : 0 ≤ (distance - 1) / step := Int.ediv_nonneg (by omega) (by omega)
  rw [stepsWithin, signed_of_mem (by omega) (by omega)]
  exact signed_of_mem (by omega) (by omega)

theorem stepsWithin_eq_error {distance step : Int} {f : Fault}
    (h : stepsWithin distance step = .error f) : f = .overflow := by
  rcases Outcome.bind_eq_error.mp h with h | ⟨last, -, h⟩
  · exact (signed_eq_error.mp h).2
  · exact (signed_eq_error.mp h).2

end Arithmetic

theorem clipped_mem (n default low high : Int) (hd : low ≤ default ∧ default ≤ high)
    (hlh : low ≤ high) (hlow : low ≤ 0) (hhigh : n - 1 ≤ high) (bound : Option Int) :
    low ≤ clipped n bound default low high ∧ clipped n bound default low high ≤ high := by
  cases bound with
  | none => exact hd
  | some b =>
    simp only [clipped]
    split <;> omega

/-- A slice that is resolved gives the range that its formulas name. -/
theorem resolve?_eq_ok {s : Slice} {n : Nat} {r : Option SliceRange} (h : s.resolve? n = .ok r) :
    s.range? n = r := by
  unfold resolve? at h
  unfold range?
  by_cases hpos : 0 < s.step
  · simp only [hpos, if_true] at h ⊢
    obtain ⟨start, hstart, h⟩ := Outcome.bind_eq_ok.mp h
    obtain ⟨stop, hstop, h⟩ := Outcome.bind_eq_ok.mp h
    rw [clip_eq_ok hstart, clip_eq_ok hstop]
    split at h
    · next hlt =>
      obtain ⟨distance, hdistance, h⟩ := Outcome.bind_eq_ok.mp h
      obtain ⟨-, rfl⟩ := signed_eq_ok.mp hdistance
      obtain ⟨length, hlength, h⟩ := Outcome.bind_eq_ok.mp h
      rw [if_pos hlt, stepsWithin_eq_ok hlength]
      exact Except.ok.inj h
    · next hlt =>
      rw [if_neg hlt]
      exact Except.ok.inj h
  · by_cases hneg : s.step < 0
    · simp only [hpos, hneg, if_true, if_false] at h ⊢
      obtain ⟨last, hlast, h⟩ := Outcome.bind_eq_ok.mp h
      obtain ⟨-, rfl⟩ := signed_eq_ok.mp hlast
      obtain ⟨start, hstart, h⟩ := Outcome.bind_eq_ok.mp h
      obtain ⟨stop, hstop, h⟩ := Outcome.bind_eq_ok.mp h
      rw [clip_eq_ok hstart, clip_eq_ok hstop]
      split at h
      · next hlt =>
        obtain ⟨distance, hdistance, h⟩ := Outcome.bind_eq_ok.mp h
        obtain ⟨-, rfl⟩ := signed_eq_ok.mp hdistance
        obtain ⟨back, hback, h⟩ := Outcome.bind_eq_ok.mp h
        obtain ⟨-, rfl⟩ := signed_eq_ok.mp hback
        obtain ⟨length, hlength, h⟩ := Outcome.bind_eq_ok.mp h
        rw [if_pos hlt, stepsWithin_eq_ok hlength]
        exact Except.ok.inj h
      · next hlt =>
        rw [if_neg hlt]
        exact Except.ok.inj h
    · simp only [hpos, hneg, if_false] at h ⊢
      exact Except.ok.inj h

/-- Nothing but an overflow can happen to a slice. -/
theorem resolve?_eq_error {s : Slice} {n : Nat} {f : Fault} (h : s.resolve? n = .error f) :
    f = .overflow := by
  unfold resolve? at h
  split at h
  · rcases Outcome.bind_eq_error.mp h with h | ⟨start, -, h⟩
    · exact clip_eq_error h
    rcases Outcome.bind_eq_error.mp h with h | ⟨stop, -, h⟩
    · exact clip_eq_error h
    simp only at h
    split at h
    · rcases Outcome.bind_eq_error.mp h with h | ⟨distance, -, h⟩
      · exact (signed_eq_error.mp h).2
      rcases Outcome.bind_eq_error.mp h with h | ⟨length, -, h⟩
      · exact stepsWithin_eq_error h
      · cases h
    · cases h
  · split at h
    · rcases Outcome.bind_eq_error.mp h with h | ⟨last, -, h⟩
      · exact (signed_eq_error.mp h).2
      rcases Outcome.bind_eq_error.mp h with h | ⟨start, -, h⟩
      · exact clip_eq_error h
      rcases Outcome.bind_eq_error.mp h with h | ⟨stop, -, h⟩
      · exact clip_eq_error h
      simp only at h
      split at h
      · rcases Outcome.bind_eq_error.mp h with h | ⟨distance, -, h⟩
        · exact (signed_eq_error.mp h).2
        rcases Outcome.bind_eq_error.mp h with h | ⟨back, -, h⟩
        · exact (signed_eq_error.mp h).2
        rcases Outcome.bind_eq_error.mp h with h | ⟨length, -, h⟩
        · exact stepsWithin_eq_error h
        · cases h
      · cases h
    · cases h

/-- A slice selects positions of the axis it is resolved against. -/
theorem range?_on {s : Slice} {n : Nat} {r : SliceRange} (hn : n < 2 ^ 63)
    (h : s.range? n = some r) : r.On n := by
  unfold range? at h
  rw [signedWord_of_lt hn] at h
  by_cases hpos : 0 < s.step
  · simp only [hpos, if_true, Option.some.injEq] at h
    obtain ⟨hlo, hstart⟩ := clipped_mem n 0 0 n
      (by omega) (by omega) (by omega) (by omega) s.start
    obtain ⟨-, hhi⟩ := clipped_mem n n 0 n
      (by omega) (by omega) (by omega) (by omega) s.stop
    generalize clipped n s.start 0 0 n = start at h hlo hstart
    generalize clipped n s.stop n 0 n = stop at h hhi
    subst h
    refine ⟨by show s.step ≠ 0; omega, by show -1 ≤ start; omega, by show start ≤ n; omega,
      fun k hk => ?_⟩
    simp only at hk ⊢
    split at hk
    · next hlt =>
      have hdiv : (k : Int) ≤ (stop - start - 1) / s.step := by omega
      have hmul := (Int.le_ediv_iff_mul_le hpos).mp hdiv
      have := Int.mul_nonneg (Int.natCast_nonneg k) (Int.le_of_lt hpos)
      omega
    · omega
  · by_cases hneg : s.step < 0
    · simp only [hpos, hneg, if_true, if_false, Option.some.injEq] at h
      obtain ⟨hstart, hhi⟩ := clipped_mem n (n - 1) (-1) (n - 1)
        (by omega) (by omega) (by omega) (by omega) s.start
      obtain ⟨hlo, -⟩ := clipped_mem n (-1) (-1) (n - 1)
        (by omega) (by omega) (by omega) (by omega) s.stop
      generalize clipped n s.start (n - 1) (-1) (n - 1) = start at h hstart hhi
      generalize clipped n s.stop (-1) (-1) (n - 1) = stop at h hlo
      subst h
      refine ⟨by show s.step ≠ 0; omega, by show -1 ≤ start; omega, by show start ≤ n; omega,
      fun k hk => ?_⟩
      simp only at hk ⊢
      split at hk
      · next hlt =>
        have hstep : 0 < -s.step := by omega
        have hdiv : (k : Int) ≤ (start - stop - 1) / -s.step := by omega
        have hmul := (Int.le_ediv_iff_mul_le hstep).mp hdiv
        have hflip := Int.mul_neg (k : Int) s.step
        have := Int.mul_nonneg (Int.natCast_nonneg k) (Int.le_of_lt hstep)
        omega
      · omega
    · simp [hpos, hneg] at h

/-- The steps that are counted are a signed word. -/
theorem stepsWithin_lt {distance step length : Int} (h : stepsWithin distance step = .ok length) :
    length < 2 ^ 63 := by
  obtain ⟨last, -, h⟩ := Outcome.bind_eq_ok.mp h
  obtain ⟨hword, rfl⟩ := signed_eq_ok.mp h
  exact hword.2

/-- A slice leaves no more positions than there are, not even of an axis that
is too long for a sign. -/
theorem length_le_of_resolve? {s : Slice} {n : Nat} {r : SliceRange}
    (h : s.resolve? n = .ok (some r)) : r.length ≤ n := by
  by_cases hn : n < 2 ^ 63
  · exact (range?_on hn (resolve?_eq_ok h)).length_le
  -- the number of steps is a signed word
  have hle : r.length ≤ 2 ^ 63 := by
    unfold resolve? at h
    split at h
    · obtain ⟨start, -, h⟩ := Outcome.bind_eq_ok.mp h
      obtain ⟨stop, -, h⟩ := Outcome.bind_eq_ok.mp h
      simp only at h
      split at h
      · obtain ⟨distance, -, h⟩ := Outcome.bind_eq_ok.mp h
        obtain ⟨length, hlength, h⟩ := Outcome.bind_eq_ok.mp h
        obtain rfl := Option.some.inj (Except.ok.inj h)
        have := stepsWithin_lt hlength
        show length.toNat ≤ 2 ^ 63
        omega
      · obtain rfl := Option.some.inj (Except.ok.inj h)
        exact Nat.zero_le _
    · split at h
      · obtain ⟨last, -, h⟩ := Outcome.bind_eq_ok.mp h
        obtain ⟨start, -, h⟩ := Outcome.bind_eq_ok.mp h
        obtain ⟨stop, -, h⟩ := Outcome.bind_eq_ok.mp h
        simp only at h
        split at h
        · obtain ⟨distance, -, h⟩ := Outcome.bind_eq_ok.mp h
          obtain ⟨back, -, h⟩ := Outcome.bind_eq_ok.mp h
          obtain ⟨length, hlength, h⟩ := Outcome.bind_eq_ok.mp h
          obtain rfl := Option.some.inj (Except.ok.inj h)
          have := stepsWithin_lt hlength
          show length.toNat ≤ 2 ^ 63
          omega
        · obtain rfl := Option.some.inj (Except.ok.inj h)
          exact Nat.zero_le _
      · cases h
  omega

/-- A slice whose bounds and step are words is resolved without an overflow. -/
theorem resolve?_eq_range? {s : Slice} {n : Nat} (hn : n < 2 ^ 63) (hs : s.InWords) :
    s.resolve? n = .ok (s.range? n) := by
  have hword := signedWord_of_lt (show n < 1 <<< 63 from hn)
  unfold resolve? range?
  rw [hword]
  by_cases hpos : 0 < s.step
  · simp only [hpos, if_true]
    obtain ⟨hlow, hstart⟩ := clipped_mem n 0 0 n (by omega) (by omega) (by omega) (by omega) s.start
    obtain ⟨-, hstop⟩ := clipped_mem n n 0 n (by omega) (by omega) (by omega) (by omega) s.stop
    rw [clip_eq (by omega) hs.start, clip_eq (by omega) hs.stop]
    generalize clipped n s.start 0 0 n = start at hlow hstart
    generalize clipped n s.stop n 0 n = stop at hstop
    by_cases hlt : start < stop
    · simp only [Outcome.ok_bind, hlt, if_true]
      rw [signed_of_mem (by omega) (by omega), Outcome.ok_bind,
        stepsWithin_eq (by omega) hpos]
      rfl
    · simp only [Outcome.ok_bind, hlt, if_false]
      rfl
  · by_cases hneg : s.step < 0
    · have hstep := hs.step
      simp only [hpos, hneg, if_true, if_false]
      rw [signed_of_mem (by omega) (by omega), Outcome.ok_bind]
      obtain ⟨hlow, hstart⟩ := clipped_mem n (n - 1) (-1) (n - 1)
        (by omega) (by omega) (by omega) (by omega) s.start
      obtain ⟨hstop, -⟩ := clipped_mem n (-1) (-1) (n - 1)
        (by omega) (by omega) (by omega) (by omega) s.stop
      rw [clip_eq (by omega) hs.start, clip_eq (by omega) hs.stop]
      generalize clipped n s.start (n - 1) (-1) (n - 1) = start at hlow hstart
      generalize clipped n s.stop (-1) (-1) (n - 1) = stop at hstop
      by_cases hlt : stop < start
      · simp only [Outcome.ok_bind, hlt, if_true]
        rw [signed_of_mem (by omega) (by omega), Outcome.ok_bind,
          signed_of_mem (by omega) (by omega), Outcome.ok_bind, stepsWithin_eq (by omega) (by omega)]
        rfl
      · simp only [Outcome.ok_bind, hlt, if_false]
        rfl
    · simp only [hpos, hneg, if_false]
      rfl

/-! ### What a slice selects -/

/-- Where a bound points on an axis of `n` positions; a negative one counts
from the end. -/
def place (n : Nat) (b : Int) : Int := if b < 0 then b + n else b

/-- The position from which a slice goes, if it is on the axis. -/
def first (s : Slice) (n : Nat) : Int :=
  if 0 < s.step then max 0 (place n (s.start.getD 0))
  else min (n - 1) (place n (s.start.getD (n - 1)))

/-- Whether a slice comes by a position: it lies a multiple of the step away
from the first one, in the direction of the step, and before the stop. -/
def Hits (s : Slice) (n p : Nat) : Prop :=
  s.step ∣ p - s.first n ∧
    if 0 < s.step then s.first n ≤ p ∧ ∀ b ∈ s.stop, p < place n b
    else p ≤ s.first n ∧ ∀ b ∈ s.stop, place n b < p

instance (s : Slice) (n p : Nat) : Decidable (s.Hits n p) := by
  unfold Hits
  infer_instance

/-- The positions that a slice selects on an axis of `n` positions, in the
direction of its step. -/
def selected (s : Slice) (n : Nat) : List Nat :=
  (if 0 < s.step then List.range n else (List.range n).reverse).filter (s.Hits n ·)

/-- The steps that a range takes from `a` stay before `b`. -/
theorem lt_steps {a b t : Int} (ht : 0 < t) (k : Nat) :
    k < (if a < b then (b - a - 1) / t + 1 else 0).toNat ↔ a + k * t < b := by
  have hmul := Int.mul_nonneg (Int.natCast_nonneg k) (Int.le_of_lt ht)
  split
  · next hlt =>
    have hnonneg := Int.ediv_nonneg (show 0 ≤ b - a - 1 by omega) (Int.le_of_lt ht)
    have hle := @Int.le_ediv_iff_mul_le (k : Int) (b - a - 1) t ht
    omega
  · omega

/-- A position of an axis is reached by steps up from `a`, before `b`, if it
lies between them on the grid of the steps. -/
theorem exists_steps {a b t p : Int} (ht : 0 < t) :
    (∃ k : Nat, k < (if a < b then (b - a - 1) / t + 1 else 0).toNat ∧ p = a + k * t) ↔
      t ∣ p - a ∧ a ≤ p ∧ p < b := by
  simp only [lt_steps ht]
  constructor
  · rintro ⟨k, hk, rfl⟩
    have := Int.mul_nonneg (Int.natCast_nonneg k) (Int.le_of_lt ht)
    exact ⟨⟨k, by ring⟩, by omega, hk⟩
  · rintro ⟨⟨k, hk⟩, hle, hlt⟩
    have hk0 : 0 ≤ k := by
      by_contra hneg
      have := Int.mul_neg_of_pos_of_neg ht (Int.not_le.mp hneg)
      omega
    have hp : p = a + (k.toNat : Int) * t := by
      rw [Int.toNat_of_nonneg hk0, Int.mul_comm]
      omega
    exact ⟨k.toNat, hp ▸ hlt, hp⟩

theorem exists_steps_down {a b t p : Int} (ht : t < 0) :
    (∃ k : Nat, k < (if b < a then (a - b - 1) / -t + 1 else 0).toNat ∧ p = a + k * t) ↔
      t ∣ p - a ∧ p ≤ a ∧ b < p := by
  have hsteps := @exists_steps (-a) (-b) (-t) (-p) (by omega)
  simp only [Int.mul_neg, Int.neg_lt_neg_iff, Int.neg_dvd, Int.neg_le_neg_iff,
    show -b - -a - 1 = a - b - 1 by omega, show -p - -a = -(p - a) by omega, Int.dvd_neg] at hsteps
  rw [← hsteps]
  refine exists_congr fun k => and_congr_right fun _ => ?_
  omega

section Bounds

variable {n p : Nat} (b : Option Int)

theorem clipped_start (hp : p < n) :
    clipped n b 0 0 n = max 0 (place n (b.getD 0)) ∨
      p < clipped n b 0 0 n ∧ p < max 0 (place n (b.getD 0)) := by
  cases b with
  | none => exact .inl rfl
  | some x =>
    simp only [clipped, place, Option.getD_some]
    split <;> omega

theorem lt_clipped_stop (hp : p < n) : (p : Int) < clipped n b n 0 n ↔ ∀ x ∈ b, p < place n x := by
  cases b with
  | none => simpa [clipped] using hp
  | some x =>
    simp only [clipped, place, Option.mem_some_iff, forall_eq']
    split <;> omega

theorem clipped_start_down (hp : p < n) :
    clipped n b (n - 1) (-1) (n - 1) = min ((n : Int) - 1) (place n (b.getD (n - 1))) ∨
      clipped n b (n - 1) (-1) (n - 1) < p ∧ min ((n : Int) - 1) (place n (b.getD (n - 1))) < p := by
  cases b with
  | none =>
    simp only [clipped, place, Option.getD_none]
    split <;> omega
  | some x =>
    simp only [clipped, place, Option.getD_some]
    split <;> omega

theorem clipped_stop_lt (hp : p < n) :
    clipped n b (-1) (-1) (n - 1) < p ↔ ∀ x ∈ b, place n x < p := by
  cases b with
  | none =>
    simp only [clipped, Option.not_mem_none, false_imp_iff, implies_true, iff_true]
    omega
  | some x =>
    simp only [clipped, place, Option.mem_some_iff, forall_eq']
    split <;> omega

end Bounds

variable {s : Slice} {n : Nat}

theorem hits_up (hs : 0 < s.step) {p : Nat} (hp : p < n) : s.Hits n p ↔
    s.step ∣ p - clipped n s.start 0 0 n ∧ clipped n s.start 0 0 n ≤ p ∧ p < clipped n s.stop n 0 n := by
  unfold Hits first
  rw [if_pos hs, if_pos hs, lt_clipped_stop s.stop hp]
  rcases clipped_start s.start hp with heq | ⟨hlt, hlt'⟩
  · rw [heq]
  · exact ⟨fun h => by omega, fun h => by omega⟩

theorem hits_down (hs : s.step < 0) {p : Nat} (hp : p < n) : s.Hits n p ↔
    s.step ∣ p - clipped n s.start (n - 1) (-1) (n - 1) ∧
      p ≤ clipped n s.start (n - 1) (-1) (n - 1) ∧ clipped n s.stop (-1) (-1) (n - 1) < p := by
  unfold Hits first
  rw [if_neg (by omega), if_neg (by omega), clipped_stop_lt s.stop hp]
  rcases clipped_start_down s.start hp with heq | ⟨hlt, hlt'⟩
  · rw [heq]
  · exact ⟨fun h => by omega, fun h => by omega⟩

/-- **A slice resolves to the positions that it selects.** -/
theorem exists_range? (hn : n < 2 ^ 63) (hs : s.step ≠ 0) :
    ∃ r, s.range? n = some r ∧ s.selected n = (List.range r.length).map r.position := by
  have hmem : ∀ {r : SliceRange}, r.On n →
      (∀ p < n, s.Hits n p ↔ ∃ k : Nat, k < r.length ∧ (p : Int) = r.start + k * r.step) →
      ∀ p, (p < n ∧ s.Hits n p) ↔ p ∈ (List.range r.length).map r.position := by
    intro r hon hhits p
    rw [hon.mem_positions]
    constructor
    · exact fun ⟨hp, h⟩ => (hhits p hp).mp h
    · rintro ⟨k, hk, hpk⟩
      have hp : p < n := by
        have := (hon.inside k hk).2
        omega
      exact ⟨hp, (hhits p hp).mpr ⟨k, hk, hpk⟩⟩
  rcases Int.lt_or_gt_of_ne hs with hneg | hpos
  · have hnot : ¬ 0 < s.step := by omega
    obtain ⟨r, hr⟩ : ∃ r, s.range? n = some r := by
      rw [range?, if_neg hnot, if_pos hneg]
      exact ⟨_, rfl⟩
    refine ⟨r, hr, ?_⟩
    have hon := range?_on hn hr
    rw [range?, signedWord_of_lt hn, if_neg hnot, if_pos hneg] at hr
    obtain rfl := Option.some.inj hr
    refine List.Pairwise.eq_of_mem_iff (r := (· > ·)) ?_ (hon.positions_gt hneg) fun p => ?_
    · rw [selected, if_neg hnot]
      exact (List.pairwise_reverse.mpr List.pairwise_lt_range).filter _
    · rw [← hmem hon fun p hp => (hits_down hneg hp).trans (exists_steps_down hneg).symm]
      simp [selected, hnot]
  · obtain ⟨r, hr⟩ : ∃ r, s.range? n = some r := by
      rw [range?, if_pos hpos]
      exact ⟨_, rfl⟩
    refine ⟨r, hr, ?_⟩
    have hon := range?_on hn hr
    rw [range?, signedWord_of_lt hn, if_pos hpos] at hr
    obtain rfl := Option.some.inj hr
    refine List.Pairwise.eq_of_mem_iff (r := (· < ·)) ?_ (hon.positions_lt hpos) fun p => ?_
    · rw [selected, if_pos hpos]
      exact List.pairwise_lt_range.filter _
    · rw [← hmem hon fun p hp => (hits_up hpos hp).trans (exists_steps hpos).symm]
      simp [selected, hpos]

theorem full_range? (hn : n < 2 ^ 63) : full.range? n = some ⟨0, 1, n⟩ := by
  simp only [range?, full, clipped, signedWord_of_lt hn, Int.ediv_one]
  rw [if_pos (by decide)]
  congr
  split <;> omega

end Slice
end ArrayFlow
