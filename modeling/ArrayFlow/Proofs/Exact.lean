import ArrayFlow.Proofs.WholeNumbers
import Mathlib.Algebra.Order.Field.Basic
import Mathlib.Algebra.Order.Field.Rat
import Mathlib.Order.WithBot

/-!
# Numbers as rational numbers

A finite number is a rational one, namely as many units as its place says, of
which `one` make a whole (`rational?`).  Without its sign it is a **magnitude**;
an infinity has the one beyond all others, and NaN has none (`magnitude?`).

Two questions about variables are asked of these exact values: which integer a
number is, and which of two numbers lies nearer to zero.  Both are answered by
places (`rational?_eq_intCast`, `noFarther_of_natAbs_le`).

`rounded` is the integer to which an integer is rounded; no integer that is a
number lies between the two (`rounded_le`, `le_rounded`).
-/

namespace ArrayFlow
namespace Binary64

variable {x y : Binary64}

/-- The exact value of a finite number. -/
def rational? : Binary64 → Option ℚ
  | negZero => some 0
  | finite z _ => some (z / one)
  | _ => none

theorem one_ne_zero : (one : ℚ) ≠ 0 := Nat.cast_ne_zero.mpr (Nat.ne_of_gt one_pos)

theorem rational?_of_place {z : Int} (h : x.isFinite = true) (hz : x.place? = some z) :
    x.rational? = some ((z : ℚ) / one) := by
  cases x with
  | nan => cases h
  | infinity negative => cases h
  | negZero =>
    obtain rfl := Option.some.inj hz
    simp [rational?]
  | finite w hw =>
    obtain rfl := Option.some.inj hz
    rfl

/-- A number is an integer if it lies at that multiple of one. -/
theorem rational?_eq_intCast {k : Int} :
    x.rational? = some (k : ℚ) ↔ x.isFinite = true ∧ x.place? = some (k * one) := by
  constructor
  · intro h
    cases x with
    | nan => cases h
    | infinity negative => cases h
    | negZero =>
      have hk : k = 0 := Int.cast_eq_zero.mp (Option.some.inj h).symm
      rw [hk, Int.zero_mul]
      exact ⟨rfl, rfl⟩
    | finite z hz =>
      have hk : (z : ℚ) / one = k := Option.some.inj h
      rw [div_eq_iff one_ne_zero, ← Int.cast_natCast, ← Int.cast_mul, Int.cast_inj] at hk
      rw [← hk]
      exact ⟨rfl, rfl⟩
  · rintro ⟨hfinite, hz⟩
    rw [rational?_of_place hfinite hz, Int.cast_mul, Int.cast_natCast,
      mul_div_cancel_right₀ _ one_ne_zero]

/-- The whole numbers are the integers among the numbers. -/
theorem isWhole_iff_exists : x.isWhole = true ↔ ∃ k : Int, x.rational? = some (k : ℚ) := by
  rw [isWhole_iff]
  constructor
  · rintro ⟨hfinite, hx⟩
    obtain ⟨z, hz, -, -⟩ := isFinite_iff.mp hfinite
    obtain ⟨k, rfl⟩ := hx z hz
    refine ⟨k, rational?_eq_intCast.mpr ⟨hfinite, ?_⟩⟩
    rw [hz, Int.mul_comm]
  · rintro ⟨k, hk⟩
    obtain ⟨hfinite, hz⟩ := rational?_eq_intCast.mp hk
    refine ⟨hfinite, ?_⟩
    intro w hw
    obtain rfl := Option.some.inj (hz.symm.trans hw)
    exact Int.dvd_mul_left k one

/-! ### Which of two numbers is nearer to zero -/

/-- The exact value of a number without its sign. -/
def magnitude? : Binary64 → Option (WithTop ℚ)
  | infinity _ => some ⊤
  | x => x.rational?.map fun q => ((|q| : ℚ) : WithTop ℚ)

/-- The first number lies no farther from zero than the second. -/
def NoFarther (x y : Binary64) : Prop :=
  ∃ m n, x.magnitude? = some m ∧ y.magnitude? = some n ∧ m ≤ n

theorem magnitude?_of_isFinite {z : Int} (h : x.isFinite = true) (hz : x.place? = some z) :
    x.magnitude? = some (((z.natAbs : ℚ) / one : ℚ) : WithTop ℚ) := by
  have hvalue : x.magnitude? = x.rational?.map fun q => ((|q| : ℚ) : WithTop ℚ) := by
    cases x with
    | infinity negative => cases h
    | nan | negZero | finite => rfl
  rw [hvalue, rational?_of_place h hz, Option.map_some, abs_div, Nat.abs_cast, ← Int.cast_abs,
    Int.abs_eq_natAbs, Int.cast_natCast]

/-- Distances from zero can be compared by places. -/
theorem noFarther_of_natAbs_le {z w : Int} (hz : x.place? = some z) (hw : y.place? = some w)
    (h : z.natAbs ≤ w.natAbs) : x.NoFarther y := by
  by_cases hy : y.isFinite = true
  · have hx : x.isFinite = true := by
      obtain ⟨w', hw', hlo, hhi⟩ := isFinite_iff.mp hy
      obtain rfl := Option.some.inj (hw.symm.trans hw')
      exact isFinite_iff.mpr ⟨z, hz, by omega, by omega⟩
    refine ⟨_, _, magnitude?_of_isFinite hx hz, magnitude?_of_isFinite hy hw, ?_⟩
    have hone : (0 : ℚ) < one := Nat.cast_pos.mpr one_pos
    have hle : (z.natAbs : ℚ) ≤ w.natAbs := Nat.cast_le.mpr h
    exact WithTop.coe_le_coe.mpr ((div_le_div_iff_of_pos_right hone).mpr hle)
  · have htop : y.magnitude? = some ⊤ := by
      cases y with
      | nan => cases hw
      | infinity negative => rfl
      | negZero | finite => exact absurd rfl hy
    have hx : ∃ m, x.magnitude? = some m := by
      cases x with
      | nan => cases hz
      | infinity negative => exact ⟨⊤, rfl⟩
      | negZero | finite => exact ⟨_, rfl⟩
    obtain ⟨m, hm⟩ := hx
    exact ⟨m, ⊤, hm, htop, le_top⟩

/-! ### Rounded integers -/

/-- The integer to which an integer is rounded. -/
def rounded (k : Int) : Int := (ofInt k).place?.getD 0 / one

theorem place?_ofInt_rounded (k : Int) : (ofInt k).place? = some (rounded k * one) := by
  obtain ⟨z, hz⟩ := exists_place (ofInt_ne_nan k)
  rw [rounded, hz, Option.getD_some, Int.ediv_mul_cancel (entire_ofInt k z hz)]

theorem rational?_ofInt {k : Int} (h : k.natAbs ≤ 2 ^ 64) :
    (ofInt k).rational? = some (rounded k : ℚ) :=
  rational?_eq_intCast.mpr ⟨isFinite_ofInt h (by decide), place?_ofInt_rounded k⟩

theorem rounded_eq {k l : Int} (h : (ofInt k).place? = some (l * one)) : rounded k = l := by
  rw [place?_ofInt_rounded, Option.some.injEq] at h
  exact Int.eq_of_mul_eq_mul_right (Int.natCast_ne_zero.mpr (Nat.ne_of_gt one_pos)) h

/-- Multiples of one are ordered like the integers. -/
theorem le_iff_of_multiples {k l : Int} (hx : x.place? = some (k * one))
    (hy : y.place? = some (l * one)) : x ≤ y ↔ k ≤ l := by
  have hone : (0 : Int) < one := Int.natCast_pos.mpr one_pos
  constructor
  · intro h
    obtain ⟨z, w, hz, hw, hzw⟩ := le_iff.mp h
    obtain rfl := Option.some.inj (hx.symm.trans hz)
    obtain rfl := Option.some.inj (hy.symm.trans hw)
    exact Int.le_of_mul_le_mul_right hzw hone
  · intro h
    have hle := Int.mul_le_mul_of_nonneg_right h (Int.le_of_lt hone)
    exact le_iff.mpr ⟨_, _, hx, hy, hle⟩

theorem ofInt_le_iff {k l : Int} (hk : x.rational? = some (k : ℚ)) : ofInt l ≤ x ↔ rounded l ≤ k :=
  le_iff_of_multiples (place?_ofInt_rounded l) (rational?_eq_intCast.mp hk).2

theorem le_ofInt_iff {k l : Int} (hk : x.rational? = some (k : ℚ)) : x ≤ ofInt l ↔ k ≤ rounded l :=
  le_iff_of_multiples (rational?_eq_intCast.mp hk).2 (place?_ofInt_rounded l)

theorem rounded_mono {k l : Int} (h : k ≤ l) : rounded k ≤ rounded l :=
  (le_iff_of_multiples (place?_ofInt_rounded k) (place?_ofInt_rounded l)).mp (ofInt_mono h)

/-- Up to `2 ^ 53` integers are not rounded. -/
theorem rounded_of_natAbs_le {k : Int} (h : k.natAbs ≤ 2 ^ 53) : rounded k = k := by
  rcases Nat.lt_or_eq_of_le h with hlt | heq
  · exact rounded_eq (place?_ofInt hlt)
  · rcases Int.natAbs_eq k with hk | hk
    · rw [hk, heq]
      decide +kernel
    · rw [hk, heq]
      decide +kernel

/-- An integer that is a number is not rounded. -/
theorem rounded_eq_self {k : Int} (h : x.rational? = some (k : ℚ)) : rounded k = k := by
  obtain ⟨hfinite, hz⟩ := rational?_eq_intCast.mp h
  have hunits : Representable (k * one).natAbs := by
    cases x with
    | nan => cases hz
    | infinity negative => cases hfinite
    | negZero =>
      rw [← Option.some.inj hz]
      exact ⟨Nat.dvd_zero _, limit_pos⟩
    | finite z hz' =>
      rw [← Option.some.inj hz]
      exact hz'
  have hplace := place?_ofUnits_self hunits
  rw [← ofInt_eq] at hplace
  exact rounded_eq hplace

/-- No number lies between an integer and its rounding. -/
theorem rounded_le {k l : Int} (h : x.rational? = some (k : ℚ)) (hl : l ≤ k) : rounded l ≤ k := by
  rw [← rounded_eq_self h]
  exact rounded_mono hl

theorem le_rounded {k l : Int} (h : x.rational? = some (k : ℚ)) (hl : k ≤ l) : k ≤ rounded l := by
  rw [← rounded_eq_self h]
  exact rounded_mono hl

end Binary64
end ArrayFlow
