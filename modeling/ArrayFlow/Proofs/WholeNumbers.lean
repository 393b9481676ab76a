import ArrayFlow.Proofs.Binary64

/-!
# Whole numbers

A number without a fraction lies on a multiple of one (`Entire`).  The
infinities do so as well, so it is a whole number only if it is finite
(`isWhole_iff`).  Rounding an integer leads to a number without a fraction, and
so do floor and ceiling, which are the nearest such numbers on either side
(`ceil_le`, `le_floor`).
-/

namespace ArrayFlow
namespace Binary64

/-- The number lies on a multiple of one.  The infinities do so as well, and
NaN lies nowhere. -/
def Entire (x : Binary64) : Prop := ∀ z, x.place? = some z → (one : Int) ∣ z

theorem Entire.congr {x y : Binary64} (h : x.Entire) (heq : y.place? = x.place?) : y.Entire :=
  fun z hz => h z (heq ▸ hz)

theorem one_dvd_limit : one ∣ limit := by
  rw [one_eq, limit_eq]
  exact Nat.pow_dvd_pow 2 (by decide)

theorem entire_infinity (negative : Bool) : (infinity negative).Entire := by
  intro z hz
  have hlimit : (one : Int) ∣ limit := Int.natCast_dvd_natCast.mpr one_dvd_limit
  cases negative with
  | false => rwa [← Option.some.inj hz]
  | true =>
    rw [← Option.some.inj hz]
    exact Int.dvd_neg.mpr hlimit

theorem entire_of_isWhole {x : Binary64} (h : x.isWhole = true) : x.Entire := by
  intro z hz
  cases x with
  | nan => cases h
  | infinity negative => cases h
  | negZero =>
    rw [← Option.some.inj hz]
    exact Int.dvd_zero _
  | finite w hw =>
    rw [← Option.some.inj hz]
    exact Int.dvd_of_emod_eq_zero (eq_of_beq h)

/-- Rounding a multiple of one leads to another one. -/
theorem one_dvd_nearest {n : Nat} (h : one ∣ n) : one ∣ nearest n := by
  by_cases hfine : n.log2 - 52 ≤ 1074
  · have hspacing : spacing n ∣ one := by
      rw [spacing_eq, one_eq]
      exact Nat.pow_dvd_pow 2 hfine
    rw [nearest_eq_self (Nat.dvd_trans hspacing h)]
    exact h
  · -- a coarser grid than the whole numbers consists of whole numbers
    have hcoarse : one ∣ spacing n := by
      rw [spacing_eq, one_eq]
      exact Nat.pow_dvd_pow 2 (by omega)
    rcases nearest_eq_or n with heq | heq <;> rw [heq]
    · exact Nat.dvd_mul_left_of_dvd hcoarse _
    · exact Nat.dvd_mul_left_of_dvd hcoarse _

theorem entire_ofInt (k : Int) : (ofInt k).Entire := by
  intro z hz
  rw [ofInt_eq, place?_ofUnits] at hz
  have hunits : one ∣ (k * one).natAbs := by
    rw [Int.natAbs_mul]
    exact Nat.dvd_mul_left _ _
  have hmin : one ∣ Nat.min (nearest (k * one).natAbs) limit := by
    rcases Nat.le_total (nearest (k * one).natAbs) limit with hle | hle
    · rw [show Nat.min _ limit = _ from Nat.min_eq_left hle]
      exact one_dvd_nearest hunits
    · rw [show Nat.min _ limit = _ from Nat.min_eq_right hle]
      exact one_dvd_limit
  have hmin' : (one : Int) ∣ (Nat.min (nearest (k * one).natAbs) limit : Nat) :=
    Int.natCast_dvd_natCast.mpr hmin
  rw [← Option.some.inj hz]
  split
  · exact Int.dvd_neg.mpr hmin'
  · exact hmin'

theorem entire_ofNat (n : Nat) : (ofNat n).Entire := entire_ofInt n

theorem entire_floor (x : Binary64) : x.floor.Entire := by
  cases x with
  | nan => nofun
  | infinity negative => exact entire_infinity negative
  | negZero => exact entire_of_isWhole rfl
  | finite z h =>
    intro w hw
    rw [place?_floor h] at hw
    rw [← Option.some.inj hw]
    exact Int.dvd_mul_left _ _

theorem entire_ceil (x : Binary64) : x.ceil.Entire := by
  cases x with
  | nan => nofun
  | infinity negative => exact entire_infinity negative
  | negZero => exact entire_of_isWhole rfl
  | finite z h =>
    intro w hw
    rw [place?_ceil h] at hw
    rw [← Option.some.inj hw]
    exact Int.dvd_mul_left _ _

/-- A number without a fraction between zero and a bound below infinity is
its whole part. -/
theorem place?_eq_toNat {x m : Binary64} {n : Nat} (hx : x.Entire) (h0 : zero ≤ x) (hxm : x ≤ m)
    (hm : ¬ ofNat n ≤ m) : x.place? = some ((x.toNat * one : Nat) : Int) := by
  obtain ⟨o, z, ho, hz, hoz⟩ := le_iff.mp h0
  rw [place?_zero, Option.some.injEq] at ho
  have hdvd := hx z hz
  cases x with
  | nan => cases hz
  | negZero =>
    rw [hz]
    obtain rfl := Option.some.inj hz
    simp [toNat]
  | infinity negative =>
    -- nothing is larger than infinity
    refine absurd (le_trans ?_ hxm) hm
    refine le_iff.mpr ⟨_, _, place?_ofNat n, hz, ?_⟩
    have hlimit := limit_pos
    have hle := Nat.min_le_right (nearest (n * one)) limit
    cases negative with
    | true =>
      obtain rfl := Option.some.inj hz
      omega
    | false =>
      obtain rfl := Option.some.inj hz
      exact Int.ofNat_le.mpr hle
  | finite w hw =>
    obtain rfl := Option.some.inj hz
    have hone : (0 : Int) ≤ one := Int.natCast_nonneg one
    have hdiv : 0 ≤ w / one := Int.ediv_nonneg (by omega) hone
    rw [hz, show (finite w hw).toNat = (w / (one : Int)).toNat from rfl, Int.natCast_mul,
      Int.toNat_of_nonneg hdiv, Int.ediv_mul_cancel hdvd]

/-! ### Finite numbers -/

/-- Whether this is neither an infinity nor NaN. -/
def isFinite : Binary64 → Bool
  | negZero => true
  | finite _ _ => true
  | _ => false

/-- The finite numbers are those that lie below the limit. -/
theorem isFinite_iff {x : Binary64} :
    x.isFinite = true ↔ ∃ z, x.place? = some z ∧ -(limit : Int) < z ∧ z < limit := by
  have hlimit := limit_pos
  constructor
  · intro h
    cases x with
    | nan => cases h
    | infinity negative => cases h
    | negZero => exact ⟨0, rfl, by omega⟩
    | finite z hz =>
      have := hz.2
      exact ⟨z, rfl, by omega⟩
  · rintro ⟨z, hz, hlo, hhi⟩
    cases x with
    | nan => cases hz
    | infinity negative =>
      -- an infinity lies at the limit
      cases negative with
      | true =>
        obtain rfl := Option.some.inj hz
        omega
      | false =>
        obtain rfl := Option.some.inj hz
        omega
    | negZero => rfl
    | finite w hw => rfl

theorem isFinite_ofUnits {z : Int} (h : nearest z.natAbs < limit) : (ofUnits z).isFinite = true := by
  rw [ofUnits, dif_pos h]
  rfl

/-- Whole numbers are finite up to `2 ^ 1023`, and so are machine words. -/
theorem isFinite_ofInt {k : Int} {e : Nat} (h : k.natAbs ≤ 2 ^ e) (he : e < 1024) :
    (ofInt k).isFinite = true := by
  rw [ofInt_eq]
  refine isFinite_ofUnits ?_
  have hle : (k * one).natAbs ≤ 2 ^ (e + 1074) := by
    rw [Int.natAbs_mul, Int.natAbs_natCast, ← two_pow_mul_one]
    exact Nat.mul_le_mul_right _ h
  have hspacing : spacing (2 ^ (e + 1074)) ∣ 2 ^ (e + 1074) := by
    rw [spacing_eq, Nat.log2_two_pow]
    exact Nat.pow_dvd_pow 2 (Nat.sub_le _ _)
  refine Nat.lt_of_le_of_lt (nearest_le hle hspacing) ?_
  rw [limit_eq]
  exact Nat.pow_lt_pow_right (by decide) (by omega)

/-- A whole number is one without a fraction that is not infinite. -/
theorem isWhole_iff {x : Binary64} : x.isWhole = true ↔ x.isFinite = true ∧ x.Entire := by
  constructor
  · intro h
    refine ⟨?_, entire_of_isWhole h⟩
    cases x with
    | nan => cases h
    | infinity negative => cases h
    | negZero => rfl
    | finite z hz => rfl
  · rintro ⟨hfinite, hx⟩
    cases x with
    | nan => cases hfinite
    | infinity negative => cases hfinite
    | negZero => rfl
    | finite z hz => exact beq_iff_eq.mpr (Int.emod_eq_zero_of_dvd (hx z rfl))

/-- A number without a fraction between finite bounds is a whole number. -/
theorem Entire.isWhole {x lower upper : Binary64} (hx : x.Entire) (hlo : lower ≤ x)
    (hhi : x ≤ upper) (hlower : lower.isFinite = true) (hupper : upper.isFinite = true) :
    x.isWhole = true := by
  obtain ⟨a, ha, hal, -⟩ := isFinite_iff.mp hlower
  obtain ⟨b, hb, -, hbu⟩ := isFinite_iff.mp hupper
  obtain ⟨a', z, ha', hz, haz⟩ := le_iff.mp hlo
  obtain ⟨z', b', hz', hb', hzb⟩ := le_iff.mp hhi
  obtain rfl := Option.some.inj (ha.symm.trans ha')
  obtain rfl := Option.some.inj (hb.symm.trans hb')
  obtain rfl := Option.some.inj (hz.symm.trans hz')
  exact isWhole_iff.mpr ⟨isFinite_iff.mpr ⟨z, hz, by omega, by omega⟩, hx⟩

/-! ### Ceiling and floor -/

/-- What lies at or below a number without a fraction has its ceiling there. -/
theorem ceil_le {a x : Binary64} (ha : a ≠ nan) (hx : x.Entire) : a.ceil ≤ x ↔ a ≤ x := by
  constructor
  · intro h
    exact le_trans (le_ceil ha) h
  · intro h
    cases a with
    | nan => exact absurd rfl ha
    | infinity negative => exact h
    | negZero => exact h
    | finite z hz =>
      obtain ⟨z', w, hz', hw, hzw⟩ := le_iff.mp h
      obtain rfl := Option.some.inj hz'
      refine le_iff.mpr ⟨_, w, place?_ceil hz, hw, ?_⟩
      obtain ⟨c, rfl⟩ := hx w hw
      have hone : (0 : Int) < one := Int.natCast_pos.mpr one_pos
      have hdiv : -c ≤ -z / one := by
        rw [Int.le_ediv_iff_mul_le hone, Int.neg_mul, Int.mul_comm]
        omega
      rw [Int.mul_comm (one : Int) c]
      exact Int.mul_le_mul_of_nonneg_right (by omega) (Int.le_of_lt hone)

theorem le_floor {a x : Binary64} (ha : a ≠ nan) (hx : x.Entire) : x ≤ a.floor ↔ x ≤ a := by
  constructor
  · intro h
    exact le_trans h (floor_le ha)
  · intro h
    cases a with
    | nan => exact absurd rfl ha
    | infinity negative => exact h
    | negZero => exact h
    | finite z hz =>
      obtain ⟨w, z', hw, hz', hwz⟩ := le_iff.mp h
      obtain rfl := Option.some.inj hz'
      refine le_iff.mpr ⟨w, _, hw, place?_floor hz, ?_⟩
      obtain ⟨c, rfl⟩ := hx w hw
      have hone : (0 : Int) < one := Int.natCast_pos.mpr one_pos
      have hdiv : c ≤ z / one := by
        rw [Int.le_ediv_iff_mul_le hone, Int.mul_comm]
        exact hwz
      rw [Int.mul_comm (one : Int) c]
      exact Int.mul_le_mul_of_nonneg_right hdiv (Int.le_of_lt hone)

theorem isFinite_ceil {a : Binary64} (h : a.isFinite = true) : a.ceil.isFinite = true := by
  cases a with
  | nan => cases h
  | infinity negative => cases h
  | negZero => rfl
  | finite z hz =>
    simp only [ceil]
    split
    · rfl
    · next hmod =>
      have hsmall := natAbs_le_of_not_dvd hz fun hd => hmod (Int.emod_eq_zero_of_dvd hd)
      have := natAbs_ediv_one_le (z := -z) (by omega)
      split
      · rfl
      · exact isFinite_ofInt (e := 52) (by omega) (by decide)

theorem isFinite_floor {a : Binary64} (h : a.isFinite = true) : a.floor.isFinite = true := by
  cases a with
  | nan => cases h
  | infinity negative => cases h
  | negZero => rfl
  | finite z hz =>
    simp only [floor]
    split
    · rfl
    · next hmod =>
      have hsmall := natAbs_le_of_not_dvd hz fun hd => hmod (Int.emod_eq_zero_of_dvd hd)
      exact isFinite_ofInt (natAbs_ediv_one_le hsmall) (by decide)

end Binary64
end ArrayFlow
