import ArrayFlow.Binary64.Basic
import Mathlib.Tactic.Ring

/-!
# The order of binary64 numbers

Two numbers at one place of the line of units are told apart only by the
sign of zero, and NaN is told apart from everything by having no place.  So
whatever compares numbers, or turns one into a position, asks for its place
and for nothing else.

* `nearest_mono`, `ofUnits_mono` — rounding keeps the order;
* `place?_ofUnits_self` — a representable count is rounded to itself;
* `toNat_lt_of_le` — a number that is not above a bound below `ofNat n` is a
  position below `n`, however `n` is rounded;
* `place?_floor`, `place?_ceil` — floor and ceiling are exact.
-/

namespace ArrayFlow
namespace Binary64

/-! ### Places -/

@[simp] theorem place?_eq_none {a : Binary64} : a.place? = none ↔ a = nan := by
  rcases a with _ | (_ | _) | _ | _ <;> simp only [place?, reduceCtorEq]

theorem exists_place {a : Binary64} (h : a ≠ nan) : ∃ x, a.place? = some x :=
  Option.ne_none_iff_exists'.mp (fun hn => h (place?_eq_none.mp hn))

/-- Numbers at one place are equal, unless there is no place. -/
theorem beq_of_place?_eq {a b : Binary64} (h : a.place? = b.place?) (ha : a ≠ nan) :
    (a == b) = true := by
  obtain ⟨x, hx⟩ := exists_place ha
  exact beq_iff.mpr ⟨x, hx, h ▸ hx⟩

theorem place?_eq_of_beq {a b : Binary64} (h : (a == b) = true) : a.place? = b.place? := by
  obtain ⟨x, hx, hy⟩ := beq_iff.mp h
  rw [hx, hy]

theorem ne_nan_of_le {a b : Binary64} (h : a ≤ b) : a ≠ nan ∧ b ≠ nan := by
  obtain ⟨x, y, hx, hy, -⟩ := le_iff.mp h
  constructor <;> rintro rfl <;> simp only [place?, reduceCtorEq] at hx hy

theorem le_of_not_lt {a b : Binary64} (ha : a ≠ nan) (hb : b ≠ nan) (h : ¬ b < a) : a ≤ b := by
  obtain ⟨x, hx⟩ := exists_place ha
  obtain ⟨y, hy⟩ := exists_place hb
  refine le_iff.mpr ⟨x, y, hx, hy, ?_⟩
  have : ¬ y < x := fun hlt => h (lt_iff.mpr ⟨y, x, hy, hx, hlt⟩)
  omega

theorem lt_of_not_le {a b : Binary64} (ha : a ≠ nan) (hb : b ≠ nan) (h : ¬ b ≤ a) : a < b := by
  obtain ⟨x, hx⟩ := exists_place ha
  obtain ⟨y, hy⟩ := exists_place hb
  refine lt_iff.mpr ⟨x, y, hx, hy, ?_⟩
  have : ¬ y ≤ x := fun hle => h (le_iff.mpr ⟨y, x, hy, hx, hle⟩)
  omega

theorem not_le_of_lt {a b : Binary64} (h : a < b) : ¬ b ≤ a := by
  intro hle
  obtain ⟨x, y, hx, hy, hlt⟩ := lt_iff.mp h
  obtain ⟨y', x', hy', hx', hyx⟩ := le_iff.mp hle
  have : x = x' := Option.some.inj (hx.symm.trans hx')
  have : y = y' := Option.some.inj (hy.symm.trans hy')
  omega

theorem not_lt_of_le {a b : Binary64} (h : a ≤ b) : ¬ b < a := fun hlt => not_le_of_lt hlt h

theorem le_of_lt {a b : Binary64} (h : a < b) : a ≤ b := by
  obtain ⟨x, y, hx, hy, hlt⟩ := lt_iff.mp h
  exact le_iff.mpr ⟨x, y, hx, hy, by omega⟩

theorem lt_of_lt_of_le {a b c : Binary64} (hab : a < b) (hbc : b ≤ c) : a < c := by
  obtain ⟨x, y, hx, hy, hxy⟩ := lt_iff.mp hab
  obtain ⟨y', z, hy', hz, hyz⟩ := le_iff.mp hbc
  obtain rfl := Option.some.inj (hy.symm.trans hy')
  exact lt_iff.mpr ⟨x, z, hx, hz, by omega⟩

theorem lt_of_le_of_lt {a b c : Binary64} (hab : a ≤ b) (hbc : b < c) : a < c := by
  obtain ⟨x, y, hx, hy, hxy⟩ := le_iff.mp hab
  obtain ⟨y', z, hy', hz, hyz⟩ := lt_iff.mp hbc
  obtain rfl := Option.some.inj (hy.symm.trans hy')
  exact lt_iff.mpr ⟨x, z, hx, hz, by omega⟩

theorem le_refl {a : Binary64} (h : a ≠ nan) : a ≤ a := by
  obtain ⟨x, hx⟩ := exists_place h
  exact le_iff.mpr ⟨x, x, hx, hx, Int.le_refl x⟩

theorem le_trans {a b c : Binary64} (hab : a ≤ b) (hbc : b ≤ c) : a ≤ c := by
  obtain ⟨x, y, hx, hy, hxy⟩ := le_iff.mp hab
  obtain ⟨y', z, hy', hz, hyz⟩ := le_iff.mp hbc
  have : y = y' := Option.some.inj (hy.symm.trans hy')
  exact le_iff.mpr ⟨x, z, hx, hz, by omega⟩

/-- Only the place of a number decides how it compares. -/
theorem le_congr_right {a b c : Binary64} (h : b.place? = c.place?) : a ≤ b ↔ a ≤ c := by
  simp only [le_iff, h]

theorem le_congr_left {a b c : Binary64} (h : a.place? = b.place?) : a ≤ c ↔ b ≤ c := by
  simp only [le_iff, h]

/-! ### Rounding -/

theorem one_eq : one = 2 ^ 1074 := Nat.one_shiftLeft 1074

theorem limit_eq : limit = 2 ^ 2098 := Nat.one_shiftLeft 2098

theorem spacing_eq (n : Nat) : spacing n = 2 ^ (n.log2 - 52) := Nat.one_shiftLeft _

theorem log2_mono {n m : Nat} (h : n ≤ m) : n.log2 ≤ m.log2 := by
  rcases Nat.eq_zero_or_pos n with rfl | hn
  · simp
  · exact (Nat.le_log2 (by omega)).mpr (Nat.le_trans (Nat.log2_self_le (by omega)) h)

theorem spacing_dvd_spacing {n m : Nat} (h : n ≤ m) : spacing n ∣ spacing m := by
  have hlog := log2_mono h
  rw [spacing_eq, spacing_eq]
  exact Nat.pow_dvd_pow 2 (by omega)

/-- A number on its own grid is the nearest one to itself. -/
theorem nearest_eq_self {n : Nat} (h : spacing n ∣ n) : nearest n = n := by
  have hr : n % spacing n = 0 := Nat.mod_eq_zero_of_dvd h
  have hu := spacing_pos n
  simp only [nearest, hr]
  rw [if_pos (.inl (by omega)), Nat.div_mul_cancel h]

/-- The multiple of the spacing at or above `n` bounds its rounding. -/
theorem nearest_le_of_dvd {n m : Nat} (h : n ≤ m) (hm : spacing n ∣ m) : nearest n ≤ m := by
  obtain ⟨k, rfl⟩ := hm
  have hu := spacing_pos n
  by_cases hr : spacing n ∣ n
  · rw [nearest_eq_self hr]; exact h
  · have hlt : n / spacing n < k := by
      refine Nat.lt_of_le_of_ne ((Nat.div_le_iff_le_mul_add_pred hu).mpr (by omega)) ?_
      rintro rfl
      exact hr ⟨_, Nat.le_antisymm h (Nat.mul_div_le n _)⟩
    have hle : (n / spacing n + 1) * spacing n ≤ spacing n * k := by
      rw [Nat.mul_comm]; exact Nat.mul_le_mul_left _ hlt
    have hle' : n / spacing n * spacing n ≤ (n / spacing n + 1) * spacing n :=
      Nat.mul_le_mul_right _ (by omega)
    rcases nearest_eq_or n with h1 | h1 <;> omega

theorem nearest_le {n m : Nat} (h : n ≤ m) (hm : spacing m ∣ m) : nearest n ≤ m :=
  nearest_le_of_dvd h (Nat.dvd_trans (spacing_dvd_spacing h) hm)

/-- Rounding does not go below the multiple of the spacing below `n`. -/
theorem div_mul_le_nearest (n : Nat) : n / spacing n * spacing n ≤ nearest n := by
  have : n / spacing n * spacing n ≤ (n / spacing n + 1) * spacing n :=
    Nat.mul_le_mul_right _ (by omega)
  rcases nearest_eq_or n with h | h <;> omega

/-- At a spacing above one, a number has 53 significant bits. -/
theorem two_pow_le_of_spacing {n : Nat} (h : n.log2 - 52 ≠ 0) : 2 ^ 52 * spacing n ≤ n := by
  have hn : n ≠ 0 := by rintro rfl; simp at h
  have := Nat.log2_self_le hn
  rw [spacing_eq, ← Nat.pow_add]
  rwa [show 52 + (n.log2 - 52) = n.log2 by omega]

theorem le_nearest {n m : Nat} (h : m ≤ n) (hm : spacing m ∣ m) : m ≤ nearest n := by
  by_cases hs : n.log2 - 52 = 0
  · have hu : spacing n = 1 := by simp [spacing, hs]
    rw [nearest_eq_self (hu ▸ Nat.one_dvd n)]; exact h
  · have hu := spacing_pos n
    have hlow := two_pow_le_of_spacing hs
    have hq : 2 ^ 52 * spacing n ≤ n / spacing n * spacing n :=
      Nat.mul_le_mul_right _ ((Nat.le_div_iff_mul_le hu).mpr hlow)
    refine Nat.le_trans ?_ (div_mul_le_nearest n)
    by_cases hmn : m < 2 ^ 52 * spacing n
    · omega
    · have hn : n ≠ 0 := by rintro rfl; simp at hs
      have hm0 : m ≠ 0 := by omega
      have hlog : n.log2 ≤ m.log2 := by
        refine (Nat.le_log2 hm0).mpr ?_
        have : 2 ^ 52 * spacing n = 2 ^ n.log2 := by
          rw [spacing_eq, ← Nat.pow_add, show 52 + (n.log2 - 52) = n.log2 by omega]
        omega
      have hdvd : spacing n ∣ m := by
        have : spacing m = spacing n := by
          simp only [spacing, Nat.le_antisymm (log2_mono h) hlog]
        exact this ▸ hm
      obtain ⟨k, rfl⟩ := hdvd
      rw [Nat.mul_comm]
      exact Nat.mul_le_mul_right _ ((Nat.le_div_iff_mul_le hu).mpr (by rw [Nat.mul_comm]; exact h))

/-- The multiple of the spacing above a number is on its own grid. -/
theorem spacing_dvd_next (n : Nat) :
    spacing ((n / spacing n + 1) * spacing n) ∣ (n / spacing n + 1) * spacing n := by
  by_cases hs : n.log2 - 52 = 0
  · have hu : spacing n = 1 := by simp [spacing, hs]
    rw [hu, Nat.div_one, Nat.mul_one]
    by_cases hs' : (n + 1).log2 - 52 = 0
    · simp [spacing, hs']
    · have hn : n < 2 ^ 53 := by
        rcases Nat.eq_zero_or_pos n with rfl | hpos
        · exact Nat.two_pow_pos 53
        · exact (Nat.log2_lt (by omega)).mp (by omega)
      exact spacing_dvd_of_between (s := 0) (Nat.one_dvd _)
        (by have := two_pow_le_of_spacing hs'; have := spacing_pos (n + 1)
            calc 2 ^ (52 + 0) ≤ 2 ^ 52 * spacing (n + 1) := Nat.le_mul_of_pos_right _ (by omega)
              _ ≤ n + 1 := by omega)
        (by omega)
  · have hn : n ≠ 0 := by rintro rfl; simp at hs
    have hu := spacing_pos n
    have hhi : n / spacing n < 2 ^ 53 := by
      rw [Nat.div_lt_iff_lt_mul hu, spacing_eq, ← Nat.pow_add]
      have := @Nat.lt_log2_self n
      rwa [show 53 + (n.log2 - 52) = n.log2 + 1 by omega]
    have hlo : 2 ^ 52 ≤ n / spacing n :=
      (Nat.le_div_iff_mul_le hu).mpr (two_pow_le_of_spacing hs)
    refine spacing_dvd_of_between (s := n.log2 - 52) (Nat.dvd_mul_left _ _) ?_ ?_
    · rw [Nat.one_shiftLeft, Nat.pow_add, ← spacing_eq]
      exact Nat.mul_le_mul_right _ (by omega)
    · rw [Nat.one_shiftLeft, Nat.pow_add, ← spacing_eq]
      exact Nat.mul_le_mul_right _ (by omega)

/-- Rounding keeps the order: either a grid point lies between two numbers,
or they lie between the same two grid points. -/
theorem nearest_mono {n m : Nat} (h : n ≤ m) : nearest n ≤ nearest m := by
  have hu := spacing_pos n
  have hnext : n < (n / spacing n + 1) * spacing n := by
    rw [Nat.mul_comm]; exact Nat.lt_mul_div_succ n hu
  by_cases hm : (n / spacing n + 1) * spacing n ≤ m
  · exact Nat.le_trans (nearest_le_of_dvd (by omega) (Nat.dvd_mul_left _ _))
      (le_nearest hm (spacing_dvd_next n))
  · have hq : m / spacing n = n / spacing n :=
      Nat.le_antisymm
        (Nat.lt_succ_iff.mp ((Nat.div_lt_iff_lt_mul hu).mpr (Nat.lt_of_not_le hm)))
        (Nat.div_le_div_right h)
    have hdn := Nat.div_add_mod n (spacing n)
    have hdm := Nat.div_add_mod m (spacing n)
    rw [hq] at hdm
    have hspacing : spacing m = spacing n := by
      by_cases hs : n.log2 - 52 = 0
      · have : spacing n = 1 := by simp [spacing, hs]
        rw [this, Nat.div_one, Nat.mul_one] at hm
        rw [show m = n by omega]
      · have hn : n ≠ 0 := by rintro rfl; simp at hs
        have hlt : m < 2 ^ (n.log2 + 1) := by
          have hhi : n / spacing n + 1 ≤ 2 ^ 53 := by
            refine (Nat.div_lt_iff_lt_mul hu).mpr ?_
            have := @Nat.lt_log2_self n
            rw [spacing_eq, ← Nat.pow_add]
            rwa [show 53 + (n.log2 - 52) = n.log2 + 1 by omega]
          have := Nat.mul_le_mul_right (spacing n) hhi
          rw [show n.log2 + 1 = 53 + (n.log2 - 52) by omega, Nat.pow_add, ← spacing_eq]
          exact Nat.lt_of_lt_of_le (by omega) this
        have hle := log2_mono h
        have hge : m.log2 < n.log2 + 1 := (Nat.log2_lt (by omega)).mpr hlt
        simp only [spacing, show m.log2 = n.log2 by omega]
    have hr : n % spacing n ≤ m % spacing n := by omega
    have hstep : n / spacing n * spacing n ≤ (n / spacing n + 1) * spacing n :=
      Nat.mul_le_mul_right _ (by omega)
    simp only [nearest, hspacing, hq]
    split <;> split <;> omega

/-- Where a rounded count of units lies; the infinities lie at the limit. -/
theorem place?_ofUnits (z : Int) :
    (ofUnits z).place? = some
      (if z < 0 then -((Nat.min (nearest z.natAbs) limit : Nat) : Int)
        else (Nat.min (nearest z.natAbs) limit : Nat)) := by
  by_cases h : nearest z.natAbs < limit
  · have hmin : Nat.min (nearest z.natAbs) limit = nearest z.natAbs :=
      Nat.min_eq_left (Nat.le_of_lt h)
    simp only [ofUnits, h, dite_true, place?, hmin]
  · have hmin : Nat.min (nearest z.natAbs) limit = limit := Nat.min_eq_right (by omega)
    by_cases hz : z < 0 <;>
      simp only [ofUnits, h, dite_false, place?, hz, decide_true, decide_false, if_true, if_false,
        hmin]

theorem ofUnits_ne_nan (z : Int) : ofUnits z ≠ nan := by
  intro h
  have := place?_ofUnits z
  simp only [h, place?, reduceCtorEq] at this

theorem ofUnits_mono {z w : Int} (h : z ≤ w) : ofUnits z ≤ ofUnits w := by
  refine le_iff.mpr ⟨_, _, place?_ofUnits z, place?_ofUnits w, ?_⟩
  by_cases hz : z < 0
  · by_cases hw : w < 0
    · have hmono := nearest_mono (show w.natAbs ≤ z.natAbs by omega)
      simp only [hz, hw, if_true, Nat.min_def]
      split <;> split <;> omega
    · simp only [hz, hw, if_true, if_false]; omega
  · have hw : ¬ w < 0 := by omega
    have hmono := nearest_mono (show z.natAbs ≤ w.natAbs by omega)
    simp only [hz, hw, if_false, Nat.min_def]
    split <;> split <;> omega

/-- A representable count of units is rounded to itself. -/
theorem place?_ofUnits_self {z : Int} (h : Representable z.natAbs) :
    (ofUnits z).place? = some z := by
  have hmin : Nat.min z.natAbs limit = z.natAbs := Nat.min_eq_left (Nat.le_of_lt h.2)
  rw [place?_ofUnits, nearest_eq_self h.1, hmin, Option.some.injEq]
  split <;> omega

theorem place?_zero : zero.place? = some 0 :=
  place?_ofUnits_self ⟨Nat.dvd_zero _, limit_pos⟩

theorem zero_ne_nan : zero ≠ nan := fun h => by
  have := place?_zero
  rw [h] at this
  cases this

theorem ofInt_eq (k : Int) : ofInt k = ofUnits (k * one) := by rw [ofInt]

theorem ofInt_mono {k l : Int} (h : k ≤ l) : ofInt k ≤ ofInt l := by
  rw [ofInt_eq, ofInt_eq]
  exact ofUnits_mono (Int.mul_le_mul_of_nonneg_right h (Int.natCast_nonneg one))

theorem ofNat_eq (n : Nat) : ofNat n = ofUnits ((n * one : Nat) : Int) := by
  rw [ofNat, ofInt, Int.natCast_mul]

theorem ofInt_ne_nan (k : Int) : ofInt k ≠ nan := ofInt_eq k ▸ ofUnits_ne_nan _

theorem ofNat_ne_nan (n : Nat) : ofNat n ≠ nan := ofInt_ne_nan n

/-- Where the rounding of a natural number lies. -/
theorem place?_ofNat (n : Nat) :
    (ofNat n).place? = some ((Nat.min (nearest (n * one)) limit : Nat) : Int) := by
  have hnonneg : ¬ (((n * one : Nat) : Int) < 0) := Int.not_lt.mpr (Int.natCast_nonneg _)
  rw [ofNat_eq, place?_ofUnits, if_neg hnonneg, Int.natAbs_natCast]

/-! ### Positions -/

/-- A number at or above `n` is at or above the rounding of `n`. -/
theorem place?_ofNat_le {n : Nat} {z : Int} (hz : Representable z.natAbs)
    (h : (n * one : Nat) ≤ z) : ((Nat.min (nearest (n * one)) limit : Nat) : Int) ≤ z := by
  have hle : nearest (n * one) ≤ z.natAbs := nearest_le (by omega) hz.1
  have hmin : Nat.min (nearest (n * one)) limit ≤ nearest (n * one) := Nat.min_le_left _ _
  omega

/-- **A bounded number is a position.**  If a number lies between zero and a
bound below `ofNat n`, its whole part lies below `n`, although `ofNat n` may
have been rounded up. -/
theorem toNat_lt_of_le {x m : Binary64} {n : Nat} (h0 : zero ≤ x) (hxm : x ≤ m)
    (hm : ¬ ofNat n ≤ m) : x.toNat < n := by
  have hlt : m < ofNat n :=
    Classical.byContradiction fun h =>
      hm (le_of_not_lt (ofNat_ne_nan n) (ne_nan_of_le hxm).2 h)
  obtain ⟨y, t, hy, ht, hyt⟩ := lt_iff.mp hlt
  obtain ⟨z, y', hz, hy', hzy⟩ := le_iff.mp hxm
  obtain ⟨o, z', ho, hz', hoz⟩ := le_iff.mp h0
  rw [place?_zero, Option.some.injEq] at ho
  rw [hy, Option.some.injEq] at hy'
  rw [hz, Option.some.injEq] at hz'
  rw [place?_ofNat, Option.some.injEq] at ht
  -- no representable number lies between `n` and the rounding of `n`
  have key : ∀ w : Int, Representable w.natAbs → w ≤ z → ¬ ((n * one : Nat) : Int) ≤ w := by
    intro w hw hwz hle
    have := place?_ofNat_le hw hle
    omega
  have hzero : n ≠ 0 := by
    rintro rfl
    exact key 0 ⟨Nat.dvd_zero _, limit_pos⟩ (by omega) (by simp)
  cases x with
  | nan => cases hz
  | negZero => exact Nat.pos_of_ne_zero hzero
  | infinity negative => exact Nat.pos_of_ne_zero hzero
  | finite w hw =>
    have hwz : w = z := Option.some.inj hz
    have hone : (0 : Int) < one := Int.natCast_pos.mpr one_pos
    show (w / (one : Int)).toNat < n
    rw [← Nat.not_le]
    intro hn
    have hdiv : (n : Int) ≤ w / one := by omega
    have hmul := (Int.le_ediv_iff_mul_le hone).mp hdiv
    exact key w hw (by omega) (by rw [Int.natCast_mul]; exact hmul)

theorem toNat_congr {a b : Binary64} (h : a.place? = b.place?) : a.toNat = b.toNat := by
  have hlim : ∀ z : Int, Representable z.natAbs → z ≠ limit ∧ z ≠ -limit := by
    intro z hz
    have := hz.2
    constructor <;> omega
  rcases a with _ | (_ | _) | _ | ⟨z, hz⟩ <;> rcases b with _ | (_ | _) | _ | ⟨w, hw⟩ <;>
    simp only [place?, Option.some.injEq, reduceCtorEq] at h <;> simp only [toNat]
  · exact absurd h.symm (hlim w hw).1
  · exact absurd h.symm (hlim w hw).2
  · rw [← h, Int.zero_ediv, Int.toNat_zero]
  · exact absurd h (hlim z hz).1
  · exact absurd h (hlim z hz).2
  · rw [h, Int.zero_ediv, Int.toNat_zero]
  · rw [h]

/-! ### Whole numbers -/

theorem ofNat_mono {n m : Nat} (h : n ≤ m) : ofNat n ≤ ofNat m := ofInt_mono (by omega)

theorem zero_le_ofNat (n : Nat) : zero ≤ ofNat n := by
  refine le_iff.mpr ⟨_, _, place?_zero, place?_ofNat n, ?_⟩
  omega

theorem zero_lt_ofNat {n : Nat} (h : 0 < n) : zero < ofNat n := by
  have hone : zero < ofNat 1 := by decide +kernel
  obtain ⟨z, w, hz, hw, hzw⟩ := lt_iff.mp hone
  obtain ⟨w', v, hw', hv, hwv⟩ := le_iff.mp (ofNat_mono h)
  obtain rfl := Option.some.inj (hw.symm.trans hw')
  exact lt_iff.mpr ⟨z, v, hz, hv, Int.lt_of_lt_of_le hzw hwv⟩

/-- A whole number from zero on is the rounding of its whole part, which is
the number itself. -/
theorem place?_ofNat_toNat {x : Binary64} (hw : x.isWhole = true) (h0 : zero ≤ x) :
    (ofNat x.toNat).place? = x.place? := by
  cases x with
  | nan => cases hw
  | infinity negative => cases hw
  | negZero =>
    show (ofNat 0).place? = some 0
    rw [ofNat_eq, Nat.zero_mul]
    exact place?_ofUnits_self ⟨Nat.dvd_zero _, limit_pos⟩
  | finite z hz =>
    have hmod : z % one = 0 := eq_of_beq hw
    obtain ⟨o, z', ho, hz', hoz⟩ := le_iff.mp h0
    rw [place?_zero, Option.some.injEq] at ho
    have hzz : z = z' := Option.some.inj hz'
    have hone : (0 : Int) < one := Int.natCast_pos.mpr one_pos
    have hdiv : 0 ≤ z / one := Int.ediv_nonneg (by omega) (by omega)
    have hunits : (((z / (one : Int)).toNat * one : Nat) : Int) = z := by
      rw [Int.natCast_mul, Int.toNat_of_nonneg hdiv]
      exact Int.ediv_mul_cancel (Int.dvd_of_emod_eq_zero hmod)
    show (ofNat (z / (one : Int)).toNat).place? = some z
    rw [ofNat_eq, hunits]
    exact place?_ofUnits_self hz

/-- A whole number that does not reach `ofNat n` does not exceed the number
before. -/
theorem le_ofNat_pred {x : Binary64} {n : Nat} (hw : x.isWhole = true) (h0 : zero ≤ x)
    (h : ¬ ofNat n ≤ x) : x ≤ ofNat (n - 1) := by
  have hlt := toNat_lt_of_le h0 (le_refl (ne_nan_of_le h0).2) h
  rw [← le_congr_left (place?_ofNat_toNat hw h0)]
  exact ofNat_mono (by omega)

theorem two_pow_mul_one (k : Nat) : 2 ^ k * one = 2 ^ (k + 1074) := by
  rw [one_eq, Nat.pow_add]

/-- Sizes are far from the overflow limit. -/
theorem mul_one_lt_limit {p : Nat} (h : p < 2 ^ 63) : p * one < limit := by
  calc p * one < 2 ^ 63 * one := Nat.mul_lt_mul_of_pos_right h one_pos
    _ = 2 ^ (63 + 1074) := two_pow_mul_one 63
    _ ≤ 2 ^ 2098 := Nat.pow_le_pow_right Nat.two_pos (by decide)
    _ = limit := limit_eq.symm

/-- Below `2 ^ 53` integers are not rounded. -/
theorem representable_mul_one {k : Nat} (h : k < 2 ^ 53) : Representable (k * one) := by
  have hlt : k * one < 2 ^ 1127 :=
    Nat.lt_of_lt_of_eq (Nat.mul_lt_mul_of_pos_right h one_pos) (two_pow_mul_one 53)
  have hlimit : 2 ^ 1127 < limit := by
    rw [limit_eq]
    exact Nat.pow_lt_pow_right Nat.one_lt_two (by decide)
  refine ⟨?_, Nat.lt_trans hlt hlimit⟩
  rcases Nat.eq_zero_or_pos (k * one) with h0 | hpos
  · rw [h0]; exact Nat.dvd_zero _
  · have hlog : (k * one).log2 < 1127 := (Nat.log2_lt (by omega)).mpr hlt
    have hspacing : spacing (k * one) ∣ one := by
      conv_rhs => rw [one_eq]
      rw [spacing_eq]
      exact Nat.pow_dvd_pow 2 (by omega)
    exact Nat.dvd_trans hspacing (Nat.dvd_mul_left one k)

theorem place?_ofInt {k : Int} (h : k.natAbs < 2 ^ 53) : (ofInt k).place? = some (k * one) := by
  rw [ofInt_eq]
  refine place?_ofUnits_self ?_
  rw [Int.natAbs_mul]
  exact representable_mul_one h

/-- A finite number that is not whole is small. -/
theorem natAbs_le_of_not_dvd {z : Int} (h : Representable z.natAbs) (hz : ¬ (one : Int) ∣ z) :
    z.natAbs < 2 ^ 52 * one := by
  have hne : z.natAbs ≠ 0 := by
    intro h0
    exact hz (by rw [Int.natAbs_eq_zero.mp h0]; exact Int.dvd_zero _)
  rw [two_pow_mul_one]
  refine (Nat.log2_lt hne).mp (Nat.lt_of_not_le fun hle => hz ?_)
  have hspacing : one ∣ spacing z.natAbs := by
    rw [spacing_eq, one_eq]
    exact Nat.pow_dvd_pow 2 (by omega)
  have : one ∣ z.natAbs := Nat.dvd_trans hspacing h.1
  exact Int.ofNat_dvd_left.mpr this

theorem natAbs_ediv_one_le {z : Int} (h : z.natAbs < 2 ^ 52 * one) :
    (z / one).natAbs ≤ 2 ^ 52 := by
  have hpos : (0 : Int) < one := Int.natCast_pos.mpr one_pos
  have hlo : -(2 ^ 52 : Int) ≤ z / one := (Int.le_ediv_iff_mul_le hpos).mpr (by omega)
  have hhi : z / one < 2 ^ 52 := (Int.ediv_lt_iff_lt_mul hpos).mpr (by omega)
  omega

/-- The floor of a finite number is the multiple of one below it. -/
theorem place?_floor {z : Int} (h : Representable z.natAbs) :
    (floor (finite z h)).place? = some (z / one * one) := by
  simp only [floor]
  split
  · next hz => rw [Int.ediv_mul_cancel (Int.dvd_of_emod_eq_zero hz)]; rfl
  · next hz =>
    have hsmall := natAbs_le_of_not_dvd h (fun hd => hz (Int.emod_eq_zero_of_dvd hd))
    have := natAbs_ediv_one_le hsmall
    exact place?_ofInt (by omega)

/-- The ceiling of a finite number is the multiple of one above it. -/
theorem place?_ceil {z : Int} (h : Representable z.natAbs) :
    (ceil (finite z h)).place? = some (-(-z / one) * one) := by
  simp only [ceil]
  split
  · next hz =>
    have hd : (one : Int) ∣ -z := Int.dvd_neg.mpr (Int.dvd_of_emod_eq_zero hz)
    rw [Int.neg_mul, Int.ediv_mul_cancel hd, Int.neg_neg]; rfl
  · next hz =>
    have hsmall := natAbs_le_of_not_dvd h (fun hd => hz (Int.emod_eq_zero_of_dvd hd))
    have := natAbs_ediv_one_le (z := -z) (by omega)
    split
    · next hk => rw [hk, Int.zero_mul]; rfl
    · exact place?_ofInt (by omega)

theorem floor_le {a : Binary64} (h : a ≠ nan) : a.floor ≤ a := by
  cases a with
  | nan => exact absurd rfl h
  | infinity b => exact le_refl h
  | negZero => exact le_refl h
  | finite z hz =>
    refine le_iff.mpr ⟨_, z, place?_floor hz, rfl, ?_⟩
    exact Int.ediv_mul_le z (by have := one_pos; omega)

theorem le_ceil {a : Binary64} (h : a ≠ nan) : a ≤ a.ceil := by
  cases a with
  | nan => exact absurd rfl h
  | infinity b => exact le_refl h
  | negZero => exact le_refl h
  | finite z hz =>
    refine le_iff.mpr ⟨z, _, rfl, place?_ceil hz, ?_⟩
    have := Int.ediv_mul_le (-z) (b := one) (by have := one_pos; omega)
    rw [Int.neg_mul]
    omega

/-! ### Least and greatest -/

theorem min_le_left {a b : Binary64} (ha : a ≠ nan) : Binary64.min a b ≤ a := by
  unfold Binary64.min
  split
  · exact le_refl ha
  · next h =>
    simp only [Bool.or_eq_true, decide_eq_true_eq, not_or] at h
    have hb : b ≠ nan := by rintro rfl; exact h.1 rfl
    exact le_of_not_lt hb ha h.2

theorem min_le_right {a b : Binary64} (hb : b ≠ nan) : Binary64.min a b ≤ b := by
  unfold Binary64.min
  split
  · next h =>
    simp only [Bool.or_eq_true, decide_eq_true_eq] at h
    rcases h with h | h
    · exact absurd (place?_eq_none.mp (Option.isNone_iff_eq_none.mp h)) hb
    · exact le_of_lt h
  · exact le_refl hb

theorem le_max_left {a b : Binary64} (ha : a ≠ nan) : a ≤ Binary64.max a b := by
  unfold Binary64.max
  split
  · exact le_refl ha
  · next h =>
    simp only [Bool.or_eq_true, decide_eq_true_eq, not_or] at h
    have hb : b ≠ nan := by rintro rfl; exact h.1 rfl
    exact le_of_not_lt ha hb h.2

theorem le_max_right {a b : Binary64} (hb : b ≠ nan) : b ≤ Binary64.max a b := by
  unfold Binary64.max
  split
  · next h =>
    simp only [Bool.or_eq_true, decide_eq_true_eq] at h
    rcases h with h | h
    · exact absurd (place?_eq_none.mp (Option.isNone_iff_eq_none.mp h)) hb
    · exact le_of_lt h
  · exact le_refl hb

theorem min_eq_or (a b : Binary64) : Binary64.min a b = a ∨ Binary64.min a b = b := by
  unfold Binary64.min; split
  · exact .inl rfl
  · exact .inr rfl

theorem max_eq_or (a b : Binary64) : Binary64.max a b = a ∨ Binary64.max a b = b := by
  unfold Binary64.max
  split
  · exact .inl rfl
  · exact .inr rfl

/-- Of two numbers at one place either may be the smaller one. -/
theorem place?_min_of_le {a b : Binary64} (h : a ≤ b) : (Binary64.min a b).place? = a.place? := by
  obtain ⟨x, y, hx, hy, hxy⟩ := le_iff.mp h
  unfold Binary64.min
  split
  · rfl
  · next hnot =>
    simp only [Bool.or_eq_true, decide_eq_true_eq, not_or] at hnot
    have hyx : ¬ x < y := fun hlt => hnot.2 (lt_iff.mpr ⟨x, y, hx, hy, hlt⟩)
    rw [hx, hy, show x = y by omega]

theorem place?_min_of_ge {a b : Binary64} (h : b ≤ a) : (Binary64.min a b).place? = b.place? := by
  have hb : b.isNaN = false := by
    obtain ⟨y, -, hy, -, -⟩ := le_iff.mp h
    rw [isNaN, hy]
    rfl
  rw [Binary64.min, if_neg]
  simp [hb, not_lt_of_le h]

/-- A number is clamped into any interval that is not empty. -/
theorem clamp_mem {a lower upper : Binary64} (ha : a ≠ nan) (h : lower ≤ upper) :
    lower ≤ clamp a lower upper ∧ clamp a lower upper ≤ upper := by
  obtain ⟨hl, hu⟩ := ne_nan_of_le h
  unfold clamp
  split
  · exact ⟨le_refl hl, h⟩
  · next h1 =>
    split
    · exact ⟨h, le_refl hu⟩
    · next h2 => exact ⟨le_of_not_lt hl ha h1, le_of_not_lt ha hu h2⟩

end Binary64
end ArrayFlow
