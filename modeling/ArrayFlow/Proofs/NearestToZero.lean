import ArrayFlow.Proofs.Exact
import ArrayFlow.Proofs.Variable

/-!
# The default value of rows

Rows that nobody has seeded are filled with the admitted value nearest to
zero.  It is found by moving zero to the bounds and then to a whole number,
which may lie outside the bounds again, so that the upper bound is minded once
more.

The value is that of zero clamped into the **domain**, which goes from the
first admitted value to the last one (`RowVariable.place?_nearestToZero`).
Nothing in the domain is nearer to zero (`natAbs_clamp_le`), and all that is
admitted lies in it (`mem_of_admits`).

The default value is admitted itself, unless whole numbers are asked for and
both bounds are the same infinity (`ofDomain_default`).  Then nothing is
admitted (`not_admits_of_infinities`), which is not noticed when the bounds are
given: both are taken for whole numbers (`beyond_default_refused`).
-/

namespace ArrayFlow
namespace Binary64

variable {a x lower upper : Binary64}

theorem exists_infinity (ha : a ≠ nan) (h : ¬ a.isFinite = true) :
    ∃ negative, a = infinity negative := by
  cases a with
  | nan => exact absurd rfl ha
  | infinity negative => exact ⟨negative, rfl⟩
  | negZero => exact absurd rfl h
  | finite z hz => exact absurd rfl h

/-- Zero, clamped into an interval, is as near to zero as it gets there. -/
theorem natAbs_clamp_le {z w : Int} (hlo : lower ≤ x) (hhi : x ≤ upper)
    (hz : (clamp zero lower upper).place? = some z) (hw : x.place? = some w) :
    z.natAbs ≤ w.natAbs := by
  obtain ⟨l, w', hl, hw', hlw⟩ := le_iff.mp hlo
  obtain rfl := Option.some.inj (hw.symm.trans hw')
  obtain ⟨w'', u, hw'', hu, hwu⟩ := le_iff.mp hhi
  obtain rfl := Option.some.inj (hw.symm.trans hw'')
  unfold clamp at hz
  split at hz
  · next hpos =>
    obtain rfl := Option.some.inj (hl.symm.trans hz)
    obtain ⟨o, l', ho, hl', hol⟩ := lt_iff.mp hpos
    obtain rfl := Option.some.inj (hl.symm.trans hl')
    obtain rfl := Option.some.inj (place?_zero.symm.trans ho)
    omega
  · split at hz
    · next hneg =>
      obtain rfl := Option.some.inj (hu.symm.trans hz)
      obtain ⟨u', o, hu', ho, huo⟩ := lt_iff.mp hneg
      obtain rfl := Option.some.inj (hu.symm.trans hu')
      obtain rfl := Option.some.inj (place?_zero.symm.trans ho)
      omega
    · obtain rfl := Option.some.inj (place?_zero.symm.trans hz)
      omega

end Binary64

namespace RowVariable

variable {u v : RowVariable} {x : Binary64}

theorem admits_of_between (h : Between v.lower v.upper x)
    (hw : v.integral = true → x.isWhole = true) : v.admits x = true := by
  have hnan : x.isNaN = false := by
    obtain ⟨z, hz⟩ := Binary64.exists_place (Binary64.ne_nan_of_le h.1).2
    rw [Binary64.isNaN, hz]
    rfl
  have hlower := Binary64.not_lt_of_le h.1
  have hupper := Binary64.not_lt_of_le h.2
  cases hi : v.integral with
  | false => simp [admits, hnan, hlower, hupper, hi]
  | true => simp [admits, hnan, hlower, hupper, hi, hw hi]

/-- What is admitted lies in the domain. -/
theorem mem_of_admits (h : v.admits x = true) : Between v.first v.last x := by
  have hbetween := between_of_admits h
  obtain ⟨hl, hu⟩ := v.ne_nan
  unfold first last
  by_cases hi : v.integral = true
  · have hx := entire_of_admits h hi
    rw [if_pos hi, if_pos hi]
    exact ⟨(Binary64.ceil_le hl hx).mpr hbetween.1, (Binary64.le_floor hu hx).mpr hbetween.2⟩
  · rw [if_neg hi, if_neg hi]
    exact hbetween

/-- Nothing in the domain is nearer to zero than the default value. -/
theorem natAbs_nearestToZero_le {z w : Int} (hx : Between v.first v.last x)
    (hz : v.nearestToZero.place? = some z) (hw : x.place? = some w) : z.natAbs ≤ w.natAbs := by
  rw [v.place?_nearestToZero] at hz
  exact Binary64.natAbs_clamp_le hx.1 hx.2 hz hw

theorem exists_place_nearestToZero (v : RowVariable) : ∃ z, v.nearestToZero.place? = some z :=
  Binary64.exists_place (Binary64.ne_nan_of_le v.nearestToZero_mem.1).2

theorem noFarther_of_admits (h : v.admits x = true) : v.nearestToZero.NoFarther x := by
  have hx := mem_of_admits h
  obtain ⟨z, hz⟩ := v.exists_place_nearestToZero
  obtain ⟨w, hw⟩ := Binary64.exists_place (Binary64.ne_nan_of_le hx.1).2
  exact Binary64.noFarther_of_natAbs_le hz hw (natAbs_nearestToZero_le hx hz hw)

/-- The default value is finite if the domain has a finite number. -/
theorem isFinite_nearestToZero_of_mem (hx : Between v.first v.last x) (h : x.isFinite = true) :
    v.nearestToZero.isFinite = true := by
  obtain ⟨z, hz⟩ := v.exists_place_nearestToZero
  obtain ⟨w, hw, hlo, hhi⟩ := Binary64.isFinite_iff.mp h
  have hle := natAbs_nearestToZero_le hx hz hw
  exact Binary64.isFinite_iff.mpr ⟨z, hz, by omega, by omega⟩

theorem isFinite_first (h : v.lower.isFinite = true) : v.first.isFinite = true := by
  unfold first
  split
  · exact Binary64.isFinite_ceil h
  · exact h

theorem isFinite_last (h : v.upper.isFinite = true) : v.last.isFinite = true := by
  unfold last
  split
  · exact Binary64.isFinite_floor h
  · exact h

theorem first_of_infinity {negative : Bool} (h : v.lower = .infinity negative) :
    v.first = .infinity negative := by
  rw [first, h]
  split <;> rfl

theorem last_of_infinity {negative : Bool} (h : v.upper = .infinity negative) :
    v.last = .infinity negative := by
  rw [last, h]
  split <;> rfl

/-- Between different infinities lies zero, which is what a domain without
finite bounds has to offer. -/
theorem zero_mem_of_infinities {m n : Bool} (hl : v.lower = .infinity m)
    (hu : v.upper = .infinity n) (h : m ≠ n) : Between v.first v.last .zero := by
  have hle := v.lower_le_upper
  rw [hl, hu] at hle
  rw [first_of_infinity hl, last_of_infinity hu]
  cases m with
  | true =>
    cases n with
    | true => exact absurd rfl h
    | false => exact ⟨by decide +kernel, by decide +kernel⟩
  | false =>
    cases n with
    | true => exact absurd hle (by decide +kernel)
    | false => exact absurd rfl h

/-- The domain has a finite number, unless both bounds are the same
infinity. -/
theorem isFinite_nearestToZero
    (h : ¬ ∃ negative, v.lower = .infinity negative ∧ v.upper = .infinity negative) :
    v.nearestToZero.isFinite = true := by
  obtain ⟨hl, hu⟩ := v.ne_nan
  have hdomain := v.first_le_last
  obtain ⟨hfirst, hlast⟩ := Binary64.ne_nan_of_le hdomain
  by_cases hlower : v.lower.isFinite = true
  · exact isFinite_nearestToZero_of_mem ⟨Binary64.le_refl hfirst, hdomain⟩ (isFinite_first hlower)
  · by_cases hupper : v.upper.isFinite = true
    · exact isFinite_nearestToZero_of_mem ⟨hdomain, Binary64.le_refl hlast⟩ (isFinite_last hupper)
    · obtain ⟨m, hm⟩ := Binary64.exists_infinity hl hlower
      obtain ⟨n, hn⟩ := Binary64.exists_infinity hu hupper
      have hdiffer : m ≠ n := by
        rintro rfl
        exact h ⟨m, hm, hn⟩
      exact isFinite_nearestToZero_of_mem (zero_mem_of_infinities hm hn hdiffer) (by decide +kernel)

/-- An infinity is no whole number, so none is between two equal ones. -/
theorem not_isFinite_nearestToZero {negative : Bool} (hl : v.lower = .infinity negative)
    (hu : v.upper = .infinity negative) : ¬ v.nearestToZero.isFinite = true := by
  intro h
  obtain ⟨z, hz, hlo, hhi⟩ := Binary64.isFinite_iff.mp h
  obtain ⟨hle, hge⟩ := v.between_nearestToZero
  rw [hl] at hle
  rw [hu] at hge
  obtain ⟨l, z', hl', hz', hlz⟩ := Binary64.le_iff.mp hle
  obtain rfl := Option.some.inj (hz.symm.trans hz')
  obtain ⟨z'', u, hz'', hu', hzu⟩ := Binary64.le_iff.mp hge
  obtain rfl := Option.some.inj (hz.symm.trans hz'')
  cases negative with
  | true =>
    obtain rfl := Option.some.inj hu'
    omega
  | false =>
    obtain rfl := Option.some.inj hl'
    omega

/-- Nothing is admitted then if whole numbers are asked for. -/
theorem not_admits_of_infinities {negative : Bool} (hi : v.integral = true)
    (hl : v.lower = .infinity negative) (hu : v.upper = .infinity negative) :
    ¬ v.admits x = true := by
  intro h
  have hfinite := (Binary64.isWhole_iff.mp (isWhole_of_admits h hi)).1
  exact not_isFinite_nearestToZero hl hu (isFinite_nearestToZero_of_mem (mem_of_admits h) hfinite)

/-- When the default value is admitted. -/
theorem admits_nearestToZero_iff : v.admits v.nearestToZero = true ↔
    ¬ (v.integral = true ∧
      ∃ negative, v.lower = .infinity negative ∧ v.upper = .infinity negative) := by
  constructor
  · rintro h ⟨hi, negative, hl, hu⟩
    exact not_admits_of_infinities hi hl hu h
  · intro h
    apply admits_of_between v.between_nearestToZero
    intro hi
    have hfinite := isFinite_nearestToZero fun hbounds => h ⟨hi, hbounds⟩
    exact Binary64.isWhole_iff.mpr ⟨hfinite, v.entire_nearestToZero hi⟩

/-- The default rows are counted as what they are, unless there have to be rows
without elements. -/
theorem rowsOf_defaults (hrow : v.countRow = .ok v.rowSize) (hz : v.rowSize = 0 → v.minRows = 0) :
    v.rowsOf (v.minRows * v.rowSize) = .ok v.minRows := by
  refine rowsOf_eq_ok.mpr ⟨hrow, ?_⟩
  split
  · next h => exact hz h
  · rfl

theorem checkRows_minRows (h : v.minRows ≤ maxSize) : v.checkRows v.minRows = .ok () := by
  have hmax : v.minRows ≤ v.maxRows.getD maxSize := by
    cases hm : v.maxRows with
    | none => exact h
    | some m => exact v.minRows_le m hm
  rw [checkRows, if_neg]
  omega

/-- Default rows can be given as explicit ones if the default value is
admitted. -/
theorem seed_defaults (hz : v.rowSize = 0 → v.minRows = 0)
    (h : v.checkValue v.nearestToZero = .ok ()) {j : Journal Binary64} (hj : v.defaults = .ok j)
    {σ : Type} (insert : Journal Binary64 → EStateM Failure σ Unit) :
    v.seed (List.replicate (v.minRows * v.rowSize) v.nearestToZero) insert = insert j := by
  obtain ⟨hrow, hroom, rfl⟩ := defaults_eq_ok.mp hj
  have hvalues : (List.replicate (v.minRows * v.rowSize) v.nearestToZero).forM v.checkValue =
      .ok () := by
    apply Outcome.forM_eq_ok.mpr
    intro x hx
    rw [List.eq_of_mem_replicate hx]
    exact h
  have hrows : v.minRows ≤ maxSize := by
    by_cases hrow : v.rowSize = 0
    · exact hz hrow ▸ Nat.zero_le _
    · calc v.minRows ≤ v.minRows * v.rowSize := Nat.le_mul_of_pos_right _ (Nat.pos_of_ne_zero hrow)
        _ ≤ maxElements := hroom
        _ ≤ maxSize := by decide
  simp [seed, rowsOf_defaults hrow hz, checkRows_minRows hrows, hvalues, initial]

/-- Limits on the number of rows leave the elements as they are. -/
theorem elements_of_withRows {minRows : Nat} {maxRows : Option Nat}
    (h : u.withRows minRows maxRows = .ok v) :
    v.minRows = minRows ∧ v.nearestToZero = u.nearestToZero ∧ v.checkValue = u.checkValue := by
  cases maxRows with
  | none =>
    obtain rfl := Except.ok.inj h
    exact ⟨rfl, rfl, rfl⟩
  | some m =>
    rw [withRows] at h
    split at h
    · obtain rfl := Except.ok.inj h
      exact ⟨rfl, rfl, rfl⟩
    · cases h

/-- **The default value is the admitted value nearest to zero.**  It is
admitted, except as a whole number between two bounds that are the same
infinity, and no admitted value is nearer to zero.  Where it is admitted, the
default rows can be given as explicit ones as well. -/
theorem ofDomain_default {trailing : List Nat} {lower upper : Binary64} {integral : Bool}
    (h : ofDomain trailing lower upper integral = .ok u) :
    (u.checkValue u.nearestToZero = .ok () ↔
      ¬ (integral = true ∧ ∃ negative, lower = .infinity negative ∧ upper = .infinity negative)) ∧
    (∀ x, u.checkValue x = .ok () → u.nearestToZero.NoFarther x) ∧
    ∀ minRows maxRows v j, u.withRows minRows maxRows = .ok v → v.defaults = .ok j →
      (v.rowSize = 0 → minRows = 0) → u.checkValue u.nearestToZero = .ok () →
      ∀ {σ : Type} (insert : Journal Binary64 → EStateM Failure σ Unit),
        v.seed (List.replicate (minRows * v.rowSize) v.nearestToZero) insert = insert j := by
  unfold ofDomain at h
  split at h
  · obtain rfl := Except.ok.inj h
    refine ⟨?admitted, ?nearest, ?rows⟩
    case admitted =>
      rw [checkValue_eq_ok]
      exact admits_nearestToZero_iff
    case nearest =>
      intro x hx
      exact noFarther_of_admits (checkValue_eq_ok.mp hx)
    case rows =>
      intro minRows maxRows v j hv hj hz hdefault
      obtain ⟨rfl, hvalue, hcheck⟩ := elements_of_withRows hv
      rw [← hvalue, ← hcheck] at hdefault
      exact seed_defaults hz hdefault hj
  · cases h

/-- Any number of rows is allowed where there is no limit. -/
theorem zero_le_of_no_limit : ∀ m ∈ (none : Option Nat), 0 ≤ m := by simp

namespace Narrow

def minusSevenHalves : Binary64 := .ofUnits (-7 * (1 <<< 1073))

def minusHalf : Binary64 := .ofUnits (-1 * (1 <<< 1073))

/-- Pairs of whole numbers between the two. -/
def pairs : RowVariable where
  trailing := [2]
  lower := minusSevenHalves
  upper := minusHalf
  integral := true
  minRows := 0
  maxRows := none
  domain_nonempty := by decide +kernel
  minRows_le := zero_le_of_no_limit

/-- Two of them or more. -/
def twoPairs : RowVariable := { pairs with minRows := 2, minRows_le := by simp [pairs] }

theorem ofDomain_pairs : ofDomain [2] minusSevenHalves minusHalf true = .ok pairs := by
  have h : domainEmpty minusSevenHalves minusHalf true = false := by decide +kernel
  rw [ofDomain, dif_pos h]
  rfl

end Narrow

open Narrow in
/-- The upper bound, a negative fraction, is rounded up to zero before it is
minded. -/
theorem default_of_fractions :
    ofDomain [2] minusSevenHalves minusHalf true = .ok pairs ∧ pairs.nearestToZero = .ofInt (-1) ∧
      pairs.checkValue pairs.nearestToZero = .ok () ∧
      (Binary64.ofInt (-1)).NoFarther (.ofInt (-2)) ∧
      ∃ j, twoPairs.defaults = .ok j ∧
        ∀ {σ : Type} (insert : Journal Binary64 → EStateM Failure σ Unit),
          twoPairs.seed (List.replicate 4 (.ofInt (-1))) insert = insert j := by
  have hvalue : pairs.nearestToZero = .ofInt (-1) := by decide +kernel
  have hother : pairs.checkValue (.ofInt (-2)) = .ok () := by
    rw [checkValue_eq_ok]
    decide +kernel
  obtain ⟨hadmitted, hnearest, hrows⟩ := ofDomain_default ofDomain_pairs
  have hfinite : ∀ negative, minusHalf ≠ .infinity negative := by decide +kernel
  have hdefault := hadmitted.mpr fun ⟨_, negative, _, hu⟩ => hfinite negative hu
  refine ⟨ofDomain_pairs, hvalue, hdefault, ?_, ?_⟩
  · rw [← hvalue]
    exact hnearest _ hother
  · obtain ⟨j, hj⟩ := Outcome.exists_ok (x := twoPairs.defaults) (by decide +kernel)
    have hsize : twoPairs.rowSize = 2 := rfl
    have htwo : twoPairs.nearestToZero = .ofInt (-1) := by decide +kernel
    have hseed := @hrows 2 none twoPairs j rfl hj (by decide +kernel) hdefault
    rw [hsize, htwo] at hseed
    exact ⟨j, hj, hseed⟩

namespace Beyond

/-- Rows with one whole number, which has to be infinite. -/
def row : RowVariable where
  trailing := []
  lower := .infinity false
  upper := .infinity false
  integral := true
  minRows := 0
  maxRows := none
  domain_nonempty := by decide +kernel
  minRows_le := zero_le_of_no_limit

end Beyond

open Beyond in
/-- **No number is whole and infinite**, but such numbers can be asked for.  The
default value is refused then, like every other one. -/
theorem beyond_default_refused :
    ofDomain [] (.infinity false) (.infinity false) true = .ok row ∧
      row.nearestToZero = .infinity false ∧
      row.checkValue row.nearestToZero =
        .error (.valueOutOfBounds (.infinity false) (.infinity false) (.infinity false)) ∧
      ∀ x, row.checkValue x ≠ .ok () := by
  have h : domainEmpty (.infinity false) (.infinity false) true = false := by decide +kernel
  have hvalue : row.nearestToZero = .infinity false := by decide +kernel
  refine ⟨?_, hvalue, ?_, ?_⟩
  · rw [ofDomain, dif_pos h]
    rfl
  · rw [hvalue, checkValue, if_neg (by decide +kernel)]
    rfl
  · intro x hx
    exact not_admits_of_infinities rfl rfl rfl (checkValue_eq_ok.mp hx)

end RowVariable
end ArrayFlow
