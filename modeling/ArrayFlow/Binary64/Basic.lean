/-!
# Numbers of the binary64 format

Array elements are the numbers of the IEEE 754 binary64 format.  Every
finite one is a whole multiple of the smallest positive one, `2 ^ -1074`,
so it is held as that multiple, an `Int` of **units**; a unit count is
**representable** if it has at most 53 significant bits and lies below the
overflow limit.  Comparing two numbers is then comparing two integers, and
wholeness, floor and ceiling are integer division by `one = 2 ^ 1074`.

* `place?` — where a number lies on the line of units, infinities included
  (NaN lies nowhere); `==`, `<` and `≤` compare places;
* `ofUnits` — the nearest number to a unit count, a tie going to the even
  significand;
* `spacing_dvd_nearest` — rounding always lands on a representable count.
-/

namespace ArrayFlow
namespace Binary64

/-- The number of units in one. -/
def one : Nat := 1 <<< 1074

/-- The number of units in the first power of two that overflows. -/
def limit : Nat := 1 <<< 2098

/-- The distance between neighbouring 53-bit numbers at magnitude `n`. -/
def spacing (n : Nat) : Nat := 1 <<< (n.log2 - 52)

/-- A magnitude is representable if it lies on the 53-bit grid below the
overflow limit. -/
def Representable (n : Nat) : Prop := spacing n ∣ n ∧ n < limit

instance (n : Nat) : Decidable (Representable n) :=
  inferInstanceAs (Decidable (_ ∧ _))

/-- The 53-bit number nearest to `n`; a tie goes to the even significand. -/
def nearest (n : Nat) : Nat :=
  let u := spacing n
  let q := n / u
  let r := n % u
  if 2 * r < u ∨ (2 * r = u ∧ q % 2 = 0) then q * u else (q + 1) * u

theorem one_pos : 0 < one := by rw [one, Nat.one_shiftLeft]; exact Nat.two_pow_pos 1074

theorem limit_pos : 0 < limit := by rw [limit, Nat.one_shiftLeft]; exact Nat.two_pow_pos 2098

theorem spacing_pos (n : Nat) : 0 < spacing n := by
  rw [spacing, Nat.one_shiftLeft]
  exact Nat.two_pow_pos _

/-- A multiple of `2 ^ s` between `2 ^ (52 + s)` and the next power of two,
both included, lies on its own grid. -/
theorem spacing_dvd_of_between {s m : Nat} (hd : 1 <<< s ∣ m)
    (hlo : 1 <<< (52 + s) ≤ m) (hhi : m ≤ 1 <<< (53 + s)) : spacing m ∣ m := by
  rw [Nat.one_shiftLeft] at hd hlo hhi
  have hm : m ≠ 0 := by have := Nat.two_pow_pos (52 + s); omega
  rcases Nat.lt_or_eq_of_le hhi with hlt | rfl
  · have h1 : 52 + s ≤ m.log2 := (Nat.le_log2 hm).2 hlo
    have h2 : m.log2 < 53 + s := (Nat.log2_lt hm).2 hlt
    have : m.log2 - 52 = s := by omega
    rwa [spacing, this, Nat.one_shiftLeft]
  · have : (2 ^ (53 + s)).log2 - 52 = s + 1 := by rw [Nat.log2_two_pow]; omega
    rw [spacing, this, Nat.one_shiftLeft]
    exact Nat.pow_dvd_pow 2 (by omega)

/-- Rounding goes to the multiple of the spacing below or to the one above. -/
theorem nearest_eq_or (n : Nat) :
    nearest n = n / spacing n * spacing n ∨ nearest n = (n / spacing n + 1) * spacing n := by
  simp only [nearest]
  split
  · exact .inl rfl
  · exact .inr rfl

/-- Rounding lands on the grid. -/
theorem spacing_dvd_nearest (n : Nat) : spacing (nearest n) ∣ nearest n := by
  by_cases hs : n.log2 - 52 = 0
  · have hu : spacing n = 1 := by simp [spacing, hs]
    have : nearest n = n := by simp [nearest, hu, Nat.mod_one]
    rw [this, hu]
    exact Nat.one_dvd n
  · have hn : n ≠ 0 := by rintro rfl; simp at hs
    have hlo : 2 ^ (52 + (n.log2 - 52)) ≤ n := by
      have := Nat.log2_self_le hn
      rwa [show 52 + (n.log2 - 52) = n.log2 by omega]
    have hhi : n < 2 ^ (53 + (n.log2 - 52)) := by
      have := @Nat.lt_log2_self n
      rwa [show 53 + (n.log2 - 52) = n.log2 + 1 by omega]
    have hu := spacing_pos n
    have hq : 2 ^ 52 ≤ n / spacing n := by
      rw [Nat.le_div_iff_mul_le hu, spacing, Nat.one_shiftLeft, ← Nat.pow_add]; exact hlo
    have hq' : n / spacing n < 2 ^ 53 := by
      rw [Nat.div_lt_iff_lt_mul hu, spacing, Nat.one_shiftLeft, ← Nat.pow_add]; exact hhi
    have key : ∀ q, 2 ^ 52 ≤ q → q ≤ 2 ^ 53 → spacing (q * spacing n) ∣ q * spacing n := by
      intro q h1 h2
      refine spacing_dvd_of_between (s := n.log2 - 52) (Nat.dvd_mul_left _ _) ?_ ?_
      · rw [spacing, Nat.one_shiftLeft, Nat.one_shiftLeft, Nat.pow_add]
        exact Nat.mul_le_mul_right _ h1
      · rw [spacing, Nat.one_shiftLeft, Nat.one_shiftLeft, Nat.pow_add]
        exact Nat.mul_le_mul_right _ h2
    rcases nearest_eq_or n with h | h <;> rw [h]
    · exact key _ hq (by omega)
    · exact key _ (by omega) (by omega)

end Binary64

/-- A binary64 number.  The finite ones are unit counts; the zero that
carries a minus sign is a number of its own, at the same place as zero. -/
inductive Binary64 where
  | nan
  | infinity (negative : Bool)
  | negZero
  | finite (units : Int) (representable : Binary64.Representable units.natAbs)
  deriving DecidableEq

namespace Binary64

/-- The number nearest to a count of units; beyond the largest finite
number it is infinite. -/
def ofUnits (z : Int) : Binary64 :=
  let m := nearest z.natAbs
  if h : m < limit then
    finite (if z < 0 then -(m : Int) else m) (by
      have : (if z < 0 then -(m : Int) else m).natAbs = m := by split <;> simp
      rw [this]
      exact ⟨spacing_dvd_nearest _, h⟩)
  else infinity (z < 0)

/-- The number nearest to an integer. -/
def ofInt (k : Int) : Binary64 := ofUnits (k * one)

/-- The number nearest to a natural number. -/
def ofNat (n : Nat) : Binary64 := ofInt n

/-- Zero without a sign. -/
def zero : Binary64 := ofUnits 0

instance : Inhabited Binary64 := ⟨zero⟩

/-- The place on the line of units.  The infinities lie at the overflow
limit, outside every finite number; NaN has no place. -/
def place? : Binary64 → Option Int
  | nan => none
  | infinity true => some (-limit)
  | infinity false => some limit
  | negZero => some 0
  | finite z _ => some z

/-- Two numbers are equal if they have the same place; NaN equals nothing,
and the two zeros are equal. -/
instance : BEq Binary64 where
  beq a b := match a.place?, b.place? with
    | some x, some y => x == y
    | _, _ => false

/-- One number lies below another. -/
def lt (a b : Binary64) : Bool := match a.place?, b.place? with
  | some x, some y => x < y
  | _, _ => false

/-- One number lies below another or at the same place. -/
def le (a b : Binary64) : Bool := match a.place?, b.place? with
  | some x, some y => x ≤ y
  | _, _ => false

instance : LT Binary64 := ⟨fun a b => a.lt b = true⟩

instance : LE Binary64 := ⟨fun a b => a.le b = true⟩

instance (a b : Binary64) : Decidable (a < b) := inferInstanceAs (Decidable (_ = _))

instance (a b : Binary64) : Decidable (a ≤ b) := inferInstanceAs (Decidable (_ = _))

/-- Equal numbers share a place. -/
theorem beq_iff {a b : Binary64} :
    (a == b) = true ↔ ∃ x, a.place? = some x ∧ b.place? = some x := by
  simp only [BEq.beq]
  cases a.place? <;> cases b.place? <;> simp [eq_comm]

theorem lt_iff {a b : Binary64} :
    a < b ↔ ∃ x y, a.place? = some x ∧ b.place? = some y ∧ x < y := by
  show a.lt b = true ↔ _
  unfold lt
  cases a.place? <;> cases b.place? <;> simp

theorem le_iff {a b : Binary64} :
    a ≤ b ↔ ∃ x y, a.place? = some x ∧ b.place? = some y ∧ x ≤ y := by
  show a.le b = true ↔ _
  unfold le
  cases a.place? <;> cases b.place? <;> simp

/-- Whether this is the number without a place. -/
def isNaN (a : Binary64) : Bool := a.place?.isNone

/-- Whether this is a finite whole number. -/
def isWhole : Binary64 → Bool
  | negZero => true
  | finite z _ => z % one == 0
  | _ => false

/-- The least whole number that is not smaller.  Numbers between -1 and 0
go to the zero that carries a minus sign. -/
def ceil : Binary64 → Binary64
  | finite z h =>
    if z % one = 0 then finite z h
    else
      let k := -(-z / one)
      if k = 0 then negZero else ofInt k
  | a => a

/-- The greatest whole number that is not larger. -/
def floor : Binary64 → Binary64
  | finite z h => if z % one = 0 then finite z h else ofInt (z / one)
  | a => a

/-- The smaller of two numbers, NaN giving way; of two at one place, the
second. -/
def min (a b : Binary64) : Binary64 := if b.isNaN || a < b then a else b

/-- The larger of two numbers, NaN giving way; of two at one place, the
second. -/
def max (a b : Binary64) : Binary64 := if b.isNaN || b < a then a else b

/-- The number of `[lower, upper]` nearest to `a`. -/
def clamp (a lower upper : Binary64) : Binary64 :=
  if a < lower then lower else if upper < a then upper else a

/-- The whole part as a position; what is not a positive finite number has
position 0. -/
def toNat : Binary64 → Nat
  | finite z _ => (z / one).toNat
  | _ => 0

end Binary64
end ArrayFlow
