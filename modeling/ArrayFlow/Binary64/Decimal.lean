import ArrayFlow.Binary64.Basic

/-!
# Decimal text of a number

A number is written with the fewest digits that read back as the same
number: of the decimals with that many digits inside the **rounding
interval** (the reals that round to the number) the nearest one, and of two
equally near ones the larger.  The notation is always positional, and a
whole number has no decimal point.
-/

namespace ArrayFlow

/-- A decimal number `digits * 10 ^ exponent`. -/
structure Decimal where
  digits : Nat
  exponent : Int

namespace Decimal

/-- The same number without trailing zeros in its digits, as long as
`fuel` lasts. -/
def trim : Nat → Decimal → Decimal
  | 0, d => d
  | fuel + 1, d =>
    if d.digits ≠ 0 ∧ d.digits % 10 = 0 then trim fuel ⟨d.digits / 10, d.exponent + 1⟩ else d

/-- Positional notation: zeros fill the places that the digits leave
between themselves and the decimal point. -/
def positional (d : Decimal) : List Char :=
  let digits := Nat.toDigits 10 d.digits
  if 0 ≤ d.exponent then digits ++ List.replicate d.exponent.toNat '0'
  else
    let places := (-d.exponent).toNat
    let padded := List.replicate (places + 1 - digits.length) '0' ++ digits
    padded.take (padded.length - places) ++ '.' :: padded.drop (padded.length - places)

end Decimal

namespace Binary64

/-- The reals that round to a number, in quarters of a unit, and whether the
two ends belong to them. -/
structure RoundingInterval where
  lower : Nat
  upper : Nat
  closed : Bool

/-- The rounding interval of a representable count of units.  Below a power
of two the grid is twice as fine, so the interval reaches half as far down. -/
def roundingInterval (n : Nat) : RoundingInterval :=
  let u := spacing n
  let below := if n = 1 <<< n.log2 ∧ 1 < u then u else 2 * u
  ⟨4 * n - below, 4 * n + 2 * u, n / u % 2 = 0⟩

/-- Whether `x / scale` quarters of a unit lie in the interval. -/
def RoundingInterval.admits (i : RoundingInterval) (x scale : Nat) : Bool :=
  if i.closed then i.lower * scale ≤ x && x ≤ i.upper * scale
  else i.lower * scale < x && x < i.upper * scale

/-- The multiple of `10 ^ exponent` in the rounding interval of `n` units
that is nearest to `n`, the larger one on a tie; `none` if there is none
among the two neighbours of `n`. -/
def nearestMultiple? (n : Nat) (exponent : Int) : Option Decimal :=
  let scale := Nat.pow 10 (-exponent).toNat
  let step := 4 * one * Nat.pow 10 exponent.toNat
  let value := 4 * n * scale
  let lower := value / step
  let i := roundingInterval n
  match i.admits (lower * step) scale, i.admits ((lower + 1) * step) scale with
  | true, true =>
    some ⟨if 2 * (value - lower * step) < step then lower else lower + 1, exponent⟩
  | true, false => some ⟨lower, exponent⟩
  | false, true => some ⟨lower + 1, exponent⟩
  | false, false => none

/-- The exponent of ten of the leading digit of a positive count of units. -/
def leadingExponent (n : Nat) : Int :=
  if one ≤ n then ((Nat.toDigits 10 (n / one)).length : Int) - 1
  else -((Nat.toDigits 10 ((one - 1) / n)).length : Int)

/-- The shortest decimal that reads back as a positive count of units.
Seventeen digits are always enough. -/
def shortest (n : Nat) : Decimal :=
  let e := leadingExponent n
  match (List.range 17).findSome? (fun (k : Nat) => nearestMultiple? n (e - k)) with
  | some d => d.trim 17
  | none => ⟨n / one, 0⟩

/-- The text of a number. -/
def text : Binary64 → String
  | nan => "NaN"
  | infinity negative => if negative then "-inf" else "inf"
  | negZero => "-0"
  | finite z _ =>
    if z = 0 then "0"
    else String.ofList ((if z < 0 then ['-'] else []) ++ (shortest z.natAbs).positional)

example : (ofInt (2 ^ 63)).text = "9223372036854776000" := by decide +kernel

example : (ofUnits (one / 10)).text = "0.1" := by decide +kernel

example : (ofUnits (-one * 5 / 2)).text = "-2.5" := by decide +kernel

example : negZero.text = "-0" := rfl

end Binary64
end ArrayFlow
