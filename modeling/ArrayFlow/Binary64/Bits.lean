import ArrayFlow.Binary64.Basic

/-!
# The interchange encoding

A binary64 number as a 64-bit word: sign, eleven bits of exponent, 52 bits
of fraction.  Because a finite number is a count of units, the exponent
field is just the position of the grid it lies on: below `2 ^ 53` units the
magnitude bits are the count itself, and each doubling of the spacing adds
`2 ^ 52` to them.
-/

namespace ArrayFlow
namespace Binary64

/-- The magnitude bits of infinity: the exponent field full, the fraction empty. -/
def infinityBits : Nat := 2047 <<< 52

/-- The units that a word's magnitude bits (all but the sign) stand for. -/
def unitsOfMagnitude (bits : Nat) : Nat :=
  let exponent := bits >>> 52
  let fraction := bits % (1 <<< 52)
  if exponent = 0 then fraction else ((1 <<< 52) + fraction) <<< (exponent - 1)

/-- The magnitude bits of a representable count of units. -/
def magnitudeOfUnits (n : Nat) : Nat :=
  let shift := n.log2 - 52
  (shift <<< 52) + n >>> shift

/-- The number a 64-bit word encodes.  All words for NaN stand for the one
NaN. -/
def ofBits (word : UInt64) : Binary64 :=
  let negative := 1 <<< 63 ≤ word.toNat
  let magnitude := word.toNat % (1 <<< 63)
  if infinityBits < magnitude then nan
  else if magnitude = infinityBits then infinity negative
  else if magnitude = 0 ∧ negative then negZero
  else
    let n : Int := unitsOfMagnitude magnitude
    ofUnits (if negative then -n else n)

/-- The 64-bit word of a number. -/
def toBits : Binary64 → UInt64
  | nan => .ofNat (infinityBits + (1 <<< 51))
  | infinity negative => .ofNat ((if negative then 1 <<< 63 else 0) + infinityBits)
  | negZero => .ofNat (1 <<< 63)
  | finite z _ => .ofNat ((if z < 0 then 1 <<< 63 else 0) + magnitudeOfUnits z.natAbs)

end Binary64
end ArrayFlow
