/-!
# Machine words

Sizes, extents and strides are 64-bit words.  Where a quantity can be
negative, as the stride of a view or a bound on an axis can, the same word is
read as a signed number (`signedWord`), which changes nothing below `2 ^ 63`.
-/

namespace ArrayFlow

/-- The word of `n`, read as a signed number. -/
def signedWord (n : Nat) : Int := (n : Int).bmod (1 <<< 64)

/-- The largest size, which stands for an absent upper limit in the texts. -/
def maxSize : Nat := (1 <<< 64) - 1

/-- The least signed word. -/
def minSigned : Int := -9223372036854775808

/-- The greatest signed word. -/
def maxSigned : Int := 9223372036854775807

/-- The greatest number of elements that an array can hold: an element takes
eight bytes, and an array takes less than `2 ^ 63` of them. -/
def maxElements : Nat := (1 <<< 60) - 1

/-- A small word reads the same with and without a sign. -/
theorem signedWord_of_lt {n : Nat} (h : n < 1 <<< 63) : signedWord n = n := by
  unfold signedWord
  exact Int.bmod_eq_of_le_mul_two (by omega) (by omega)

end ArrayFlow
