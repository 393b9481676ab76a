import ArrayFlow.Fault
import Mathlib.Tactic.Ring

/-!
# Checked arithmetic

What `word` and `signed` let pass are the numbers in the range of their type,
unchanged; everything else is an overflow.
-/

namespace ArrayFlow

theorem word_eq (n : Nat) : word n = if n < 2 ^ 64 then .ok n else .error .overflow := by
  have hiff : n ≤ maxSize ↔ n < 2 ^ 64 := by
    unfold maxSize
    omega
  unfold word
  simp only [hiff]

theorem signed_eq (i : Int) :
    signed i = if -2 ^ 63 ≤ i ∧ i < 2 ^ 63 then .ok i else .error .overflow := by
  have hiff : minSigned ≤ i ∧ i ≤ maxSigned ↔ -2 ^ 63 ≤ i ∧ i < 2 ^ 63 := by
    unfold minSigned maxSigned
    omega
  unfold signed
  simp only [hiff]

theorem word_eq_ok {n m : Nat} : word n = .ok m ↔ n < 2 ^ 64 ∧ n = m := by
  rw [word_eq]
  by_cases h : n < 2 ^ 64
  · rw [if_pos h, Except.ok.injEq, and_iff_right h]
  · rw [if_neg h]
    exact ⟨nofun, fun h' => absurd h'.1 h⟩

theorem word_of_lt {n : Nat} (h : n < 2 ^ 64) : word n = .ok n :=
  word_eq_ok.mpr ⟨h, rfl⟩

/-- A number that is no word is a fault, and there is no other. -/
theorem word_eq_error {n : Nat} {f : Fault} :
    word n = .error f ↔ ¬ n < 2 ^ 64 ∧ f = .overflow := by
  rw [word_eq]
  by_cases h : n < 2 ^ 64
  · rw [if_pos h]
    exact ⟨nofun, fun h' => absurd h h'.1⟩
  · rw [if_neg h, Except.error.injEq, and_iff_right h, eq_comm]

theorem signed_eq_ok {i j : Int} : signed i = .ok j ↔ (-2 ^ 63 ≤ i ∧ i < 2 ^ 63) ∧ i = j := by
  rw [signed_eq]
  by_cases h : -2 ^ 63 ≤ i ∧ i < 2 ^ 63
  · rw [if_pos h, Except.ok.injEq, and_iff_right h]
  · rw [if_neg h]
    exact ⟨nofun, fun h' => absurd h'.1 h⟩

theorem signed_of_mem {i : Int} (hlow : -2 ^ 63 ≤ i) (hhigh : i < 2 ^ 63) : signed i = .ok i :=
  signed_eq_ok.mpr ⟨⟨hlow, hhigh⟩, rfl⟩

theorem signed_of_ne_overflow {i : Int} (h : signed i ≠ .error .overflow) : signed i = .ok i := by
  rw [signed_eq] at h ⊢
  split
  · rfl
  · next hi => exact absurd (if_neg hi) h

theorem signed_eq_error {i : Int} {f : Fault} :
    signed i = .error f ↔ ¬ (-2 ^ 63 ≤ i ∧ i < 2 ^ 63) ∧ f = .overflow := by
  rw [signed_eq]
  by_cases h : -2 ^ 63 ≤ i ∧ i < 2 ^ 63
  · rw [if_pos h]
    exact ⟨nofun, fun h' => absurd h h'.1⟩
  · rw [if_neg h, Except.error.injEq, and_iff_right h, eq_comm]

end ArrayFlow
