/-!
# Ascending lists

Sets of positions are handed around as strictly increasing lists: `sorted`
puts any list into that form and keeps exactly its elements.
-/

namespace ArrayFlow
namespace Ascending

/-- Puts `a` in its place, unless it is there already. -/
def insert (a : Nat) : List Nat → List Nat
  | [] => [a]
  | b :: bs => if a < b then a :: b :: bs else if a = b then b :: bs else b :: insert a bs

/-- The elements of a list in increasing order, each once. -/
def sorted (xs : List Nat) : List Nat := xs.foldr insert []

@[simp] theorem mem_insert {a b : Nat} {bs : List Nat} : a ∈ insert b bs ↔ a = b ∨ a ∈ bs := by
  induction bs with
  | nil => simp [insert]
  | cons c cs ih =>
    simp only [insert]
    split
    · simp
    · split
      · simp_all
      · simp only [List.mem_cons, ih]; grind

@[simp] theorem mem_sorted {a : Nat} {xs : List Nat} : a ∈ sorted xs ↔ a ∈ xs := by
  induction xs with
  | nil => simp [sorted]
  | cons x xs ih => rw [sorted, List.foldr_cons, mem_insert, ← sorted, ih, List.mem_cons]

theorem pairwise_insert {a : Nat} {bs : List Nat} (h : bs.Pairwise (· < ·)) :
    (insert a bs).Pairwise (· < ·) := by
  induction bs with
  | nil => simp [insert]
  | cons b bs ih =>
    have hb := List.pairwise_cons.1 h
    simp only [insert]
    split
    · exact List.pairwise_cons.2 ⟨by grind, h⟩
    · split
      · exact h
      · refine List.pairwise_cons.2 ⟨?_, ih hb.2⟩
        intro c hc
        rcases mem_insert.1 hc with rfl | hc
        · omega
        · exact hb.1 c hc

/-- A sorted list is strictly increasing. -/
theorem pairwise_sorted (xs : List Nat) : (sorted xs).Pairwise (· < ·) := by
  induction xs with
  | nil => simp [sorted]
  | cons x xs ih => exact pairwise_insert ih

end Ascending
end ArrayFlow
