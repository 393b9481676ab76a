import ArrayFlow.Proofs.Slice

/-!
# A slice walks from one bound to the other

What a slice selects can be told as a walk: from its start, one step after the
other, for as long as the stop lies ahead.  Before that the bounds are put in
order, both by the same rule.  An absent one is the end of the axis from which
the walk comes or to which it goes, a negative one counts from the end, and
what lies outside is moved to the edge.

The program has no such walk.  It moves a bound at one edge only, and it finds
the number of steps by a division that rounds down.

* `getElem?_walk`, `getElem?_positions` — the walk and the positions of a
  range, read at one place;
* `clipped_eq_bound` — one edge is enough, since the sign of a bound tells which;
* `exists_walk` — the division counts the steps of the walk;
* `resolve?_walks` — **a slice resolves to the walk between its bounds**, and
  the walk stays on the axis.
-/

namespace ArrayFlow

/-- One position lies ahead of another in the direction of a step. -/
def Ahead (step a b : Int) : Prop := if 0 < step then a < b else b < a

instance (step a b : Int) : Decidable (Ahead step a b) := by
  unfold Ahead
  infer_instance

theorem ahead_up {t : Int} (ht : 0 < t) (a b : Int) : Ahead t a b ↔ a < b := by
  rw [Ahead, if_pos ht]

theorem ahead_down {t : Int} (ht : t < 0) (a b : Int) : Ahead t a b ↔ b < a := by
  rw [Ahead, if_neg (by omega)]

/-- What lies ahead after some steps lay ahead before them. -/
theorem Ahead.of_steps {t a b : Int} (ht : t ≠ 0) {k : Nat} (h : Ahead t (a + k * t) b) :
    Ahead t a b := by
  rcases Int.lt_or_gt_of_ne ht with hneg | hpos
  · rw [ahead_down hneg] at h ⊢
    have := Int.mul_nonpos_of_nonneg_of_nonpos (Int.natCast_nonneg k) (Int.le_of_lt hneg)
    omega
  · rw [ahead_up hpos] at h ⊢
    have := Int.mul_nonneg (Int.natCast_nonneg k) (Int.le_of_lt hpos)
    omega

/-- The positions `a`, `a + t`, `a + 2 * t` and so on, as long as `b` lies
ahead of them. -/
def walk (t a b : Int) : List Int :=
  if _h : t ≠ 0 ∧ Ahead t a b then a :: walk t (a + t) b else []
termination_by (if 0 < t then b - a else a - b).toNat
decreasing_by
  obtain ⟨ht, hahead⟩ := _h
  unfold Ahead at hahead
  by_cases hpos : 0 < t
  · simp only [hpos, if_true] at hahead ⊢
    omega
  · simp only [hpos, if_false] at hahead ⊢
    omega

/-- The walk, read at one place. -/
theorem getElem?_walk {t : Int} (ht : t ≠ 0) (a b : Int) (k : Nat) :
    (walk t a b)[k]? = if Ahead t (a + k * t) b then some (a + k * t) else none := by
  induction k generalizing a with
  | zero =>
    rw [walk]
    by_cases h : Ahead t a b
    · simp [h, ht]
    · simp [h]
  | succ k ih =>
    have hstep : a + (k + 1 : Nat) * t = a + t + k * t := by
      push_cast
      ring
    rw [walk]
    by_cases h : Ahead t a b
    · rw [dif_pos ⟨ht, h⟩, List.getElem?_cons_succ, ih, hstep]
    · have hend : ¬ Ahead t (a + (k + 1 : Nat) * t) b := fun hahead => h (hahead.of_steps ht)
      rw [dif_neg fun hahead => h hahead.2, if_neg hend, List.getElem?_nil]

/-- The positions of a range, read at one place. -/
theorem SliceRange.getElem?_positions (r : SliceRange) (k : Nat) :
    r.positions[k]? = if k < r.length then some (r.start + k * r.step) else none := by
  by_cases hk : k < r.length
  · simp [positions, hk]
  · simp [positions, hk]

namespace Slice

/-- The lowest place for a bound: the first position, or the one before it if
the walk goes down. -/
def lowest (s : Slice) : Int := if 0 < s.step then 0 else -1

/-- The highest place for a bound: the one behind the last position, or the
last position if the walk goes down. -/
def highest (s : Slice) (n : Nat) : Int := if 0 < s.step then n else n - 1

/-- Where a bound lies on an axis of `n` positions, moved to the edge if it
lies outside. -/
def bound (s : Slice) (n : Nat) (b : Int) : Int := max s.lowest (min (s.highest n) (place n b))

/-- Where the walk of a slice begins: at the end of the axis from which the
step leads away, unless the slice has a start. -/
def walkStart (s : Slice) (n : Nat) : Int :=
  match s.start with
  | none => if 0 < s.step then 0 else n - 1
  | some b => s.bound n b

/-- Before which place the walk of a slice ends: behind the end of the axis to
which the step leads, unless the slice has a stop. -/
def walkStop (s : Slice) (n : Nat) : Int :=
  match s.stop with
  | none => if 0 < s.step then n else -1
  | some b => s.bound n b

variable {s : Slice} {n : Nat}

/-- Of a negative bound only the lower edge has to be minded, and of any other
only the upper one. -/
theorem clipped_eq_bound (s : Slice) (n : Nat) (b default : Int) :
    clipped n (some b) default s.lowest (s.highest n) = s.bound n b := by
  simp only [clipped, bound, place, lowest, highest]
  by_cases hs : 0 < s.step
  · simp only [hs, if_true]
    split <;> omega
  · simp only [hs, if_false]
    split <;> omega

theorem clipped_eq_walkStart (s : Slice) (n : Nat) :
    clipped n s.start (if 0 < s.step then 0 else n - 1) s.lowest (s.highest n) = s.walkStart n := by
  unfold walkStart
  cases s.start with
  | none => rfl
  | some b => exact clipped_eq_bound s n b _

theorem clipped_eq_walkStop (s : Slice) (n : Nat) :
    clipped n s.stop (if 0 < s.step then n else -1) s.lowest (s.highest n) = s.walkStop n := by
  unfold walkStop
  cases s.stop with
  | none => rfl
  | some b => exact clipped_eq_bound s n b _

theorem lt_steps_down {a b t : Int} (ht : t < 0) (k : Nat) :
    k < (if b < a then (a - b - 1) / -t + 1 else 0).toNat ↔ b < a + k * t := by
  have hsteps := @lt_steps (-a) (-b) (-t) (by omega) k
  simp only [Int.mul_neg, Int.neg_lt_neg_iff, show -b - -a - 1 = a - b - 1 by omega] at hsteps
  rw [hsteps]
  omega

/-- A slice goes from the start of the walk by its own step, and takes as many
steps as there are before the stop. -/
theorem exists_walk (hn : n < 2 ^ 63) (hs : s.step ≠ 0) :
    ∃ r, s.range? n = some r ∧ r.start = s.walkStart n ∧ r.step = s.step ∧
      ∀ k : Nat, k < r.length ↔ Ahead s.step (s.walkStart n + k * s.step) (s.walkStop n) := by
  rw [← clipped_eq_walkStart, ← clipped_eq_walkStop, lowest, highest, range?, signedWord_of_lt hn]
  rcases Int.lt_or_gt_of_ne hs with hneg | hpos
  · have hnot : ¬ 0 < s.step := by omega
    simp only [hnot, hneg, if_true, if_false]
    refine ⟨_, rfl, rfl, rfl, ?_⟩
    intro k
    rw [ahead_down hneg]
    exact lt_steps_down hneg k
  · simp only [hpos, if_true]
    refine ⟨_, rfl, rfl, rfl, ?_⟩
    intro k
    rw [ahead_up hpos]
    exact lt_steps hpos k

/-- **A slice resolves to the walk between its bounds.**  The positions of the
range are those of the walk, in its order, and each of them lies on the axis.
A slice that is not resolved has overflown, and one whose bounds and step are
words does not. -/
theorem resolve?_walks (hn : n < 2 ^ 63) (hs : s.step ≠ 0) :
    ∃ r, (s.resolve? n = .ok (some r) ∨ s.resolve? n = .error .overflow) ∧
      (s.InWords → s.resolve? n = .ok (some r)) ∧
        r.positions = walk s.step (s.walkStart n) (s.walkStop n) ∧
          ∀ p ∈ r.positions, 0 ≤ p ∧ p < n := by
  obtain ⟨r, hr, hstart, hstep, hlength⟩ := exists_walk hn hs
  refine ⟨r, ?_, ?_, ?_, ?_⟩
  · cases hresolve : s.resolve? n with
    | ok found => exact .inl (congrArg Except.ok ((resolve?_eq_ok hresolve).symm.trans hr))
    | error f => exact .inr (congrArg Except.error (resolve?_eq_error hresolve))
  · intro hwords
    rw [resolve?_eq_range? hn hwords, hr]
  · apply List.ext_getElem?
    intro k
    rw [r.getElem?_positions, getElem?_walk hs, hstart, hstep]
    simp only [hlength]
  · intro p hp
    obtain ⟨k, hk, rfl⟩ := List.mem_map.mp hp
    exact (range?_on hn hr).inside k (List.mem_range.mp hk)

/-- From beyond one end of an axis to beyond the other, backwards by threes. -/
def backward : Slice := ⟨some 10, some (-7), -3⟩

theorem backward_inWords : backward.InWords where
  start := by decide
  stop := by decide
  step := by decide

/-- Both bounds are moved: the walk goes from 4 and stays above -1. -/
theorem backward_walks :
    (5 < 2 ^ 63 ∧ backward.step ≠ 0) ∧ (backward.walkStart 5 = 4 ∧ backward.walkStop 5 = -1) ∧
      ∃ r, backward.resolve? 5 = .ok (some r) ∧
        r.positions = walk (-3) (backward.walkStart 5) (backward.walkStop 5) ∧
          r.positions = [4, 1] ∧ ∀ p ∈ r.positions, 0 ≤ p ∧ p < (5 : Nat) := by
  have hn : 5 < 2 ^ 63 := by decide
  have hs : backward.step ≠ 0 := by decide
  obtain ⟨r, -, hr, hwalk, hmem⟩ := resolve?_walks hn hs
  have hresolve := hr backward_inWords
  have hrange : backward.resolve? 5 = .ok (some ⟨4, -3, 2⟩) := by decide +kernel
  obtain rfl := Option.some.inj (Except.ok.inj (hrange.symm.trans hresolve))
  exact ⟨⟨hn, hs⟩, by decide, _, hresolve, hwalk, by decide, hmem⟩

end Slice
end ArrayFlow
