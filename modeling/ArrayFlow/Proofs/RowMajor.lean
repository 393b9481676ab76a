import ArrayFlow.Proofs.Outcome
import ArrayFlow.Proofs.Word
import ArrayFlow.RowMajor
import Mathlib.Data.Int.ModEq
import Mathlib.Data.List.Forall2
import Mathlib.Tactic.Ring

/-!
# Taking positions apart and putting them together

A flat position below the number of elements and a list of coordinates below
the extents are the same thing: `split` and `flatten` lead back and forth.
Both statements carry one more leading coordinate without an extent, so they
hold for the growing axis of a dynamic array as well.

* `split_spec` — the coordinates of a position lie below the extents and lead
  back to it;
* `split_flatten` — coordinates below the extents are found again;
* `count_eq`, `strides_eq` — what the two walks over the extents find, and
  when they overflow: the one multiplies from the first extent on, the other
  from the last one;
* `coordinates_correspond` — all this for the extents of any array.

The strides that are meant to be found are the `weights` of the axes, and the
distance that is meant to be covered is the `dot` of coordinates and strides.
-/

namespace ArrayFlow
namespace RowMajor

/-- Each coordinate lies below its extent. -/
abbrev Within (coordinates extents : List Nat) : Prop :=
  List.Forall₂ (· < ·) coordinates extents

/-- The number of elements behind each axis. -/
def weights : List Nat → List Nat
  | [] => []
  | _ :: ns => size ns :: weights ns

/-- The sum of coordinate times stride, for strides of either sign. -/
def dot : (coordinates : List Nat) → (weights : List Int) → Int
  | c :: cs, s :: ss => c * s + dot cs ss
  | _, _ => 0

@[simp] theorem length_weights (extents : List Nat) :
    (weights extents).length = extents.length := by
  induction extents with
  | nil => rfl
  | cons n ns ih => simp [weights, ih]

@[simp] theorem flatten_nil (ss : List Nat) : flatten [] ss = 0 := rfl

@[simp] theorem flatten_cons (c : Nat) (cs : List Nat) (s : Nat) (ss : List Nat) :
    flatten (c :: cs) (s :: ss) = c * s + flatten cs ss := rfl

theorem flatten_append {cs ds ss ts : List Nat} (h : cs.length = ss.length) :
    flatten (cs ++ ds) (ss ++ ts) = flatten cs ss + flatten ds ts := by
  induction cs generalizing ss with
  | nil =>
    rw [List.length_eq_zero_iff.mp h.symm, flatten_nil, Nat.zero_add, List.nil_append,
      List.nil_append]
  | cons c cs ih =>
    cases ss with
    | nil => cases h
    | cons s ss =>
      rw [List.cons_append, List.cons_append, flatten_cons, flatten_cons, ih (Nat.succ.inj h),
        Nat.add_assoc]

@[simp] theorem dot_nil (ss : List Int) : dot [] ss = 0 := rfl

@[simp] theorem dot_cons (c : Nat) (cs : List Nat) (s : Int) (ss : List Int) :
    dot (c :: cs) (s :: ss) = c * s + dot cs ss := rfl

@[simp] theorem dot_nil_right (cs : List Nat) : dot cs [] = 0 := by
  cases cs <;> rfl

theorem size_ne_zero {ns : List Nat} : size ns ≠ 0 ↔ ∀ n ∈ ns, n ≠ 0 := by
  induction ns with
  | nil => simp [size]
  | cons n ns ih => simp only [size, Nat.mul_ne_zero_iff, ih, List.forall_mem_cons]

theorem size_eq_prod (ns : List Nat) : size ns = ns.prod := by
  induction ns with
  | nil => rfl
  | cons n ns ih => rw [size, List.prod_cons, ih]

/-- The stride of an axis is the product of the extents behind it. -/
theorem getElem?_weights (ns : List Nat) {i : Nat} (h : i < ns.length) :
    (weights ns)[i]? = some (ns.drop (i + 1)).prod := by
  induction ns generalizing i with
  | nil => exact absurd h (Nat.not_lt_zero i)
  | cons n ns ih =>
    cases i with
    | zero => rw [weights, List.getElem?_cons_zero, size_eq_prod, List.drop_succ_cons, List.drop_zero]
    | succ i =>
      rw [weights, List.getElem?_cons_succ, List.drop_succ_cons]
      exact ih (Nat.lt_of_succ_lt_succ h)

theorem size_append (ms ns : List Nat) : size (ms ++ ns) = size ms * size ns := by
  induction ms with
  | nil => simp [size]
  | cons m ms ih => simp only [List.cons_append, size, ih, Nat.mul_assoc]

/-- An extent is at most the number of elements, unless there are none. -/
theorem le_size {ns : List Nat} (h : size ns ≠ 0) {n : Nat} (hn : n ∈ ns) : n ≤ size ns := by
  induction ns with
  | nil => simp at hn
  | cons m ns ih =>
    rw [size, Nat.mul_ne_zero_iff] at h
    rcases List.mem_cons.mp hn with rfl | hn
    · exact Nat.le_mul_of_pos_right _ (Nat.pos_of_ne_zero h.2)
    · exact Nat.le_trans (ih h.2 hn) (Nat.le_mul_of_pos_left _ (Nat.pos_of_ne_zero h.1))

/-- Coordinates below the extents stay below the number of elements. -/
theorem flatten_lt {cs ns : List Nat} (h : Within cs ns) : flatten cs (weights ns) < size ns := by
  induction h with
  | nil => simp [size]
  | @cons c n cs ns hc _ ih =>
    rw [weights, flatten_cons, size]
    calc c * size ns + flatten cs (weights ns) < c * size ns + size ns := by omega
      _ = (c + 1) * size ns := by ring
      _ ≤ n * size ns := Nat.mul_le_mul_right _ hc

/-- A coordinate is less than the number of elements. -/
theorem Within.lt_size {cs ns : List Nat} (h : Within cs ns) {c : Nat} (hc : c ∈ cs) :
    c < size ns := by
  induction h with
  | nil => cases hc
  | @cons x n cs ns hx hw ih =>
    have hpos : 0 < size ns := Nat.zero_lt_of_lt (flatten_lt hw)
    rcases List.mem_cons.mp hc with rfl | hc
    · exact Nat.lt_of_lt_of_le hx (Nat.le_mul_of_pos_right _ hpos)
    · exact Nat.lt_of_lt_of_le (ih hc) (Nat.le_mul_of_pos_left _ (Nat.zero_lt_of_lt hx))

/-- Coordinates for some axes and for those behind them come apart. -/
theorem exists_append_of_within {cs ms ns : List Nat} (h : Within cs (ms ++ ns)) :
    ∃ as bs, cs = as ++ bs ∧ Within as ms ∧ Within bs ns :=
  ⟨_, _, (List.take_append_drop ms.length cs).symm, List.forall₂_take_append _ _ _ h,
    List.forall₂_drop_append _ _ _ h⟩

/-- The position of coordinates for some axes and for those behind them. -/
theorem flatten_append_weights {cs ms : List Nat} (h : cs.length = ms.length) (ds ns : List Nat) :
    flatten (cs ++ ds) (weights (ms ++ ns)) =
      flatten cs (weights ms) * size ns + flatten ds (weights ns) := by
  induction cs generalizing ms with
  | nil =>
    obtain rfl := List.eq_nil_of_length_eq_zero h.symm
    simp
  | cons c cs ih =>
    cases ms with
    | nil => cases h
    | cons m ms =>
      rw [List.cons_append, List.cons_append, weights, flatten_cons, ih (Nat.succ.inj h),
        size_append, weights, flatten_cons]
      ring

/-- The carry and the coordinates of a position lead back to it, and the
coordinates lie below the extents. -/
theorem split_spec {ns : List Nat} (h : size ns ≠ 0) (k : Nat) :
    (split ns k).1 * size ns + flatten (split ns k).2 (weights ns) = k ∧
      Within (split ns k).2 ns := by
  induction ns with
  | nil => simp [split, size]
  | cons n ns ih =>
    rw [size, Nat.mul_ne_zero_iff] at h
    obtain ⟨hk, hw⟩ := ih h.2
    simp only [split, h.1, if_false, weights, flatten_cons, size]
    refine ⟨?_, .cons (Nat.mod_lt _ (Nat.pos_of_ne_zero h.1)) hw⟩
    calc (split ns k).1 / n * (n * size ns) +
          ((split ns k).1 % n * size ns + flatten (split ns k).2 (weights ns))
        = (n * ((split ns k).1 / n) + (split ns k).1 % n) * size ns +
          flatten (split ns k).2 (weights ns) := by ring
      _ = k := by rw [Nat.div_add_mod, hk]

/-- Coordinates below the extents are found again, and what stands before
them is the carry. -/
theorem split_flatten {cs ns : List Nat} (h : Within cs ns) (c : Nat) :
    split ns (c * size ns + flatten cs (weights ns)) = (c, cs) := by
  induction h generalizing c with
  | nil => simp [split, size]
  | @cons x n cs ns hx _ ih =>
    have hn : n ≠ 0 := by omega
    have hsum : c * size (n :: ns) + flatten (x :: cs) (weights (n :: ns)) =
        (c * n + x) * size ns + flatten cs (weights ns) := by
      rw [weights, flatten_cons, size]; ring
    rw [hsum]
    simp only [split, ih, hn, if_false]
    rw [Nat.mul_comm c n, Nat.mul_add_div (by omega), Nat.mul_add_mod,
      Nat.div_eq_of_lt hx, Nat.mod_eq_of_lt hx, Nat.add_zero]

theorem coordinates_flatten {cs ns : List Nat} (h : Within cs ns) :
    coordinates ns (flatten cs (weights ns)) = cs := by
  have := split_flatten h 0
  rw [Nat.zero_mul, Nat.zero_add] at this
  rw [coordinates, this]

theorem within_coordinates {ns : List Nat} {k : Nat} (h : k < size ns) :
    Within (coordinates ns k) ns :=
  (split_spec (by omega) k).2

/-- A position below the number of elements has no carry. -/
theorem flatten_coordinates {ns : List Nat} {k : Nat} (h : k < size ns) :
    flatten (coordinates ns k) (weights ns) = k := by
  have hspec := (@split_spec ns (by omega) k).1
  have hcarry : (split ns k).1 = 0 := by
    rcases Nat.eq_zero_or_pos (split ns k).1 with h0 | hpos
    · exact h0
    · have := Nat.le_mul_of_pos_left (size ns) hpos
      omega
  rwa [hcarry, Nat.zero_mul, Nat.zero_add] at hspec

/-- The first position has only zeros for coordinates. -/
theorem split_zero (ns : List Nat) : split ns 0 = (0, ns.map fun _ => 0) := by
  induction ns with
  | nil => rfl
  | cons n ns ih => simp only [split, ih]; split <;> simp

theorem dot_coordinates_zero (ns : List Nat) (ss : List Int) : dot (coordinates ns 0) ss = 0 := by
  rw [coordinates, split_zero]
  induction ns generalizing ss with
  | nil => rfl
  | cons n ns ih =>
    cases ss with
    | nil => rfl
    | cons s ss =>
      rw [List.map_cons, dot_cons, ih, Int.natCast_zero, Int.zero_mul, Int.zero_add]

/-- The extent of the leading axis has no part in the coordinates of a
position that the axis is long enough for. -/
theorem coordinates_cons {n : Nat} {ns : List Nat} {k : Nat} (h : k < n * size ns) :
    coordinates (n :: ns) k = (split ns k).1 :: (split ns k).2 := by
  have hpos : n * size ns ≠ 0 := by omega
  rw [Nat.mul_ne_zero_iff] at hpos
  have hspec := (split_spec hpos.2 k).1
  have hlt : (split ns k).1 < n := by
    rw [← Nat.not_le]
    intro hle
    have := Nat.mul_le_mul_right (size ns) hle
    omega
  simp only [coordinates, split, hpos.1, if_false, Nat.mod_eq_of_lt hlt]

/-! ### The distance of coordinates -/

@[simp] theorem advance_nil (distance : Int) (ss : List Int) :
    advance distance [] ss = .ok distance := rfl

@[simp] theorem advance_nil_right (distance : Int) (cs : List Nat) :
    advance distance cs [] = .ok distance := by
  cases cs <;> rfl

/-- A number and the signed word that it is read as are congruent. -/
theorem signedWord_modEq (n : Nat) : signedWord n ≡ n [ZMOD 2 ^ 64] := by
  unfold signedWord
  exact Int.bmod_emod

/-- The distance that is found is congruent to the one that is meant. -/
theorem advance_modEq {distance found : Int} {cs : List Nat} {ss : List Int}
    (h : advance distance cs ss = .ok found) : found ≡ distance + dot cs ss [ZMOD 2 ^ 64] := by
  induction cs generalizing distance ss with
  | nil =>
    obtain rfl := Except.ok.inj h
    rw [dot_nil, Int.add_zero]
  | cons c cs ih =>
    cases ss with
    | nil =>
      obtain rfl := Except.ok.inj h
      rw [dot_nil_right, Int.add_zero]
    | cons s ss =>
      obtain ⟨term, hterm, h⟩ := Outcome.bind_eq_ok.mp h
      obtain ⟨next, hnext, h⟩ := Outcome.bind_eq_ok.mp h
      obtain ⟨-, rfl⟩ := signed_eq_ok.mp hterm
      obtain ⟨-, rfl⟩ := signed_eq_ok.mp hnext
      rw [dot_cons, ← Int.add_assoc]
      exact (ih h).trans (((signedWord_modEq c).mul_right s).add_left distance |>.add_right _)

/-- If the distance stays small on the way, it is found. -/
theorem advance_eq (distance : Int) {cs : List Nat} (ss : List Int) (hcs : ∀ c ∈ cs, c < 2 ^ 63)
    (hway : ∀ i, |distance + dot (cs.take i) ss| < 2 ^ 62) :
    advance distance cs ss = .ok (distance + dot cs ss) := by
  induction cs generalizing distance ss with
  | nil => rw [advance_nil, dot_nil, Int.add_zero]
  | cons c cs ih =>
    cases ss with
    | nil => rw [advance_nil_right, dot_nil_right, Int.add_zero]
    | cons s ss =>
      obtain ⟨hc, hcs⟩ := List.forall_mem_cons.mp hcs
      have hstart := abs_lt.mp (hway 0)
      have hnext := abs_lt.mp (hway 1)
      simp only [List.take_zero, List.take_succ_cons, dot_nil, dot_cons, Int.add_zero] at hstart hnext
      have hword : signedWord c = c := signedWord_of_lt hc
      rw [advance, hword, signed_of_mem (by omega) (by omega)]
      show signed (distance + c * s) >>= _ = _
      rw [signed_of_mem (by omega) (by omega), dot_cons, ← Int.add_assoc]
      refine ih _ ss hcs fun i => ?_
      have h := hway (i + 1)
      rwa [List.take_succ_cons, dot_cons, ← Int.add_assoc] at h

/-- Coordinates that are followed by zeros. -/
theorem dot_append_zeros (cs zeros : List Nat) (ss : List Int) (h : ∀ z ∈ zeros, z = 0) :
    dot (cs ++ zeros) ss = dot cs ss := by
  induction cs generalizing ss with
  | nil =>
    rw [List.nil_append, dot_nil]
    induction zeros generalizing ss with
    | nil => rfl
    | cons z zs ih =>
      obtain ⟨rfl, hzs⟩ := List.forall_mem_cons.mp h
      cases ss with
      | nil => rfl
      | cons s ss => rw [dot_cons, ih hzs, Int.natCast_zero, Int.zero_mul, Int.zero_add]
  | cons c cs ih =>
    cases ss with
    | nil => rfl
    | cons s ss => rw [List.cons_append, dot_cons, dot_cons, ih]

/-- Coordinates with zeros in the place of the last ones. -/
theorem Within.take {cs ns : List Nat} (h : Within cs ns) (i : Nat) :
    Within (cs.take i ++ (cs.drop i).map fun _ => 0) ns := by
  induction h generalizing i with
  | nil => simp
  | @cons c n cs ns hc hw ih =>
    cases i with
    | zero =>
      have h := ih 0
      rw [List.take_zero, List.nil_append, List.drop_zero] at h ⊢
      exact .cons (Nat.zero_lt_of_lt hc) h
    | succ i => exact .cons hc (ih i)

theorem flatten_take_le (cs ss : List Nat) (i : Nat) :
    flatten (cs.take i ++ (cs.drop i).map fun _ => 0) ss ≤ flatten cs ss := by
  induction cs generalizing i ss with
  | nil => simp
  | cons c cs ih =>
    cases ss with
    | nil => exact Nat.le_of_eq (by cases i <;> rfl)
    | cons s ss =>
      cases i with
      | zero =>
        have h := ih ss 0
        rw [List.take_zero, List.nil_append, List.drop_zero] at h ⊢
        rw [List.map_cons, flatten_cons, flatten_cons]
        omega
      | succ i =>
        rw [List.take_succ_cons, List.drop_succ_cons, List.cons_append, flatten_cons, flatten_cons]
        exact Nat.add_le_add_left (ih ss i) _

/-- A coordinate is no greater than the position. -/
theorem Within.le_flatten {cs ns : List Nat} (h : Within cs ns) {c : Nat} (hc : c ∈ cs) :
    c ≤ flatten cs (weights ns) := by
  induction h with
  | nil => cases hc
  | @cons x n cs ns hx hw ih =>
    rw [weights, flatten_cons]
    rcases List.mem_cons.mp hc with rfl | hc
    · have hpos : 0 < size ns := Nat.zero_lt_of_lt (flatten_lt hw)
      exact Nat.le_trans (Nat.le_mul_of_pos_right _ hpos) (Nat.le_add_right _ _)
    · exact Nat.le_trans (ih hc) (Nat.le_add_left _ _)

/-! ### The walks over the extents -/

/-- Multiplying `k` by one extent after the other gives words only. -/
def CountsFrom (k : Nat) : List Nat → Prop
  | [] => True
  | n :: ns => k * n < 2 ^ 64 ∧ CountsFrom (k * n) ns

instance decidableCountsFrom : (k : Nat) → (ns : List Nat) → Decidable (CountsFrom k ns)
  | _, [] => inferInstanceAs (Decidable True)
  | k, n :: ns =>
    have := decidableCountsFrom (k * n) ns
    inferInstanceAs (Decidable (_ ∧ _))

/-- The products of the last extents are words, whatever their number. -/
def LaysOut : List Nat → Prop
  | [] => True
  | n :: ns => size (n :: ns) < 2 ^ 64 ∧ LaysOut ns

instance decidableLaysOut : (ns : List Nat) → Decidable (LaysOut ns)
  | [] => inferInstanceAs (Decidable True)
  | n :: ns =>
    have := decidableLaysOut ns
    inferInstanceAs (Decidable (size (n :: ns) < 2 ^ 64 ∧ _))

theorem LaysOut.of_append {ms ns : List Nat} (h : LaysOut (ms ++ ns)) : LaysOut ns := by
  induction ms with
  | nil => exact h
  | cons m ms ih => exact ih h.2

theorem LaysOut.size_lt {ns : List Nat} (h : LaysOut ns) : size ns < 2 ^ 64 := by
  cases ns with
  | nil => decide
  | cons n ns => exact h.1

theorem laysOut_iff {ns : List Nat} :
    LaysOut ns ↔ ∀ i ≤ ns.length, (ns.drop i).prod < 2 ^ 64 := by
  induction ns with
  | nil => simp [LaysOut]
  | cons n ns ih =>
    rw [LaysOut, ih, size_eq_prod]
    constructor
    · rintro ⟨hall, hrest⟩ i hi
      cases i with
      | zero => exact hall
      | succ i => exact hrest i (Nat.le_of_succ_le_succ hi)
    · intro h
      exact ⟨h 0 (Nat.zero_le _), fun i hi => h (i + 1) (Nat.succ_le_succ hi)⟩

/-- Where there are elements, their number bounds all products on the way. -/
theorem laysOut_of_size {ns : List Nat} (hz : size ns ≠ 0) (h : size ns < 2 ^ 64) : LaysOut ns := by
  induction ns with
  | nil => trivial
  | cons n ns ih =>
    obtain ⟨hn, hns⟩ := Nat.mul_ne_zero_iff.mp hz
    have hle : size ns ≤ size (n :: ns) := Nat.le_mul_of_pos_left _ (Nat.pos_of_ne_zero hn)
    exact ⟨h, ih hns (by omega)⟩

theorem countsFrom_of_size {ns : List Nat} {k : Nat} (hz : size ns ≠ 0)
    (h : k * size ns < 2 ^ 64) : CountsFrom k ns := by
  induction ns generalizing k with
  | nil => trivial
  | cons n ns ih =>
    obtain ⟨-, hns⟩ := Nat.mul_ne_zero_iff.mp hz
    rw [size, ← Nat.mul_assoc] at h
    have hle : k * n ≤ k * n * size ns := Nat.le_mul_of_pos_right _ (Nat.pos_of_ne_zero hns)
    exact ⟨by omega, ih hns h⟩

theorem countsFrom_singleton {n : Nat} : CountsFrom 1 [n] ↔ size [n] < 2 ^ 64 := by
  simp [CountsFrom, size]

theorem countsFrom_zero (ns : List Nat) : CountsFrom 0 ns := by
  induction ns with
  | nil => trivial
  | cons n ns ih => exact ⟨by omega, (Nat.zero_mul n).symm ▸ ih⟩

/-- Smaller extents can be counted where greater ones can. -/
theorem CountsFrom.of_le {ms ns : List Nat} (hle : List.Forall₂ (· ≤ ·) ms ns) {k l : Nat}
    (h : CountsFrom l ns) (hkl : k ≤ l) : CountsFrom k ms := by
  induction hle generalizing k l with
  | nil => trivial
  | cons hmn _ ih =>
    have hprod := Nat.mul_le_mul hkl hmn
    exact ⟨Nat.lt_of_le_of_lt hprod h.1, ih h.2 hprod⟩

theorem size_le_size {ms ns : List Nat} (hle : List.Forall₂ (· ≤ ·) ms ns) :
    size ms ≤ size ns := by
  induction hle with
  | nil => exact Nat.le_refl _
  | cons hmn _ ih => exact Nat.mul_le_mul hmn ih

theorem CountsFrom.size_lt {ns : List Nat} {k : Nat} (h : CountsFrom k ns) (hk : k < 2 ^ 64) :
    k * size ns < 2 ^ 64 := by
  induction ns generalizing k with
  | nil => rwa [size, Nat.mul_one]
  | cons n ns ih =>
    rw [size, ← Nat.mul_assoc]
    exact ih h.2 h.1

/-- The walk from the first extent on finds the number of elements, or a
product on its way is no word. -/
theorem count_eq (ns : List Nat) :
    count ns = if CountsFrom 1 ns then .ok (size ns) else .error .overflow := by
  have general : ∀ k, ns.foldlM (fun n m => word (n * m)) k =
      if CountsFrom k ns then .ok (k * size ns) else .error .overflow := by
    induction ns with
    | nil =>
      intro k
      rw [if_pos (show CountsFrom k [] from trivial), size, Nat.mul_one]
      rfl
    | cons n ns ih =>
      intro k
      rw [List.foldlM_cons]
      by_cases hlt : k * n < 2 ^ 64
      · rw [word_of_lt hlt, size, ← Nat.mul_assoc]
        exact (ih (k * n)).trans (if_congr (and_iff_right hlt).symm rfl rfl)
      · rw [word_eq_error.mpr ⟨hlt, rfl⟩, if_neg fun h => hlt h.1]
        rfl
  rw [count, general, Nat.one_mul]

theorem count_eq_ok {ns : List Nat} {n : Nat} : count ns = .ok n ↔ CountsFrom 1 ns ∧ size ns = n := by
  rw [count_eq, Outcome.if_eq_ok]

/-- Elements that are not too many are counted. -/
theorem count_of_size {ns : List Nat} (hz : size ns ≠ 0) (h : size ns < 2 ^ 64) :
    count ns = .ok (size ns) :=
  count_eq_ok.mpr ⟨countsFrom_of_size hz (by omega), rfl⟩

/-- The walk from the last extent on finds the weights of the axes, or a
product on its way is no word; the one with the leading extent, which no axis
has for a stride, is on its way too. -/
theorem strides_eq (ns : List Nat) :
    strides ns = if LaysOut ns then .ok (weights ns) else .error .overflow := by
  -- what the walk has come by, `ns`, lies in order behind what is left of it
  have general : ∀ (rest ns : List Nat), LaysOut ns →
      stridesLoop rest (size ns) (weights ns) =
        if LaysOut (rest.reverse ++ ns) then .ok (weights (rest.reverse ++ ns))
        else .error .overflow := by
    intro rest
    induction rest with
    | nil =>
      intro ns h
      rw [stridesLoop, List.reverse_nil, List.nil_append, if_pos h]
    | cons n rest ih =>
      intro ns h
      rw [stridesLoop, List.reverse_cons, List.append_assoc, List.singleton_append,
        Nat.mul_comm (size ns) n]
      by_cases hlt : n * size ns < 2 ^ 64
      · rw [word_of_lt hlt]
        exact ih (n :: ns) ⟨hlt, h⟩
      · rw [word_eq_error.mpr ⟨hlt, rfl⟩, if_neg fun h => hlt h.of_append.1]
        rfl
  have h := general ns.reverse [] trivial
  rwa [List.reverse_reverse, List.append_nil] at h

theorem strides_eq_ok {ns ss : List Nat} : strides ns = .ok ss ↔ LaysOut ns ∧ weights ns = ss := by
  rw [strides_eq, Outcome.if_eq_ok]

/-- **Positions and coordinates correspond.**  The strides of the axes are the
products of the extents behind them, and they are found if the product of all
extents is a word as well, and every product of the last ones.  A position
below the product of all extents has coordinates below the extents, which lead
back to it; coordinates below the extents lead to a position below the
product, of which they are found again.  One more leading axis that is long
enough takes what is left of the position, however long it is. -/
theorem coordinates_correspond (extents : List Nat) :
    (strides extents = if ∀ i ≤ extents.length, (extents.drop i).prod < 2 ^ 64
        then .ok (weights extents) else .error .overflow) ∧
    ((weights extents).length = extents.length ∧
      ∀ i < extents.length, (weights extents)[i]? = some (extents.drop (i + 1)).prod) ∧
    (∀ k < extents.prod, Within (coordinates extents k) extents ∧
      flatten (coordinates extents k) (weights extents) = k) ∧
    (∀ cs, Within cs extents → flatten cs (weights extents) < extents.prod ∧
      coordinates extents (flatten cs (weights extents)) = cs) ∧
    ∀ n k, k < (n :: extents).prod →
      coordinates (n :: extents) k = (split extents k).1 :: (split extents k).2 := by
  simp only [← laysOut_iff]
  simp only [← size_eq_prod]
  refine ⟨strides_eq extents, ⟨length_weights extents, fun i hi => ?_⟩, fun k hk => ?_,
    fun cs hcs => ?_, fun n k hk => ?_⟩
  · rw [getElem?_weights extents hi, size_eq_prod]
  · exact ⟨within_coordinates hk, flatten_coordinates hk⟩
  · exact ⟨flatten_lt hcs, coordinates_flatten hcs⟩
  · exact coordinates_cons hk

/-- The leading axis is as long as a word allows.  No stride takes it in, and
the positions are taken apart; the walk for the strides overflows all the
same. -/
theorem strides_of_long_axis :
    strides [2 ^ 64 - 1, 2, 3] = .error .overflow ∧
      (weights [2 ^ 64 - 1, 2, 3] = [6, 3, 1] ∧ [2, 3].prod = 6 ∧ [3].prod = 3) ∧
      47 < [2 ^ 64 - 1, 2, 3].prod ∧ Within [7, 1, 2] [2 ^ 64 - 1, 2, 3] ∧
      flatten [7, 1, 2] [6, 3, 1] = 47 ∧ coordinates [2 ^ 64 - 1, 2, 3] 47 = [7, 1, 2] := by
  decide

end RowMajor
end ArrayFlow
