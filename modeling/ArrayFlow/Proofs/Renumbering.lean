import ArrayFlow.Proofs.Replay

/-!
# Diffs that are taken at their word

A record says more than where a value goes: a placement is at the end of the
array, a removal is of the last element, and a change names the value it
replaces.  `followAll?` carries out a diff and asks of each record whether it
is so.  The log of a journal always passes (`Script.followAll?_eq`).

A basic selection renumbers the records of its source.  What is placed at the
end of the source is then at the end of the selection only if no later
position of the selection stands for an earlier one of the source.  So the
renumbered log is a script again if the selection reads the source in order,
or if all records are changes (`Script.renumbered`); and a selection whose
ranges have positive steps reads in order (`inOrder_sourceOf`).
-/

namespace ArrayFlow

/-! ### Records at their word -/

namespace Update

variable {α : Type}

/-- The array after a record, if the array is as the record says: as long as
a placement says, with the last element that a removal names, with the value
that a change replaces. -/
def follow? [DecidableEq α] (u : Update α) (xs : Array α) : Option (Array α) :=
  match u.old, u.new with
  | none, some v => if u.index = xs.size then some (xs.push v) else none
  | some v, none => if u.index + 1 = xs.size ∧ xs.back? = some v then some xs.pop else none
  | some old, some v =>
    if xs[u.index]? = some old then some (xs.setIfInBounds u.index v) else none
  | none, none => none

/-- Whether the record is about a value that another one has replaced. -/
def IsChange (u : Update α) : Prop := u.old.isSome = true ∧ u.new.isSome = true

end Update

/-- The array after a diff of which every record is at its word. -/
def followAll? {α : Type} [DecidableEq α] (diff : List (Update α)) (xs : Array α) :
    Option (Array α) := diff.foldlM (fun ys u => u.follow? ys) xs

namespace Script

variable {α : Type} {xs ys zs ws : Array α} {log : List (Update α)}

/-- **Logs are at their word.** -/
theorem followAll?_eq [DecidableEq α] (h : Script xs log ys) :
    followAll? log.reverse xs = some ys := by
  unfold followAll?
  induction h with
  | nil => rfl
  | @change log ys i old v _ hi ih =>
    rw [List.reverse_cons, List.foldlM_append, ih]
    simp only [Option.bind_eq_bind, Option.bind_some, List.foldlM_cons, List.foldlM_nil,
      Update.follow?, Update.change, hi, if_true]
    rfl
  | @placement log ys v _ ih =>
    rw [List.reverse_cons, List.foldlM_append, ih]
    simp only [Option.bind_eq_bind, Option.bind_some, List.foldlM_cons, List.foldlM_nil,
      Update.follow?, Update.placement, if_true]
    rfl
  | @removal log ys v _ hv ih =>
    have hpos : ys.size - 1 + 1 = ys.size := by
      have : ys.size ≠ 0 := by
        intro h0
        rw [Array.eq_empty_of_size_eq_zero h0] at hv
        cases hv
      omega
    rw [List.reverse_cons, List.foldlM_append, ih]
    simp only [Option.bind_eq_bind, Option.bind_some, List.foldlM_cons, List.foldlM_nil,
      Update.follow?, Update.removal, hpos, hv, and_self, if_true]
    rfl

/-! ### What is seen of an array -/

/-- An array whose positions below `n` stand for the positions `f k` of
another one, as far as that one has them. -/
structure Sees (f : Nat → Nat) (n : Nat) (xs ws : Array α) : Prop where
  size_le : ws.size ≤ n
  get : ∀ k < n, ws[k]? = xs[f k]?

/-- No two positions below `n` stand for the same one, and a later one never
for an earlier one. -/
def InOrder (f : Nat → Nat) (n : Nat) : Prop := ∀ k k', k < k' → k' < n → f k < f k'

variable {f : Nat → Nat} {n k : Nat}

namespace Sees

/-- What is not seen can be anything. -/
theorem congr (h : Sees f n xs ws) (heq : ∀ k < n, ys[f k]? = xs[f k]?) : Sees f n ys ws :=
  ⟨h.size_le, fun k hk => (h.get k hk).trans (heq k hk).symm⟩

/-- What is seen is determined. -/
theorem unique (h : Sees f n xs ws) (h' : Sees f n xs zs) : ws = zs := by
  apply Array.ext_getElem?
  intro k
  by_cases hk : k < n
  · rw [h.get k hk, h'.get k hk]
  · have := h.size_le
    have := h'.size_le
    rw [Array.getElem?_eq_none (by omega), Array.getElem?_eq_none (by omega)]

theorem set (h : Sees f n ys ws) (hk : k < n) (hinj : ∀ k' < n, f k' = f k → k' = k)
    (hlt : f k < ys.size) (v : α) :
    Sees f n (ys.setIfInBounds (f k) v) (ws.setIfInBounds k v) := by
  refine ⟨by rw [Array.size_setIfInBounds]; exact h.size_le, fun k' hk' => ?_⟩
  have hlt' : k < ws.size := by
    have hget := h.get k hk
    rw [Array.getElem?_eq_getElem hlt] at hget
    exact (Array.getElem?_eq_some_iff.mp hget).1
  by_cases heq : k' = k
  · rw [heq, Array.getElem?_setIfInBounds_self_of_lt hlt',
      Array.getElem?_setIfInBounds_self_of_lt hlt]
  · have hne : f k' ≠ f k := fun hf => heq (hinj k' hk' hf)
    rw [Array.getElem?_setIfInBounds_ne (Ne.symm heq),
      Array.getElem?_setIfInBounds_ne (Ne.symm hne)]
    exact h.get k' hk'

/-- What is placed at the end is seen at the end. -/
theorem push (h : Sees f n ys ws) (horder : InOrder f n) (hk : k < n) (hf : f k = ys.size) (v : α) :
    k = ws.size ∧ Sees f n (ys.push v) (ws.push v) := by
  have hsize : k = ws.size := by
    have hnone := h.get k hk
    rw [hf, Array.getElem?_eq_none (Nat.le_refl _), Array.getElem?_eq_none_iff] at hnone
    by_contra hne
    -- the first position that is missing would stand for a later one of the source
    have hfirst := h.get ws.size (by omega)
    rw [Array.getElem?_eq_none (Nat.le_refl _)] at hfirst
    have hle := Array.getElem?_eq_none_iff.mp hfirst.symm
    have := horder ws.size k (by omega) hk
    omega
  refine ⟨hsize, by rw [Array.size_push]; omega, fun k' hk' => ?_⟩
  have hiff : k' = ws.size ↔ f k' = ys.size := by
    constructor
    · intro heq
      rw [heq, ← hsize, hf]
    · intro heq
      rw [← hsize]
      rcases Nat.lt_trichotomy k' k with hlt | hlt | hlt
      · have := horder k' k hlt hk
        omega
      · exact hlt
      · have := horder k k' hlt hk'
        omega
  rw [Array.getElem?_push, Array.getElem?_push, h.get k' hk']
  by_cases heq : k' = ws.size
  · rw [if_pos heq, if_pos (hiff.mp heq)]
  · rw [if_neg heq, if_neg fun h0 => heq (hiff.mpr h0)]

/-- What is removed from the end is seen at the end. -/
theorem pop (h : Sees f n ys ws) (horder : InOrder f n) (hk : k < n) (hpos : 0 < ys.size)
    (hf : f k = ys.size - 1) : k = ws.size - 1 ∧ ws.back? = ys.back? ∧ Sees f n ys.pop ws.pop := by
  have hget := h.get k hk
  have hlt : k < ws.size := by
    have hlast : ys.size - 1 < ys.size := Nat.sub_lt hpos Nat.one_pos
    rw [hf, Array.getElem?_eq_getElem hlast] at hget
    exact (Array.getElem?_eq_some_iff.mp hget).1
  have hsize : k = ws.size - 1 := by
    by_contra hne
    -- the last position that is there would stand for a later one of the source
    have hnext : k + 1 < ws.size := by omega
    have hnext' : k + 1 < n := Nat.lt_of_lt_of_le hnext h.size_le
    have hsome := h.get (k + 1) hnext'
    rw [Array.getElem?_eq_getElem hnext] at hsome
    have := (Array.getElem?_eq_some_iff.mp hsome.symm).1
    have := horder k (k + 1) (Nat.lt_succ_self k) hnext'
    omega
  have hback : ws.back? = ys.back? := by
    rw [Array.back?_eq_getElem?, Array.back?_eq_getElem?, ← hsize, ← hf, hget]
  refine ⟨hsize, hback, by rw [Array.size_pop]; have := h.size_le; omega, fun k' hk' => ?_⟩
  have hiff : k' < ws.size - 1 ↔ f k' < ys.size - 1 := by
    rw [← hsize, ← hf]
    constructor
    · intro hlt'
      exact horder k' k hlt' hk
    · intro hlt'
      rcases Nat.lt_trichotomy k' k with h0 | h0 | h0
      · exact h0
      · rw [h0] at hlt'
        exact absurd hlt' (Nat.lt_irrefl _)
      · have := horder k k' h0 hk'
        omega
  rw [Array.getElem?_pop, Array.getElem?_pop]
  by_cases hlt' : k' < ws.size - 1
  · rw [if_pos hlt', if_pos (hiff.mp hlt')]
    exact h.get k' hk'
  · rw [if_neg hlt', if_neg fun h0 => hlt' (hiff.mpr h0)]

end Sees

/-! ### Renumbering -/

/-- A translation leads from the positions below `m` that are seen back to the
positions that stand for them. -/
def Finds (t : Nat → Option Nat) (f : Nat → Nat) (n m : Nat) : Prop :=
  ∀ p < m, ∀ k, t p = some k ↔ k < n ∧ f k = p

/-- The records of the positions that are seen, renumbered. -/
def renumber (t : Nat → Option Nat) (log : List (Update α)) : List (Update α) :=
  log.filterMap fun u => (t u.index).map u.moveTo

variable {t : Nat → Option Nat} {m : Nat}

theorem Finds.ne_of_eq_none (ht : Finds t f n m) {p : Nat} (hp : p < m) (hnone : t p = none) :
    ∀ k < n, f k ≠ p := by
  intro k hk hf
  rw [(ht p hp k).mpr ⟨hk, hf⟩] at hnone
  cases hnone

theorem Finds.injective (ht : Finds t f n m) (hm : f k < m) (hk : k < n) :
    ∀ k' < n, f k' = f k → k' = k := by
  intro k' hk' hf
  have h' := (ht (f k) hm k').mpr ⟨hk', hf⟩
  rw [(ht (f k) hm k).mpr ⟨hk, rfl⟩] at h'
  exact (Option.some.inj h').symm

theorem renumber_of_none {u : Update α} (h : t u.index = none) :
    renumber t (u :: log) = renumber t log := by
  rw [renumber, List.filterMap_cons, h]
  rfl

theorem renumber_of_some {u : Update α} (h : t u.index = some k) :
    renumber t (u :: log) = u.moveTo k :: renumber t log := by
  rw [renumber, List.filterMap_cons, h]
  rfl

section Step

variable (ht : Finds t f n m) (hzs : Sees f n ys zs) (hscript : Script ws (renumber t log) zs)
include ht hzs hscript

/-- One more change, seen or not. -/
theorem renumber_change {i : Nat} {old : α} (hi : ys[i]? = some old) (hm : i < m) (v : α) :
    ∃ zs', Sees f n (ys.setIfInBounds i v) zs' ∧
      Script ws (renumber t (.change i old v :: log)) zs' := by
  cases hfound : t i with
  | none =>
    have hne := ht.ne_of_eq_none hm hfound
    rw [renumber_of_none hfound]
    refine ⟨zs, hzs.congr fun k hk => ?_, hscript⟩
    exact Array.getElem?_setIfInBounds_ne (Ne.symm (hne k hk))
  | some k =>
    obtain ⟨hk, rfl⟩ := (ht i hm k).mp hfound
    have hlt := (Array.getElem?_eq_some_iff.mp hi).1
    rw [renumber_of_some hfound]
    refine ⟨_, hzs.set hk (ht.injective hm hk) hlt v, ?_⟩
    exact .change v hscript ((hzs.get k hk).trans hi)

/-- One more element at the end, seen or not. -/
theorem renumber_placement (horder : InOrder f n) (hm : ys.size < m) (v : α) :
    ∃ zs', Sees f n (ys.push v) zs' ∧
      Script ws (renumber t (.placement ys.size v :: log)) zs' := by
  cases hfound : t ys.size with
  | none =>
    have hne := ht.ne_of_eq_none hm hfound
    rw [renumber_of_none hfound]
    refine ⟨zs, hzs.congr fun k hk => ?_, hscript⟩
    rw [Array.getElem?_push, if_neg (hne k hk)]
  | some k =>
    obtain ⟨hk, hf⟩ := (ht ys.size hm k).mp hfound
    obtain ⟨rfl, hpush⟩ := hzs.push horder hk hf v
    rw [renumber_of_some hfound]
    exact ⟨_, hpush, .placement v hscript⟩

/-- One element less at the end, seen or not. -/
theorem renumber_removal (horder : InOrder f n) (hm : ys.size - 1 < m) {v : α}
    (hv : ys.back? = some v) :
    ∃ zs', Sees f n ys.pop zs' ∧
      Script ws (renumber t (.removal (ys.size - 1) v :: log)) zs' := by
  have hpos : 0 < ys.size := by
    rw [Array.back?_eq_getElem?] at hv
    have := (Array.getElem?_eq_some_iff.mp hv).1
    omega
  cases hfound : t (ys.size - 1) with
  | none =>
    have hne := ht.ne_of_eq_none hm hfound
    rw [renumber_of_none hfound]
    refine ⟨zs, hzs.congr fun k hk => ?_, hscript⟩
    rw [Array.getElem?_pop]
    split
    · rfl
    · next hlt =>
      have := hne k hk
      exact (Array.getElem?_eq_none (by omega)).symm
  | some k =>
    obtain ⟨hk, hf⟩ := (ht (ys.size - 1) hm k).mp hfound
    obtain ⟨rfl, hback, hpop⟩ := hzs.pop horder hk hpos hf
    rw [renumber_of_some hfound]
    exact ⟨_, hpop, .removal hscript (hback.trans hv)⟩

end Step

/-- **A renumbered log is a log** of what is seen, if that is in order or all
records are changes. -/
theorem renumbered (h : Script xs log ys) (ht : Finds t f n m)
    (horder : InOrder f n ∨ ∀ u ∈ log, u.IsChange) (hlog : ∀ u ∈ log, u.index < m)
    (hs : Sees f n xs ws) : ∃ zs, Sees f n ys zs ∧ Script ws (renumber t log) zs := by
  have hrest : ∀ {u : Update α} {log : List (Update α)},
      (InOrder f n ∨ ∀ w ∈ u :: log, w.IsChange) → InOrder f n ∨ ∀ w ∈ log, w.IsChange :=
    fun h => h.imp_right fun h w hw => h w (List.mem_cons_of_mem _ hw)
  induction h with
  | nil => exact ⟨ws, hs, .nil⟩
  | @change log ys i old v _ hi ih =>
    obtain ⟨hm, hlog⟩ := List.forall_mem_cons.mp hlog
    obtain ⟨zs, hzs, hscript⟩ := ih (hrest horder) hlog
    exact renumber_change ht hzs hscript hi hm v
  | @placement log ys v _ ih =>
    obtain ⟨hm, hlog⟩ := List.forall_mem_cons.mp hlog
    obtain ⟨zs, hzs, hscript⟩ := ih (hrest horder) hlog
    have hin : InOrder f n := horder.resolve_right fun h => by
      cases (h _ List.mem_cons_self).1
    exact renumber_placement ht hzs hscript hin hm v
  | @removal log ys v _ hv ih =>
    obtain ⟨hm, hlog⟩ := List.forall_mem_cons.mp hlog
    obtain ⟨zs, hzs, hscript⟩ := ih (hrest horder) hlog
    have hin : InOrder f n := horder.resolve_right fun h => by
      cases (h _ List.mem_cons_self).2
    exact renumber_removal ht hzs hscript hin hm hv

end Script

/-! ### Selections in order -/

namespace SliceRange

/-- The positions of the range increase. -/
def Onward (r : SliceRange) : Prop := 0 < r.step ∨ r.length ≤ 1

instance (r : SliceRange) : Decidable r.Onward := inferInstanceAs (Decidable (_ ∨ _))

theorem On.position_lt_position {r : SliceRange} {n k k' : Nat} (h : r.On n) (ho : r.Onward)
    (hlt : k < k') (hk' : k' < r.length) : r.position k < r.position k' := by
  have hplace := h.cast_position (Nat.lt_trans hlt hk')
  have hplace' := h.cast_position hk'
  rcases ho with hstep | hone
  · have hmul : (k : Int) * r.step < k' * r.step :=
      Int.mul_lt_mul_of_pos_right (by omega) hstep
    omega
  · omega

end SliceRange

namespace AxisMap

/-- The map does not turn an axis around. -/
def Onward : AxisMap → Prop
  | range r => r.Onward
  | _ => True

instance (m : AxisMap) : Decidable m.Onward := by
  cases m <;> unfold Onward <;> infer_instance

/-- A number with a leading digit and the rest below the base is smaller if
the digit is, or if the digits are the same and the rest is. -/
theorem digit_lt_iff {s x x' r r' : Nat} (hr : r < s) (hr' : r' < s) :
    x * s + r < x' * s + r' ↔ x < x' ∨ x = x' ∧ r < r' := by
  have hstep : ∀ {y y' : Nat}, y < y' → y * s + s ≤ y' * s := by
    intro y y' h
    rw [← Nat.succ_mul]
    exact Nat.mul_le_mul_right s h
  rcases Nat.lt_trichotomy x x' with h | h | h
  · have := hstep h
    omega
  · rw [h]
    omega
  · have := hstep h
    omega

/-- Coordinates in order stand for coordinates in order. -/
theorem flatten_sourceCoordinates_lt {maps : List AxisMap} {ns ks ks' : List Nat}
    (h : List.Forall₂ On ns maps) (ho : ∀ m ∈ maps, m.Onward)
    (hk : RowMajor.Within ks (extentsFrom maps ns))
    (hk' : RowMajor.Within ks' (extentsFrom maps ns))
    (hlt : RowMajor.flatten ks (RowMajor.weights (extentsFrom maps ns)) <
      RowMajor.flatten ks' (RowMajor.weights (extentsFrom maps ns))) :
    RowMajor.flatten (sourceCoordinates maps ks) (RowMajor.weights ns) <
      RowMajor.flatten (sourceCoordinates maps ks') (RowMajor.weights ns) := by
  induction h generalizing ks ks' with
  | nil =>
    cases hk
    cases hk'
    exact absurd hlt (Nat.lt_irrefl _)
  | @cons n m ns maps hm hon ih =>
    rw [List.forall_mem_cons] at ho
    cases m with
    | position i =>
      simp only [sourceCoordinates, RowMajor.weights, RowMajor.flatten_cons]
      exact Nat.add_lt_add_left (ih ho.2 hk hk' hlt) _
    | whole =>
      cases hk with
      | @cons k _ ks _ hkn hks =>
        cases hk' with
        | @cons k' _ ks' _ hkn' hks' =>
          simp only [sourceCoordinates, extentsFrom, RowMajor.weights, RowMajor.flatten_cons] at hlt ⊢
          rw [digit_lt_iff (RowMajor.flatten_lt hks) (RowMajor.flatten_lt hks')] at hlt
          rw [digit_lt_iff (RowMajor.flatten_lt (within_sourceCoordinates hon hks))
            (RowMajor.flatten_lt (within_sourceCoordinates hon hks'))]
          exact hlt.imp_right fun h => ⟨h.1, ih ho.2 hks hks' h.2⟩
    | range r =>
      cases hk with
      | @cons k _ ks _ hkn hks =>
        cases hk' with
        | @cons k' _ ks' _ hkn' hks' =>
          simp only [sourceCoordinates, extentsFrom, RowMajor.weights, RowMajor.flatten_cons] at hlt ⊢
          rw [digit_lt_iff (RowMajor.flatten_lt hks) (RowMajor.flatten_lt hks')] at hlt
          rw [digit_lt_iff (RowMajor.flatten_lt (within_sourceCoordinates hon hks))
            (RowMajor.flatten_lt (within_sourceCoordinates hon hks'))]
          rcases hlt with hlt | ⟨rfl, hlt⟩
          · exact .inl (SliceRange.On.position_lt_position hm ho.1 hlt hkn')
          · exact .inr ⟨rfl, ih ho.2 hks hks' hlt⟩

end AxisMap

namespace BasicIndexing

variable {b : BasicIndexing} {rows : Nat}

/-- The selection does not turn an axis around. -/
def Onward (b : BasicIndexing) : Prop := ∀ m ∈ b.axes, m.Onward

instance (b : BasicIndexing) : Decidable b.Onward :=
  inferInstanceAs (Decidable (∀ m ∈ b.axes, m.Onward))

/-- **Forward selections read in order.** -/
theorem inOrder_sourceOf (h : b.Fits)
    (hroom : b.sourceDescription.shape.sizeWith rows ≤ maxElements) (ho : b.Onward) :
    Script.InOrder b.sourceOf (b.shape.sizeWith rows) := by
  intro k k' hlt hk'
  have hk := Nat.lt_trans hlt hk'
  have hon := AxisMap.on_of_room h.axes (sizeWith_source_ne_zero h (by omega)) hroom
  have hextents := extentsFrom_withRows h rows
  have hwithin : ∀ {j : Nat}, j < b.shape.sizeWith rows → RowMajor.Within (b.shape.coordinates j)
      (AxisMap.extentsFrom b.axes (b.sourceDescription.shape.withRows rows)) := by
    intro j hj
    rw [hextents, ← Shape.coordinates_withRows hj]
    exact RowMajor.within_coordinates hj
  have hflat : ∀ {j : Nat}, j < b.shape.sizeWith rows → RowMajor.flatten (b.shape.coordinates j)
      (RowMajor.weights (AxisMap.extentsFrom b.axes (b.sourceDescription.shape.withRows rows))) =
        j := by
    intro j hj
    rw [hextents, ← Shape.coordinates_withRows hj]
    exact RowMajor.flatten_coordinates hj
  rw [sourceOf, sourceOf, ← Shape.weights_withRows _ rows]
  refine AxisMap.flatten_sourceCoordinates_lt hon ho (hwithin hk) (hwithin hk') ?_
  rw [hflat hk, hflat hk']
  exact hlt

/-- The positions of a source with room are found. -/
theorem finds (h : b.Fits) (hroom : b.sourceDescription.shape.sizeWith rows ≤ maxElements) :
    Script.Finds b.target? b.sourceOf (b.shape.sizeWith rows)
      (b.sourceDescription.shape.sizeWith rows) := by
  intro p hp k
  constructor
  · exact sourceOf_of_target? h hroom hp
  · rintro ⟨hk, rfl⟩
    exact target?_sourceOf h hroom hk

end BasicIndexing
end ArrayFlow
