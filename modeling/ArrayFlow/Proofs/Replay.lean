import ArrayFlow.Proofs.BasicIndexing
import ArrayFlow.Proofs.Journal

/-!
# Replaying position by position

Replaying a diff comes down to the records of each position: a position ends
up with the value of its last record, or with what it held (`lastWritten`),
and what nobody has written is NaN (`getElem?_replay`).  Records of different
positions do not meet, so a diff can be filtered and renumbered, even out of
the order in which an array grows, as long as each position keeps its own
records in their order.

* `replay_renumbered` — the diff of a basic selection replays its view if
  the diff of the source replays that of the source.
-/

namespace ArrayFlow

/-- What a diff leaves at position `k`, where `x` stood before. -/
def lastWritten (updates : List (Update Binary64)) (k : Nat) (x : Binary64) : Binary64 :=
  updates.foldl (fun y u => if u.index = k then u.new.getD .nan else y) x

theorem getElem?_carryOut (xs : Array Binary64) (u : Update Binary64) (k : Nat) :
    (carryOut xs u)[k]?.getD .nan = if u.index = k then u.new.getD .nan else xs[k]?.getD .nan := by
  unfold carryOut
  rw [Script.getElem?_write]
  by_cases hk : k = u.index
  · rw [if_pos hk, if_pos hk.symm]
    rfl
  · rw [if_neg hk, if_neg (Ne.symm hk)]
    by_cases hlt : k < xs.size
    · rw [if_pos hlt]
    · rw [if_neg hlt, Array.getElem?_eq_none (by omega)]
      split <;> rfl

theorem getElem?_foldl_carryOut (updates : List (Update Binary64)) (xs : Array Binary64) (k : Nat) :
    (updates.foldl carryOut xs)[k]?.getD .nan = lastWritten updates k (xs[k]?.getD .nan) := by
  induction updates generalizing xs with
  | nil => rfl
  | cons u us ih => rw [List.foldl_cons, ih, getElem?_carryOut, lastWritten, lastWritten,
      List.foldl_cons]

theorem getElem?_resize (xs : Array Binary64) (n k : Nat) :
    (resize xs n .nan)[k]? = if k < n then some (xs[k]?.getD .nan) else none := by
  unfold resize
  by_cases hn : n ≤ xs.size
  · rw [if_pos hn, Array.getElem?_extract]
    by_cases hk : k < n
    · have hlt : k < xs.size := by omega
      rw [if_pos (by omega), if_pos hk]
      simp [hlt]
    · rw [if_neg (by omega), if_neg hk]
  · rw [if_neg hn, Array.getElem?_append, Array.getElem?_replicate]
    grind

/-- **Replaying goes position by position.** -/
theorem getElem?_replay (updates : List (Update Binary64)) (xs : Array Binary64) (n k : Nat) :
    (replay updates xs n)[k]? =
      if k < n then some (lastWritten updates k (xs[k]?.getD .nan)) else none := by
  have hfold : updates.foldl (fun ys u => write ys u.index (u.new.getD .nan) .nan) xs =
      updates.foldl carryOut xs := rfl
  rw [replay, hfold, getElem?_resize, getElem?_foldl_carryOut]

/-- A diff replays to the array whose positions hold what it leaves there. -/
theorem replay_eq {updates : List (Update Binary64)} {xs ys : Array Binary64} {n : Nat}
    (hn : ys.size = n)
    (h : ∀ k < n, ys[k]? = some (lastWritten updates k (xs[k]?.getD .nan))) :
    replay updates xs n = ys := by
  apply Array.ext_getElem?
  intro k
  rw [getElem?_replay]
  by_cases hk : k < n
  · rw [if_pos hk, h k hk]
  · rw [if_neg hk, Array.getElem?_eq_none (by omega)]

namespace BasicIndexing

variable {b : BasicIndexing} {rows : Nat}

/-- The records of a position of the result are those of the source position
it stands for. -/
theorem lastWritten_renumbered (h : b.Fits)
    (hroom : b.sourceDescription.shape.sizeWith rows ≤ maxElements) {k : Nat}
    (hk : k < b.shape.sizeWith rows) {diff : List (Update Binary64)}
    (hdiff : ∀ u ∈ diff, b.sourceDescription.shape.Reaches u.index) (x : Binary64) :
    lastWritten (b.renumbered diff) k x = lastWritten diff (b.sourceOf k) x := by
  have hfound := target?_sourceOf h hroom hk
  unfold lastWritten renumbered
  induction diff generalizing x with
  | nil => rfl
  | cons u us ih =>
    rw [List.forall_mem_cons] at hdiff
    obtain ⟨⟨r, hu, hr⟩, hus⟩ := hdiff
    rw [List.foldl_cons, ← ih hus, List.filterMap_cons]
    cases ht : b.target? u.index with
    | none =>
      have hne : u.index ≠ b.sourceOf k := by
        intro heq
        rw [heq, hfound] at ht
        cases ht
      simp only [Option.map_none, if_neg hne]
    | some j =>
      simp only [Option.map_some, List.foldl_cons, Update.moveTo]
      by_cases hj : j = k
      · have hsource : u.index = b.sourceOf k :=
          hj ▸ (sourceOf_of_target? h hr hu ht).2.symm
        rw [if_pos hj, if_pos hsource]
      · have hne : u.index ≠ b.sourceOf k := by
          intro heq
          rw [heq, hfound] at ht
          exact hj (Option.some.inj ht).symm
        rw [if_neg hj, if_neg hne]

/-- **A renumbered diff replays the renumbered array.** -/
theorem replay_renumbered {before after : Nat} (h : b.Fits)
    (hbefore : b.sourceDescription.shape.sizeWith before ≤ maxElements)
    (hafter : b.sourceDescription.shape.sizeWith after ≤ maxElements)
    {diff : List (Update Binary64)}
    (hdiff : ∀ u ∈ diff, b.sourceDescription.shape.Reaches u.index)
    {xs ys xs' ys' : Array Binary64}
    (hxs : xs.size = b.sourceDescription.shape.sizeWith before)
    (hys : ys.size = b.sourceDescription.shape.sizeWith after)
    (hxs' : xs'.size = b.shape.sizeWith before) (hys' : ys'.size = b.shape.sizeWith after)
    (hx : ∀ k < xs'.size, xs'[k]? = xs[b.sourceOf k]?)
    (hy : ∀ k < ys'.size, ys'[k]? = ys[b.sourceOf k]?)
    (hreplay : replay diff xs ys.size = ys) :
    replay (b.renumbered diff) xs' ys'.size = ys' := by
  refine replay_eq rfl fun k hk => ?_
  have hk' : k < b.shape.sizeWith after := hys' ▸ hk
  have hsource : b.sourceOf k < ys.size := hys ▸ sourceOf_lt h hafter hk'
  have hold : xs'[k]?.getD .nan = xs[b.sourceOf k]?.getD .nan := by
    by_cases hlt : k < xs'.size
    · rw [hx k hlt]
    · -- the source had no such position either
      have hnew : xs.size ≤ b.sourceOf k := by
        by_contra hin
        have hfound := target?_sourceOf h hafter hk'
        have := (sourceOf_of_target? h hbefore (by omega) hfound).1
        omega
      rw [Array.getElem?_eq_none hnew, Array.getElem?_eq_none (by omega)]
  have hlast : ys[b.sourceOf k]? =
      some (lastWritten diff (b.sourceOf k) (xs[b.sourceOf k]?.getD .nan)) := by
    conv_lhs => rw [← hreplay]
    rw [getElem?_replay, if_pos hsource]
  rw [hy k hk, hlast, lastWritten_renumbered h hafter hk' hdiff, hold]

end BasicIndexing
end ArrayFlow
