import ArrayFlow.Proofs.Histories

/-!
# The way back to the last commit

A revert walks back the log and cuts what is too long only at the end.  On the
way the array is longer than it was at that time, and behind the elements that
it had then stand others that came later.  `undo?` takes the same step with
care: it writes only where the array has an element, or directly behind the
last one where a removed element comes back.

* `Script.undoAll?_eq` — the careful walk never stops, and it is the walk of a
  revert;
* `History.revert_returns` — after any history a revert gives the journal of
  the last commit, and no write and no cut of it was out of range.
-/

namespace ArrayFlow
namespace Journal

variable {α : Type}

/-- The array after a record is undone, if the place of its old value exists:
that of a change in the array, that of a removed element in the array or
directly behind it. -/
def undo? (xs : Array α) (u : Update α) : Option (Array α) :=
  match u.old with
  | none => some xs
  | some old =>
    if u.index < xs.size then some (xs.setIfInBounds u.index old)
    else if u.index = xs.size ∧ u.new.isNone then some (xs.push old)
    else none

/-- The journal of the last commit, if every record can be undone with care
and there are enough elements to cut the array to its committed size. -/
def revert? (j : Journal α) : Option (Journal α) := do
  let values ← j.log.foldlM undo? j.values
  if j.committedSize ≤ values.size then
    some { j with values := values.extract 0 j.committedSize, log := [] }
  else none

/-- Inside the array nothing has to grow. -/
theorem write_of_lt {xs : Array α} {i : Nat} (h : i < xs.size) (v fill : α) :
    write xs i v fill = xs.setIfInBounds i v := by
  rw [write, if_neg (Nat.not_le_of_lt h)]

/-- Directly behind the array it grows by the element that is written. -/
theorem write_size (xs : Array α) (v fill : α) : write xs xs.size v fill = xs.push v := by
  apply Array.ext_getElem?
  intro k
  rw [Script.getElem?_write, Array.getElem?_push]
  by_cases hk : k = xs.size
  · rw [if_pos hk, if_pos hk]
  · rw [if_neg hk, if_neg hk]
    split
    · rfl
    · next hlt =>
      exact (Array.getElem?_eq_none (Nat.le_of_not_lt hlt)).symm

end Journal

namespace Script

variable {α : Type} {xs ys zs : Array α} {log : List (Update α)}

/-- **The walk back stays in range**, from any array that covers the one that
the script leads to. -/
theorem undoAll?_eq (h : Script xs log ys) (hz : Covers zs ys) :
    log.foldlM Journal.undo? zs = some (log.foldl Journal.undo zs) := by
  induction h generalizing zs with
  | nil => rfl
  | @change log ys i old v _ hi ih =>
    have hlt : i < zs.size := by
      have := (Array.getElem?_eq_some_iff.mp hi).1
      have := hz.1
      rw [Array.size_setIfInBounds] at this
      omega
    have hstep : Journal.undo? zs (.change i old v) = some (Journal.undo zs (.change i old v)) :=
      (if_pos hlt).trans (congrArg some (Journal.write_of_lt hlt old old).symm)
    rw [List.foldlM_cons, hstep]
    exact ih (hz.write_of_change hi old)
  | placement v _ ih => exact ih hz.of_push
  | @removal log ys v _ hv ih =>
    have hle : ys.size - 1 ≤ zs.size := Array.size_pop ▸ hz.1
    have hstep : Journal.undo? zs (.removal (ys.size - 1) v) =
        some (Journal.undo zs (.removal (ys.size - 1) v)) := by
      show (if ys.size - 1 < zs.size then _ else _) = some (write zs (ys.size - 1) v v)
      by_cases hlt : ys.size - 1 < zs.size
      · rw [if_pos hlt, Journal.write_of_lt hlt]
        rfl
      · -- what is removed comes back as the last element
        have heq : ys.size - 1 = zs.size := by omega
        rw [if_neg hlt, if_pos ⟨heq, rfl⟩, heq, Journal.write_size]
    rw [List.foldlM_cons, hstep]
    exact ih (hz.write_of_pop hv v)

end Script

namespace Journal

variable {α : Type} {base now : Journal α}

/-- A revert that takes care is a revert. -/
theorem Extends.revert?_eq (h : base.Extends now) (hb : base.Clean) :
    now.revert? = some now.revert := by
  have hscript := h.script hb
  have hwalk := hscript.undoAll?_eq (.refl now.values)
  have hroom : now.committedSize ≤ (now.log.foldl undo now.values).size := by
    rw [h.1, hb.2]
    exact (hscript.covers_undo (.refl now.values)).1
  unfold revert?
  rw [hwalk]
  exact if_pos hroom

/-- **A revert is exact.**  After any history it gives the very values of the
last commit, with nothing in the diff and the committed size for a length.  On
the way it writes only inside the array or directly behind it, and at the end
there is enough to cut. -/
theorem History.revert_returns [BEq α] (h : History base now) :
    now.revert.values = base.values ∧ now.revert.diff = [] ∧
      now.revert.committedSize = now.revert.size ∧ now.revert? = some now.revert := by
  obtain ⟨hclean, hextend, -⟩ := h.tracks
  have hback := hextend.revert_eq hclean
  refine ⟨congrArg Journal.values hback, rfl, ?_, hextend.revert?_eq hclean⟩
  rw [hback]
  exact hclean.2

/-- Four values, the last of which came before the commit. -/
def stacked : Journal Binary64 :=
  ((ofArray #[.nan, .zero, .ofInt 1]).push (.ofInt 2)).commit

/-- The last element leaves, and another one in its place is changed and
leaves; so does the one before them, and its place is taken.  A zero is
replaced by an equal one and NaN by NaN. -/
def restacked : Journal Binary64 :=
  (((((((stacked.pop).push (.ofInt 9)).set 3 (.ofInt 7)).pop).pop).push (.ofInt 5)).set 1
    .negZero).set 0 .nan

theorem history_restacked : History stacked restacked := by
  have hpushed :=
    (History.start #[Binary64.nan, .zero, .ofInt 1]).edit (.push (.ofInt 2)) trivial
  have hcommitted := hpushed.edit .commit trivial
  have hchanged := ((hcommitted.edit .pop trivial).edit (.push (.ofInt 9)) trivial).edit
    (.set 3 (.ofInt 7)) (by decide +kernel)
  have htaken := ((hchanged.edit .pop trivial).edit .pop trivial).edit (.push (.ofInt 5)) trivial
  exact (htaken.edit (.set 1 .negZero) (by decide +kernel)).edit (.set 0 .nan) (by decide +kernel)

/-- On the way back the place of the last element is written three times. -/
theorem restacked_returns :
    (History stacked restacked ∧ restacked.values = #[.nan, .zero, .ofInt 5] ∧
      restacked.log.map (·.index) = [0, 2, 2, 3, 3, 3, 3]) ∧
      restacked.revert.values = #[.nan, .zero, .ofInt 1, .ofInt 2] ∧ restacked.revert.diff = [] ∧
        restacked.revert.committedSize = restacked.revert.size ∧
          restacked.revert? = some restacked.revert := by
  obtain ⟨hvalues, hrest⟩ := history_restacked.revert_returns
  exact ⟨⟨history_restacked, by decide +kernel, by decide +kernel⟩,
    hvalues.trans (by decide +kernel), hrest⟩

end Journal
end ArrayFlow
