import ArrayFlow.Proofs.Gathered
import ArrayFlow.Proofs.Renumbering

/-!
# From the last commit to now

A **history** is any run of edits that name positions the array has, commits
and reverts among them.  It leads to two journals: the one at the last commit
and the present one (`Journal.History`).  What holds between the two is kept
by one edit (`Tracks.apply`) and so by a history (`History.tracks`):

* the journal at the last commit has no pending edit;
* the log is a script from its values to the present ones;
* no record is of a value that was replaced by an equal one (`Strict`).

So the diff can be taken at its word from the last commit to now, and it can
be replayed without looking at the length (`diff_leads_forward`).

A gathered array has two journals and the readers, which have none.  Its
histories (`Gathered.History`) keep the readers the index of the offsets,
through reverts as well (`readers_invert_offsets`).
-/

namespace ArrayFlow
namespace Update

variable {α : Type}

/-- Whether the record is of a new element. -/
def isPlacement (u : Update α) : Bool := u.old.isNone && u.new.isSome

/-- Whether the record is of an element that is gone. -/
def isRemoval (u : Update α) : Bool := u.old.isSome && u.new.isNone

/-- The record is not of a value that was replaced by an equal one. -/
def Strict [BEq α] (u : Update α) : Prop :=
  ∀ old new, u.old = some old → u.new = some new → (old == new) = false

theorem Strict.change [BEq α] {old new : α} (h : (old == new) = false) (i : Nat) :
    (Update.change i old new).Strict := by
  intro old' new' hold hnew
  obtain rfl := Option.some.inj hold
  obtain rfl := Option.some.inj hnew
  exact h

theorem Strict.placement [BEq α] (i : Nat) (v : α) : (Update.placement i v).Strict :=
  fun _ _ hold _ => nomatch hold

theorem Strict.removal [BEq α] (i : Nat) (v : α) : (Update.removal i v).Strict :=
  fun _ _ _ hnew => nomatch hnew

end Update

/-- A placement makes the array longer by one, a removal shorter by one. -/
theorem Script.size_eq {α : Type} {xs ys : Array α} {log : List (Update α)} (h : Script xs log ys) :
    (ys.size : Int) =
      xs.size + log.countP Update.isPlacement - log.countP Update.isRemoval := by
  induction h with
  | nil => simp
  | change v _ _ ih =>
    rw [Array.size_setIfInBounds, ih]
    simp [Update.change, Update.isPlacement, Update.isRemoval]
  | placement v _ ih =>
    rw [Array.size_push, Int.natCast_add, ih]
    simp [Update.placement, Update.isPlacement, Update.isRemoval]
    omega
  | @removal log ys v _ hv ih =>
    have hpos : 0 < ys.size := by
      rw [Array.back?_eq_getElem?] at hv
      exact Nat.lt_of_le_of_lt (Nat.zero_le _) (Array.getElem?_eq_some_iff.mp hv).1
    rw [Array.size_pop, Int.natCast_sub hpos, ih]
    simp [Update.removal, Update.isPlacement, Update.isRemoval]
    omega

namespace Journal

variable {α : Type} [BEq α] {base now : Journal α}

/-! ### What one edit keeps -/

/-- The second journal has the first one behind it, and only strict records of
the way from there. -/
structure Tracks (base now : Journal α) : Prop where
  clean : base.Clean
  extend : base.Extends now
  strict : ∀ u ∈ now.log, u.Strict

namespace Tracks

theorem of_clean (h : base.Clean) : Tracks base base where
  clean := h
  extend := .refl base
  strict u hu := by
    rw [h.1] at hu
    cases hu

theorem set (h : Tracks base now) (i : Nat) (v : α) : Tracks base (now.set i v) where
  clean := h.clean
  extend := h.extend.trans (.set now i v)
  strict := by
    unfold Journal.set
    split
    · exact h.strict
    · next old _ =>
      split
      · exact h.strict
      · next hne => exact List.forall_mem_cons.mpr ⟨.change (by simpa using hne) i, h.strict⟩

theorem push (h : Tracks base now) (v : α) : Tracks base (now.push v) where
  clean := h.clean
  extend := h.extend.trans (.push now v)
  strict := List.forall_mem_cons.mpr ⟨.placement _ v, h.strict⟩

theorem pop (h : Tracks base now) : Tracks base now.pop where
  clean := h.clean
  extend := h.extend.trans (.pop now)
  strict := by
    unfold Journal.pop
    split
    · exact h.strict
    · next v _ => exact List.forall_mem_cons.mpr ⟨.removal _ v, h.strict⟩

theorem exchange (h : Tracks base now) (i k : Nat) : Tracks base (now.exchange i k) := by
  unfold Journal.exchange
  split
  · exact h
  · split
    · exact (h.set i _).set k _
    · exact h

theorem revert (h : Tracks base now) : Tracks base now.revert := by
  rw [h.extend.revert_eq h.clean]
  exact of_clean h.clean

end Tracks

/-- The journal at the last commit, after an edit: only a commit makes it
another. -/
def Edit.lastCommit (base now : Journal α) : Edit α → Journal α
  | .commit => now.commit
  | _ => base

/-- **One edit.** -/
theorem Tracks.apply (h : Tracks base now) (e : Edit α) :
    Tracks (e.lastCommit base now) (now.apply e) := by
  cases e with
  | set i v => exact h.set i v
  | push v => exact h.push v
  | pop => exact h.pop
  | exchange i k => exact h.exchange i k
  | commit => exact .of_clean (clean_commit now)
  | revert => exact h.revert

/-! ### What a history keeps -/

/-- Edits lead from an array to the second journal; the first one is what it
was at the last commit. -/
inductive History : Journal α → Journal α → Prop
  | start (xs : Array α) : History (ofArray xs) (ofArray xs)
  | edit {base now : Journal α} (h : History base now) (e : Edit α) (hfits : e.Fits now) :
      History (e.lastCommit base now) (now.apply e)

theorem History.tracks (h : History base now) : Tracks base now := by
  induction h with
  | start xs => exact .of_clean (clean_ofArray xs)
  | edit _ e _ ih => exact ih.apply e

/-- **The diff leads forward.**  After any history the diff is an edit script
that is at its word in every record and leads from the values at the last
commit to the present ones; a change is never to an equal value, and the
placements outnumber the removals by the change in size.  A replay that
follows no length and leaves NaN where elements were removed gives the present
values too. -/
theorem History.diff_leads_forward :
    (∀ {α : Type} [DecidableEq α] [BEq α] {base now : Journal α}, History base now →
      followAll? now.diff base.values = some now.values ∧
        (∀ u ∈ now.diff, ∀ old new, u.old = some old → u.new = some new → (old == new) = false) ∧
          now.sizeDiff = now.diff.countP Update.isPlacement - now.diff.countP Update.isRemoval) ∧
      ∀ {base now : Journal Binary64}, History base now →
        replay now.diff base.values now.size = now.values := by
  refine ⟨fun {α} _ _ base now h => ?_, fun h => h.tracks.extend.replay_diff h.tracks.clean⟩
  obtain ⟨hclean, hextend, hstrict⟩ := h.tracks
  have hscript := hextend.script hclean
  refine ⟨hscript.followAll?_eq, fun u hu => hstrict u (List.mem_reverse.mp hu), ?_⟩
  have hsize : (now.size : Int) = _ := hscript.size_eq
  rw [hextend.sizeDiff_eq hclean, hsize, diff, List.countP_reverse, List.countP_reverse]
  unfold Journal.size
  omega

/-- Three numbers. -/
def counted : Journal Binary64 := .ofArray #[.ofInt 0, .ofInt 1, .ofInt 2]

/-- The last number is changed and leaves, and so does one that came behind
it; two others come in their places. -/
def recounted : Journal Binary64 :=
  (((((counted.set 2 (.ofInt 7)).push (.ofInt 8)).pop).pop).push (.ofInt 9)).push (.ofInt 10)

theorem history_recounted : History counted recounted := by
  have hset :=
    (History.start _).edit (.set 2 (.ofInt 7)) (show 2 < counted.size by simp [counted])
  have hout := ((hset.edit (.push (.ofInt 8)) trivial).edit .pop trivial).edit .pop trivial
  exact (hout.edit (.push (.ofInt 9)) trivial).edit (.push (.ofInt 10)) trivial

/-- The replay leaves NaN where two numbers go, and writes over it the two that
come. -/
theorem diff_of_recounted :
    (History counted recounted ∧
      recounted.values = #[.ofInt 0, .ofInt 1, .ofInt 9, .ofInt 10] ∧ recounted.diff.length = 6) ∧
      followAll? recounted.diff counted.values = some recounted.values ∧
        recounted.sizeDiff =
          recounted.diff.countP Update.isPlacement - recounted.diff.countP Update.isRemoval ∧
          replay recounted.diff counted.values recounted.size = recounted.values := by
  obtain ⟨hfollow, -, hsize⟩ := History.diff_leads_forward.1 history_recounted
  exact ⟨⟨history_recounted, by decide +kernel, by decide +kernel⟩, hfollow, hsize,
    History.diff_leads_forward.2 history_recounted⟩

end Journal

namespace Gathered

variable {base now : Gathered}

/-- An edit of a gathered array. -/
inductive Edit where
  | place (f : Nat) (x : Binary64)
  | pop
  | update (p f : Nat) (x : Binary64)
  | commit
  | revert

/-- Whether the position an edit names exists. -/
def Edit.Fits (g : Gathered) : Edit → Prop
  | update p _ _ => p < g.size
  | _ => True

/-- What an edit does. -/
def apply (g : Gathered) : Edit → Gathered
  | .place f x => g.place f x
  | .pop => g.pop
  | .update p f x => g.update p f x
  | .commit => g.commit
  | .revert => g.revert

/-- The gathered array at the last commit, after an edit. -/
def Edit.lastCommit (base now : Gathered) : Edit → Gathered
  | .commit => now.commit
  | _ => base

/-! ### What one edit of a gathered array keeps -/

/-- The second gathered array has the first one behind it, and the readers of
both are the index of their offsets. -/
structure Tracks (base now : Gathered) : Prop where
  clean : base.Clean
  committed : base.Valid
  extend : base.Extends now
  valid : now.Valid

theorem Tracks.of_clean (h : base.Clean) (hv : base.Valid) : Tracks base base :=
  ⟨h, hv, .refl base, hv⟩

theorem clean_commit (g : Gathered) : g.commit.Clean :=
  ⟨Journal.clean_commit _, Journal.clean_commit _⟩

/-- A revert may list the readers in another order than they had, but it lists
the readers of the offsets it goes back to. -/
theorem Tracks.revert (h : Tracks base now) : Tracks base now.revert := by
  obtain ⟨hvalues, hoffsets, hreaders⟩ := h.extend.revert h.clean h.valid
  refine ⟨h.clean, h.committed, ⟨?_, ?_⟩, ⟨?_, ?_⟩⟩
  · rw [hvalues]
    exact .refl _
  · rw [hoffsets]
    exact .refl _
  · rw [hvalues, hoffsets]
    exact h.committed.sizes
  · rw [hoffsets]
    exact hreaders

/-- **One edit of a gathered array.** -/
theorem Tracks.apply (h : Tracks base now) (e : Edit) :
    Tracks (e.lastCommit base now) (now.apply e) := by
  cases e with
  | place f x => exact ⟨h.clean, h.committed, h.extend.trans (.place now f x), h.valid.place f x⟩
  | pop => exact ⟨h.clean, h.committed, h.extend.trans (.pop now), h.valid.pop⟩
  | update p f x =>
    exact ⟨h.clean, h.committed, h.extend.trans (.update now p f x), h.valid.update p f x⟩
  | commit => exact .of_clean (clean_commit now) h.valid.commit
  | revert => exact h.revert

/-! ### What a history of a gathered array keeps -/

/-- Edits lead from elements that have just been read to the second gathered
array; the first one is what it was at the last commit. -/
inductive History : Gathered → Gathered → Prop
  | start (entries : List (Nat × Binary64)) : History (ofEntries entries) (ofEntries entries)
  | edit {base now : Gathered} (h : History base now) (e : Edit) (hfits : e.Fits now) :
      History (e.lastCommit base now) (now.apply e)

theorem History.tracks (h : History base now) : Tracks base now := by
  induction h with
  | start entries => exact .of_clean (clean_ofEntries entries) (valid_ofEntries entries)
  | edit _ e _ ih => exact ih.apply e

/-- **The readers are the way back from the offsets.**  After any history each
value has an offset, every position is listed once, under its offset and under
no other source position, and no source position is listed without readers.
A revert gives the values and the offsets of the last commit. -/
theorem History.readers_invert_offsets (h : History base now) :
    now.values.size = now.offsets.size ∧
      (∀ f p, p ∈ now.readers.of f ↔ now.offsets.values[p]? = some f) ∧
        (∀ f, (now.readers.of f).Nodup) ∧
          ((now.readers.map Prod.fst).Nodup ∧ ∀ e ∈ now.readers, e.2 ≠ []) ∧
            now.revert.values = base.values ∧ now.revert.offsets = base.offsets := by
  obtain ⟨hclean, -, hextend, hvalid⟩ := h.tracks
  obtain ⟨hvalues, hoffsets, -⟩ := hextend.revert hclean hvalid
  obtain ⟨hkeys, hinhabited, hnodup, hmem⟩ := hvalid.readers
  exact ⟨hvalid.sizes.symm, hmem, hnodup, ⟨hkeys, hinhabited⟩, hvalues, hoffsets⟩

/-- Three positions, two of which read the same element. -/
def picked : Gathered := ofEntries [(4, .ofInt 1), (7, .ofInt 2), (4, .ofInt 1)]

/-- The middle position turns to the element that the others read; the last
one leaves and comes back as a reader of another element. -/
def repicked : Gathered := ((picked.update 1 4 (.ofInt 1)).pop).place 9 (.ofInt 3)

theorem history_repicked : History picked repicked := by
  have hturned :=
    (History.start _).edit (.update 1 4 (.ofInt 1)) (show 1 < picked.size by simp [picked])
  exact (hturned.edit .pop trivial).edit (.place 9 (.ofInt 3)) trivial

/-- The element at 7 has no readers any longer and is not listed. -/
theorem readers_of_repicked :
    (History picked repicked ∧ repicked.readers = [(4, [0, 1]), (9, [2])]) ∧
      repicked.values.size = repicked.offsets.size ∧
        (∀ f p, p ∈ repicked.readers.of f ↔ repicked.offsets.values[p]? = some f) ∧
          repicked.revert.values = picked.values ∧ repicked.revert.offsets = picked.offsets := by
  obtain ⟨hsizes, hmem, -, -, hback⟩ := history_repicked.readers_invert_offsets
  exact ⟨⟨history_repicked, by decide +kernel⟩, hsizes, hmem, hback⟩

end Gathered
end ArrayFlow
