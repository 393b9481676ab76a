import ArrayFlow.Journal

/-!
# What a journal remembers

A log of edits, read newest first, is an **edit script** from one array to
another (`Script`): a placement is at the end, a removal is of the last
element, and a change names the element it replaces.  A journal **extends**
another if the edits between them form such a script and lie on top of its
log; a journal extends its committed values.

* `Script.undo` — walking back the log restores the old array, although the
  walk leaves placements where they are and cuts them off at the end;
* `Script.getElem?_eq` — positions that no record names keep their element;
* `Script.replay` — carrying the log out forwards gives the new array,
  although the walk keeps what was removed as NaN until the end;
* `Extends` holds across `set`, `push`, `pop` and `exchange`.
-/

namespace ArrayFlow

/-- A log, newest record first, that leads from one array to another. -/
inductive Script {α : Type} (xs : Array α) : List (Update α) → Array α → Prop
  | nil : Script xs [] xs
  | change {log : List (Update α)} {ys : Array α} {i : Nat} {old : α} (v : α)
      (h : Script xs log ys) (hi : ys[i]? = some old) :
      Script xs (.change i old v :: log) (ys.setIfInBounds i v)
  | placement {log : List (Update α)} {ys : Array α} (v : α) (h : Script xs log ys) :
      Script xs (.placement ys.size v :: log) (ys.push v)
  | removal {log : List (Update α)} {ys : Array α} {v : α} (h : Script xs log ys)
      (hv : ys.back? = some v) : Script xs (.removal (ys.size - 1) v :: log) ys.pop

namespace Script

variable {α : Type} {xs ys zs : Array α} {log more : List (Update α)}

theorem trans (h : Script xs log ys) (h' : Script ys more zs) : Script xs (more ++ log) zs := by
  induction h' with
  | nil => exact h
  | change v _ hi ih => exact .change v ih hi
  | placement v _ ih => exact .placement v ih
  | removal _ hv ih => exact .removal ih hv

theorem eq_of_nil (h : Script xs [] ys) : ys = xs := by
  cases h
  rfl

/-- A position that no record names holds what it held. -/
theorem getElem?_eq (h : Script xs log ys) {k : Nat} (hk : ∀ u ∈ log, u.index ≠ k) :
    ys[k]? = xs[k]? := by
  induction h with
  | nil => rfl
  | @change log ys i old v _ _ ih =>
    have hne : i ≠ k := hk _ List.mem_cons_self
    rw [Array.getElem?_setIfInBounds_ne hne]
    exact ih fun u hu => hk u (List.mem_cons_of_mem _ hu)
  | @placement log ys v _ ih =>
    have hne : ys.size ≠ k := hk _ List.mem_cons_self
    rw [Array.getElem?_push, if_neg (Ne.symm hne)]
    exact ih fun u hu => hk u (List.mem_cons_of_mem _ hu)
  | @removal log ys v _ _ ih =>
    have hne : ys.size - 1 ≠ k := hk _ List.mem_cons_self
    rw [Array.getElem?_pop, ← ih fun u hu => hk u (List.mem_cons_of_mem _ hu)]
    split
    · rfl
    · exact (Array.getElem?_eq_none (by omega)).symm

/-! ### Backwards -/

/-- An array that is at least as long as another and agrees with it there. -/
def Covers (zs ys : Array α) : Prop :=
  ys.size ≤ zs.size ∧ ∀ k < ys.size, zs[k]? = ys[k]?

theorem Covers.refl (ys : Array α) : Covers ys ys := ⟨Nat.le_refl _, fun _ _ => rfl⟩

/-- Cutting off what is too long gives the array that is covered. -/
theorem Covers.extract_eq (h : Covers zs ys) : zs.extract 0 ys.size = ys := by
  apply Array.ext
  · have := h.1
    simp; omega
  · intro k h1 h2
    have := h.2 k h2
    rw [Array.getElem?_eq_getElem h2, Array.getElem?_eq_getElem (by have := h.1; omega)] at this
    simpa using this

theorem getElem?_write (zs : Array α) (i : Nat) (v fill : α) (k : Nat) :
    (write zs i v fill)[k]? =
      if k = i then some v else if k < zs.size then zs[k]? else if k < i then some fill else none := by
  unfold write resize
  by_cases hsize : zs.size ≤ i
  · have hgrow : ¬ i + 1 ≤ zs.size := by omega
    simp only [hsize, hgrow, if_true, if_false, Array.getElem?_setIfInBounds, Array.size_append,
      Array.size_replicate, Array.getElem?_append, Array.getElem?_replicate]
    grind
  · simp only [hsize, if_false, Array.getElem?_setIfInBounds]
    grind

/-- Taking back the newest record of a script. -/
theorem Covers.write_of_change {i : Nat} {old v : α} (h : Covers zs (ys.setIfInBounds i v))
    (hi : ys[i]? = some old) (fill : α) : Covers (write zs i old fill) ys := by
  obtain ⟨hsize, heq⟩ := h
  rw [Array.size_setIfInBounds] at hsize heq
  refine ⟨by rw [size_write]; omega, fun k hk => ?_⟩
  rw [getElem?_write]
  by_cases hki : k = i
  · rw [if_pos hki, hki, hi]
  · rw [if_neg hki, if_pos (by omega), heq k hk, Array.getElem?_setIfInBounds_ne (Ne.symm hki)]

theorem Covers.of_push {v : α} (h : Covers zs (ys.push v)) : Covers zs ys := by
  obtain ⟨hsize, heq⟩ := h
  rw [Array.size_push] at hsize heq
  refine ⟨by omega, fun k hk => ?_⟩
  rw [heq k (by omega), Array.getElem?_push, if_neg (by omega)]

theorem Covers.write_of_pop {v : α} (h : Covers zs ys.pop) (hv : ys.back? = some v) (fill : α) :
    Covers (write zs (ys.size - 1) v fill) ys := by
  obtain ⟨hsize, heq⟩ := h
  rw [Array.size_pop] at hsize heq
  have hlast : ys[ys.size - 1]? = some v := by rw [← hv, Array.back?_eq_getElem?]
  have hpos := (Array.getElem?_eq_some_iff.mp hlast).1
  refine ⟨by rw [size_write]; omega, fun k hk => ?_⟩
  rw [getElem?_write]
  by_cases hki : k = ys.size - 1
  · rw [if_pos hki, hki, hlast]
  · have hk' : k < ys.size - 1 := by omega
    rw [if_neg hki, if_pos (by omega), heq k hk', Array.getElem?_pop, if_pos (by omega)]

/-- **The way back.**  Undoing a script, newest record first, leads to an
array that covers the old one: placements are left standing behind it. -/
theorem covers_undo (h : Script xs log ys) (hz : Covers zs ys) :
    Covers (log.foldl Journal.undo zs) xs := by
  induction h generalizing zs with
  | nil => exact hz
  | change v _ hi ih => exact ih (hz.write_of_change hi _)
  | placement v _ ih => exact ih hz.of_push
  | removal _ hv ih => exact ih (hz.write_of_pop hv _)

theorem undo (h : Script xs log ys) : (log.foldl Journal.undo ys).extract 0 xs.size = xs :=
  (h.covers_undo (Covers.refl ys)).extract_eq

/-! ### Forwards -/

theorem Covers.write_change {i : Nat} {v fill : α} (h : Covers zs ys) (hi : i < ys.size) :
    Covers (write zs i v fill) (ys.setIfInBounds i v) := by
  obtain ⟨hsize, heq⟩ := h
  refine ⟨by rw [size_write, Array.size_setIfInBounds]; omega, fun k hk => ?_⟩
  rw [Array.size_setIfInBounds] at hk
  rw [getElem?_write]
  by_cases hki : k = i
  · rw [if_pos hki, hki, Array.getElem?_setIfInBounds_self_of_lt hi]
  · rw [if_neg hki, if_pos (by omega), heq k hk, Array.getElem?_setIfInBounds_ne (Ne.symm hki)]

theorem Covers.write_push {v fill : α} (h : Covers zs ys) :
    Covers (write zs ys.size v fill) (ys.push v) := by
  obtain ⟨hsize, heq⟩ := h
  refine ⟨by rw [size_write, Array.size_push]; omega, fun k hk => ?_⟩
  rw [Array.size_push] at hk
  rw [getElem?_write, Array.getElem?_push]
  by_cases hki : k = ys.size
  · rw [if_pos hki, if_pos hki]
  · rw [if_neg hki, if_neg hki, if_pos (by omega), heq k (by omega)]

theorem Covers.write_pop {v fill : α} (h : Covers zs ys) (hpos : 0 < ys.size) :
    Covers (write zs (ys.size - 1) v fill) ys.pop := by
  obtain ⟨hsize, heq⟩ := h
  refine ⟨by rw [size_write, Array.size_pop]; omega, fun k hk => ?_⟩
  rw [Array.size_pop] at hk
  rw [getElem?_write, Array.getElem?_pop, if_neg (by omega), if_pos (by omega), if_pos (by omega),
    heq k (by omega)]

end Script

/-- One step of a replay. -/
def carryOut (xs : Array Binary64) (u : Update Binary64) : Array Binary64 :=
  write xs u.index (u.new.getD .nan) .nan

/-- **The way forward.**  Carrying out a script, oldest record first, leads
to an array that covers the new one: removed elements stay behind as NaN. -/
theorem Script.covers_carryOut {xs ys : Array Binary64} {log : List (Update Binary64)}
    (h : Script xs log ys) : Script.Covers (log.reverse.foldl carryOut xs) ys := by
  induction h with
  | nil => exact Covers.refl _
  | change v _ hi ih =>
    rw [List.reverse_cons, List.foldl_append]
    exact ih.write_change (Array.getElem?_eq_some_iff.mp hi).1
  | placement v _ ih =>
    rw [List.reverse_cons, List.foldl_append]
    exact ih.write_push
  | @removal log ys v _ hv ih =>
    rw [List.reverse_cons, List.foldl_append]
    refine ih.write_pop ?_
    rw [Array.back?_eq_getElem?] at hv
    have := (Array.getElem?_eq_some_iff.mp hv).1
    omega

theorem Script.replay {xs ys : Array Binary64} {log : List (Update Binary64)}
    (h : Script xs log ys) : replay log.reverse xs ys.size = ys := by
  have hcov := h.covers_carryOut
  have hle := hcov.1
  have heq := hcov.extract_eq
  unfold ArrayFlow.replay resize
  rw [show (fun ys u => write ys u.index (u.new.getD Binary64.nan) Binary64.nan) = carryOut from rfl,
    if_pos hle, heq]

namespace Journal

variable {α : Type}

/-- The second journal was reached from the first one by edits. -/
def Extends (j j' : Journal α) : Prop :=
  j'.committedSize = j.committedSize ∧
    ∃ log, Script j.values log j'.values ∧ j'.log = log ++ j.log

namespace Extends

variable {j j' j'' : Journal α}

theorem refl (j : Journal α) : Extends j j := ⟨rfl, [], .nil, rfl⟩

theorem trans (h : Extends j j') (h' : Extends j' j'') : Extends j j'' := by
  obtain ⟨hc, log, hs, hl⟩ := h
  obtain ⟨hc', log', hs', hl'⟩ := h'
  exact ⟨hc'.trans hc, log' ++ log, hs.trans hs', by rw [hl', hl, List.append_assoc]⟩

theorem set [BEq α] (j : Journal α) (i : Nat) (v : α) : Extends j (j.set i v) := by
  unfold Journal.set
  split
  · exact refl j
  · next old hold =>
    split
    · exact refl j
    · exact ⟨rfl, [_], .change v .nil hold, rfl⟩

theorem push (j : Journal α) (v : α) : Extends j (j.push v) :=
  ⟨rfl, [_], .placement v .nil, rfl⟩

theorem pop (j : Journal α) : Extends j j.pop := by
  unfold Journal.pop
  split
  · exact refl j
  · next v hv => exact ⟨rfl, [_], .removal .nil hv, rfl⟩

theorem exchange [BEq α] (j : Journal α) (i k : Nat) : Extends j (j.exchange i k) := by
  unfold Journal.exchange
  split
  · exact refl j
  · split
    · exact (set j i _).trans (set _ k _)
    · exact refl j

/-- A position that no record of the longer log names holds what it held. -/
theorem getElem?_eq (h : Extends j j') {k : Nat} (hk : ∀ u ∈ j'.log, u.index ≠ k) :
    j'.values[k]? = j.values[k]? := by
  obtain ⟨-, log, hs, hl⟩ := h
  exact hs.getElem?_eq fun u hu => hk u (hl ▸ List.mem_append_left _ hu)

end Extends

/-! ### What all elements have in common -/

/-- Every element has the property. -/
def Every (P : α → Prop) (j : Journal α) : Prop := ∀ x ∈ j.values, P x

namespace Every

variable {P : α → Prop} {j : Journal α}

theorem ofList {xs : List α} (h : ∀ x ∈ xs, P x) : (ofArray xs.toArray).Every P := by
  intro x hx
  exact h x (List.mem_toArray.mp hx)

theorem replicate {x : α} (h : P x) (n : Nat) : (ofArray (Array.replicate n x)).Every P := by
  intro y hy
  have hyx : y = x := (Array.mem_replicate.mp hy).2
  rw [hyx]
  exact h

theorem set [BEq α] (h : j.Every P) {v : α} (hv : P v) (i : Nat) : (j.set i v).Every P := by
  unfold Journal.set
  split
  · exact h
  · split
    · exact h
    · intro x hx
      rcases Array.mem_or_eq_of_mem_setIfInBounds hx with hx | rfl
      · exact h x hx
      · exact hv

theorem push (h : j.Every P) {v : α} (hv : P v) : (j.push v).Every P := by
  intro x hx
  rcases Array.mem_push.mp hx with hx | rfl
  · exact h x hx
  · exact hv

theorem pop (h : j.Every P) : j.pop.Every P := by
  unfold Journal.pop
  split
  · exact h
  · intro x hx
    obtain ⟨k, hk⟩ := Array.mem_iff_getElem?.mp hx
    rw [Array.getElem?_pop] at hk
    split at hk
    · exact h x (Array.mem_of_getElem? hk)
    · cases hk

theorem exchange [BEq α] (h : j.Every P) (i k : Nat) : (j.exchange i k).Every P := by
  unfold Journal.exchange
  split
  · exact h
  · split
    · next a b ha hb =>
      exact (h.set (h b (Array.mem_of_getElem? hb)) i).set (h a (Array.mem_of_getElem? ha)) k
    · exact h

theorem pushAll (h : j.Every P) {vs : List α} (hv : ∀ v ∈ vs, P v) :
    (vs.foldl Journal.push j).Every P := by
  induction vs generalizing j with
  | nil => exact h
  | cons v vs ih =>
    rw [List.forall_mem_cons] at hv
    exact ih (h.push hv.1) hv.2

theorem popMany (h : j.Every P) (n : Nat) : (Nat.repeat Journal.pop n j).Every P := by
  induction n with
  | zero => exact h
  | succ n ih => exact ih.pop

end Every

theorem size_pushAll (j : Journal α) (vs : List α) :
    (vs.foldl Journal.push j).size = j.size + vs.length := by
  induction vs generalizing j with
  | nil => rfl
  | cons v vs ih => rw [List.foldl_cons, ih, size_push, List.length_cons]; omega

theorem size_popMany (j : Journal α) (n : Nat) : (Nat.repeat Journal.pop n j).size = j.size - n := by
  induction n with
  | zero => rfl
  | succ n ih => rw [Nat.repeat, size_pop, ih]; omega

/-! ### Which positions the log names -/

/-- The positions that the log names have the property. -/
def Logs (P : Nat → Prop) (j : Journal α) : Prop := ∀ u ∈ j.log, P u.index

namespace Logs

variable {P : Nat → Prop} {j : Journal α}

theorem set [BEq α] (h : j.Logs P) (hP : ∀ k < j.size, P k) (i : Nat) (v : α) :
    (j.set i v).Logs P := by
  unfold Journal.set
  split
  · exact h
  · next old hold =>
    split
    · exact h
    · intro u hu
      rcases List.mem_cons.mp hu with rfl | hu
      · exact hP i (Array.getElem?_eq_some_iff.mp hold).1
      · exact h u hu

theorem push (h : j.Logs P) (hP : P j.size) (v : α) : (j.push v).Logs P := by
  intro u hu
  rcases List.mem_cons.mp hu with rfl | hu
  · exact hP
  · exact h u hu

theorem pop (h : j.Logs P) (hP : ∀ k < j.size, P k) : j.pop.Logs P := by
  unfold Journal.pop
  split
  · exact h
  · next v hv =>
    intro u hu
    rcases List.mem_cons.mp hu with rfl | hu
    · rw [Array.back?_eq_getElem?] at hv
      exact hP _ (Array.getElem?_eq_some_iff.mp hv).1
    · exact h u hu

theorem exchange [BEq α] (h : j.Logs P) (hP : ∀ k < j.size, P k) (i k : Nat) :
    (j.exchange i k).Logs P := by
  unfold Journal.exchange
  split
  · exact h
  · split
    · exact (h.set hP i _).set (by rw [size_set]; exact hP) k _
    · exact h

theorem pushAll {vs : List α} (h : j.Logs P) (hP : ∀ k < j.size + vs.length, P k) :
    (vs.foldl Journal.push j).Logs P := by
  induction vs generalizing j with
  | nil => exact h
  | cons v vs ih =>
    refine ih (h.push (hP _ (by simp)) v) fun k hk => hP k ?_
    rw [size_push] at hk
    rw [List.length_cons]
    omega

theorem popMany (h : j.Logs P) (hP : ∀ k < j.size, P k) (n : Nat) :
    (Nat.repeat Journal.pop n j).Logs P := by
  induction n with
  | zero => exact h
  | succ n ih => exact ih.pop fun k hk => hP k (by rw [size_popMany] at hk; omega)

end Logs

theorem Extends.pushAll (j : Journal α) (vs : List α) : Extends j (vs.foldl Journal.push j) := by
  induction vs generalizing j with
  | nil => exact .refl j
  | cons v vs ih => exact (Extends.push j v).trans (ih _)

theorem Extends.popMany (j : Journal α) (n : Nat) : Extends j (Nat.repeat Journal.pop n j) := by
  induction n with
  | zero => exact .refl j
  | succ n ih => exact ih.trans (.pop _)

/-- A journal without pending edits. -/
def Clean (j : Journal α) : Prop := j.log = [] ∧ j.committedSize = j.size

theorem clean_ofArray (xs : Array α) : (ofArray xs).Clean := ⟨rfl, rfl⟩

theorem clean_commit (j : Journal α) : j.commit.Clean := ⟨rfl, rfl⟩

theorem Clean.commit_eq {j : Journal α} (h : j.Clean) : j.commit = j := by
  obtain ⟨hlog, hsize⟩ := h
  cases j
  simp only [size] at hlog hsize
  simp [commit, size, hlog, hsize]

/-- On top of a journal without pending edits, the log is all there is. -/
theorem Extends.script {j j' : Journal α} (h : Extends j j') (hj : j.Clean) :
    Script j.values j'.log j'.values := by
  obtain ⟨-, log, hscript, hlog⟩ := h
  rw [hlog, hj.1, List.append_nil]
  exact hscript

/-- **Reverting is exact.**  A journal reached by edits from one without
pending edits is reverted to it. -/
theorem Extends.revert_eq {j j' : Journal α} (h : Extends j j') (hj : j.Clean) : j'.revert = j := by
  have hundo := (h.script hj).undo
  obtain ⟨hlog, hsize⟩ := hj
  cases j
  simp only [size] at hlog hsize hundo
  simp only [revert, h.1, hsize, hundo, hlog]

theorem Clean.revert_eq {j : Journal α} (h : j.Clean) : j.revert = j :=
  (Extends.refl j).revert_eq h

theorem Extends.log_eq_nil {j j' : Journal α} (h : Extends j j') (h' : j'.log = []) : j.log = [] := by
  obtain ⟨-, log, -, hl⟩ := h
  rw [h'] at hl
  exact (List.append_eq_nil_iff.mp hl.symm).2

/-- A journal with an empty log is the one it was reached from. -/
theorem Extends.clean_of_log {j j' : Journal α} (h : Extends j j') (hj : j.Clean)
    (h' : j'.log = []) : j'.Clean := by
  obtain ⟨hc, log, hs, hl⟩ := h
  rw [h'] at hl
  rw [(List.append_eq_nil_iff.mp hl.symm).1] at hs
  exact ⟨h', hc.trans (hj.2.trans (congrArg Array.size hs.eq_of_nil.symm))⟩

/-- The change in size is the difference of the sizes. -/
theorem Extends.sizeDiff_eq {j j' : Journal α} (h : Extends j j') (hj : j.Clean) :
    j'.sizeDiff = j'.size - j.size := by
  rw [sizeDiff, h.1, hj.2]

/-- The diff replays the committed values to the current ones. -/
theorem Extends.replay_diff {j j' : Journal Binary64} (h : Extends j j') (hj : j.Clean) :
    replay j'.diff j.values j'.size = j'.values :=
  (h.script hj).replay

end Journal
end ArrayFlow
