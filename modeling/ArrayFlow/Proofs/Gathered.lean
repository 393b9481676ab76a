import ArrayFlow.Indexing.Gathered
import ArrayFlow.Proofs.Journal
import ArrayFlow.Proofs.Binary64
import Mathlib.Data.List.Basic

/-!
# The way back from the offsets

The readers of a gathered array are an index of its offsets: position `p` is
listed under `f` exactly if `p` was read from `f`.  Each edit changes both at
one position, so it is enough to follow the index through one link
(`Exact.link`) and one unlink (`Exact.unlink`); a revert undoes the links
record by record while the journal undoes the offsets (`Exact.undo`).
-/

namespace ArrayFlow
namespace Readers

/-! ### One link at a time -/

theorem of_link (r : Readers) (f p k : Nat) :
    (r.link f p).of k = if k = f then r.of f ++ [p] else r.of k := by
  induction r with
  | nil => simp [link, of, eq_comm]
  | cons e r ih => grind [link, of]

theorem keys_link (r : Readers) (f p : Nat) :
    (r.link f p).map Prod.fst =
      if f ∈ r.map Prod.fst then r.map Prod.fst else r.map Prod.fst ++ [f] := by
  induction r with
  | nil => simp [link]
  | cons e r ih => grind [link]

theorem of_eq_nil {r : Readers} {f : Nat} (h : f ∉ r.map Prod.fst) : r.of f = [] := by
  induction r with
  | nil => rfl
  | cons e r ih => grind [of]

theorem of_unlink {r : Readers} (h : (r.map Prod.fst).Nodup) (f p k : Nat) :
    (r.unlink f p).of k = if k = f then (r.of f).erase p else r.of k := by
  induction r with
  | nil => simp [unlink, of]
  | cons e r ih =>
    obtain ⟨f', ps⟩ := e
    rw [List.map_cons, List.nodup_cons] at h
    by_cases hf : f' = f
    · subst hf
      have hnil := of_eq_nil h.1
      simp only [unlink, if_true]
      split
      · next he =>
        by_cases hk : k = f'
        · simp [of, hk, he, hnil]
        · simp [of, hk, Ne.symm hk]
      · by_cases hk : k = f'
        · simp [of, hk]
        · simp [of, hk, Ne.symm hk]
    · simp only [unlink, hf, if_false, of, ih h.2]
      by_cases hk : f' = k
      · simp [hk, hk ▸ hf]
      · simp [hk]

theorem sublist_keys_unlink (r : Readers) (f p : Nat) :
    ((r.unlink f p).map Prod.fst).Sublist (r.map Prod.fst) := by
  induction r with
  | nil => exact .slnil
  | cons e r ih =>
    simp only [unlink]
    split
    · split
      · exact .cons _ (List.Sublist.refl _)
      · exact List.Sublist.refl _
    · exact .cons_cons _ ih

theorem inhabited_link {r : Readers} (h : ∀ e ∈ r, e.2 ≠ []) (f p : Nat) :
    ∀ e ∈ r.link f p, e.2 ≠ [] := by
  induction r with
  | nil => simp [link]
  | cons e r ih =>
    rw [List.forall_mem_cons] at h
    simp only [link]
    split
    · exact List.forall_mem_cons.mpr ⟨by simp, h.2⟩
    · exact List.forall_mem_cons.mpr ⟨h.1, ih h.2⟩

theorem inhabited_unlink {r : Readers} (h : ∀ e ∈ r, e.2 ≠ []) (f p : Nat) :
    ∀ e ∈ r.unlink f p, e.2 ≠ [] := by
  induction r with
  | nil => simp [unlink]
  | cons e r ih =>
    rw [List.forall_mem_cons] at h
    simp only [unlink]
    split
    · split
      · exact h.2
      · next hne => exact List.forall_mem_cons.mpr ⟨hne, h.2⟩
    · exact List.forall_mem_cons.mpr ⟨h.1, ih h.2⟩

/-! ### The index of some offsets -/

/-- The readers list each position once, under its offset, and no source
position without readers. -/
structure Exact (r : Readers) (offset? : Nat → Option Nat) : Prop where
  keys : (r.map Prod.fst).Nodup
  inhabited : ∀ e ∈ r, e.2 ≠ []
  nodup : ∀ f, (r.of f).Nodup
  mem_of : ∀ f p, p ∈ r.of f ↔ offset? p = some f

namespace Exact

variable {r : Readers} {offset? : Nat → Option Nat}

theorem link (h : Exact r offset?) {p : Nat} (hp : offset? p = none) (f : Nat) :
    Exact (r.link f p) (fun q => if q = p then some f else offset? q) where
  keys := by
    rw [keys_link]
    split
    · exact h.keys
    · next hf => exact List.nodup_append.mpr ⟨h.keys, by simp, by grind⟩
  inhabited := inhabited_link h.inhabited f p
  nodup k := by
    have hnot : p ∉ r.of f := fun hmem => by
      have := (h.mem_of f p).mp hmem
      simp [hp] at this
    rw [of_link]
    split
    · exact List.nodup_append.mpr ⟨h.nodup f, by simp, by grind⟩
    · exact h.nodup k
  mem_of k q := by
    rw [of_link]
    have := h.mem_of k q
    grind

theorem unlink (h : Exact r offset?) {p f : Nat} (hp : offset? p = some f) :
    Exact (r.unlink f p) (fun q => if q = p then none else offset? q) where
  keys := h.keys.sublist (sublist_keys_unlink r f p)
  inhabited := inhabited_unlink h.inhabited f p
  nodup k := by
    rw [of_unlink h.keys]
    split
    · exact (h.nodup f).erase p
    · exact h.nodup k
  mem_of k q := by
    rw [of_unlink h.keys]
    have hmem := h.mem_of k q
    by_cases hk : k = f
    · rw [if_pos hk, List.Nodup.mem_erase_iff (h.nodup f), ← hk, hmem]
      by_cases hq : q = p <;> simp [hq]
    · rw [if_neg hk, hmem]
      by_cases hq : q = p
      · simp [hq, hp, Ne.symm hk]
      · simp [hq]

theorem congr {offset?' : Nat → Option Nat} (h : Exact r offset?) (heq : ∀ p, offset? p = offset?' p) :
    Exact r offset?' :=
  (funext heq : offset? = offset?') ▸ h

theorem nil : Exact [] (fun _ => none) where
  keys := List.nodup_nil
  inhabited := nofun
  nodup _ := List.nodup_nil
  mem_of := by simp [of]

theorem linkFrom (h : Exact r offset?) {p : Nat} (hp : ∀ q, p ≤ q → offset? q = none)
    (fs : List Nat) :
    Exact (r.linkFrom p fs) (fun q => if q < p then offset? q else fs[q - p]?) := by
  induction fs generalizing r offset? p with
  | nil =>
    refine h.congr fun q => ?_
    by_cases hq : q < p
    · simp [hq]
    · simp [hq, hp q (by omega)]
  | cons f fs ih =>
    have hlink := h.link (hp p (Nat.le_refl p)) f
    refine (ih hlink (p := p + 1) ?_).congr fun q => ?_
    · intro q hq
      rw [if_neg (by omega), hp q (by omega)]
    · rcases Nat.lt_trichotomy q p with hlt | rfl | hgt
      · rw [if_pos (by omega), if_pos hlt, if_neg (by omega)]
      · simp
      · rw [if_neg (by omega), if_neg (by omega), show q - p = q - (p + 1) + 1 by omega,
          List.getElem?_cons_succ]

/-- The index of an array of offsets through its edits. -/
theorem push {fs : Array Nat} (h : Exact r (fs[·]?)) (f : Nat) :
    Exact (r.link f fs.size) ((fs.push f)[·]?) :=
  (h.link (by simp) f).congr fun q => by rw [Array.getElem?_push]

theorem pop {fs : Array Nat} {f : Nat} (h : Exact r (fs[·]?)) (hf : fs.back? = some f) :
    Exact (r.unlink f (fs.size - 1)) (fs.pop[·]?) := by
  rw [Array.back?_eq_getElem?] at hf
  refine (h.unlink hf).congr fun q => ?_
  rw [Array.getElem?_pop]
  grind

theorem set {fs : Array Nat} {p old : Nat} (h : Exact r (fs[·]?)) (hp : fs[p]? = some old) (f : Nat) :
    Exact ((r.unlink old p).link f p) ((fs.setIfInBounds p f)[·]?) := by
  refine ((h.unlink hp).link (by simp) f).congr fun q => ?_
  have hlt := (Array.getElem?_eq_some_iff.mp hp).1
  rw [Array.getElem?_setIfInBounds]
  grind

/-- **The links go back with the offsets.** -/
theorem undo {fs gs : Array Nat} {log : List (Update Nat)} (hs : Script fs log gs)
    (h : Exact r (gs[·]?)) : Exact (log.foldl Gathered.undoLink r) (fs[·]?) := by
  induction hs generalizing r with
  | nil => exact h
  | @change log gs i old v _ hi ih =>
    have hlt := (Array.getElem?_eq_some_iff.mp hi).1
    have hv : (gs.setIfInBounds i v)[i]? = some v := Array.getElem?_setIfInBounds_self_of_lt hlt
    have hback := (h.unlink hv).link (p := i) (by simp) old
    refine ih (hback.congr fun q => ?_)
    rw [Array.getElem?_setIfInBounds]
    grind
  | @placement log gs v _ ih =>
    have hv : (gs.push v)[gs.size]? = some v := by simp
    have hback := h.unlink hv
    refine ih (hback.congr fun q => ?_)
    rw [Array.getElem?_push]
    grind
  | @removal log gs v _ hv ih =>
    rw [Array.back?_eq_getElem?] at hv
    have hback := h.link (p := gs.size - 1) (by simp) v
    refine ih (hback.congr fun q => ?_)
    rw [Array.getElem?_pop]
    grind

end Exact
end Readers

/-! ### The values of a journal -/

namespace Journal

variable {α : Type}

@[simp] theorem values_push (j : Journal α) (v : α) : (j.push v).values = j.values.push v := rfl

@[simp] theorem values_pop (j : Journal α) : j.pop.values = j.values.pop := by
  unfold pop
  split
  · next h =>
    have : j.values = #[] := by simpa using h
    simp [this]
  · rfl

/-- An offset that is set stands there afterwards. -/
theorem getElem?_set [BEq α] [LawfulBEq α] {j : Journal α} {p : Nat} (hp : p < j.values.size)
    (v : α) (q : Nat) :
    (j.set p v).values[q]? = if q = p then some v else j.values[q]? := by
  unfold set
  rw [Array.getElem?_eq_getElem hp]
  by_cases heq : (j.values[p] == v) = true
  · have : j.values[p] = v := eq_of_beq heq
    by_cases hq : q = p
    · simp [hq, hp, this]
    · simp [hq, heq]
  · simp only [heq]
    grind

/-- A number that is set stands there afterwards, up to the sign of zero. -/
theorem place?_getElem?_set {j : Journal Binary64} {p : Nat} (hp : p < j.values.size)
    (v : Binary64) (q : Nat) :
    (j.set p v).values[q]?.map Binary64.place? =
      if q = p then some v.place? else j.values[q]?.map Binary64.place? := by
  unfold set
  rw [Array.getElem?_eq_getElem hp]
  by_cases heq : (j.values[p] == v) = true
  · have := Binary64.place?_eq_of_beq heq
    by_cases hq : q = p
    · simp [hq, heq, hp, this]
    · simp [hq, heq]
  · simp only [heq]
    grind

end Journal

/-! ### Gathered arrays -/

namespace Gathered

/-- Each value has an offset, and the readers are the index of the offsets. -/
structure Valid (g : Gathered) : Prop where
  sizes : g.offsets.values.size = g.values.values.size
  readers : g.readers.Exact (g.offsets.values[·]?)

/-- The second gathered array was reached from the first one by edits. -/
structure Extends (g g' : Gathered) : Prop where
  values : g.values.Extends g'.values
  offsets : g.offsets.Extends g'.offsets

/-- A gathered array without pending edits. -/
def Clean (g : Gathered) : Prop := g.values.Clean ∧ g.offsets.Clean

/-- What position `q` holds: where it was read, and the place of its value. -/
def reading (g : Gathered) (q : Nat) : Option (Nat × Option Int) :=
  g.offsets.values[q]?.bind fun f => (g.values.values[q]?.map Binary64.place?).map (f, ·)

@[simp] theorem size_place (g : Gathered) (f : Nat) (x : Binary64) :
    (g.place f x).size = g.size + 1 := by simp [place, size]

@[simp] theorem size_pop (g : Gathered) : g.pop.size = g.size - 1 := by simp [pop, size]

/-- Whatever becomes of the offset, the value is written. -/
theorem values_update (g : Gathered) (p f : Nat) (x : Binary64) :
    (g.update p f x).values = g.values.set p x := by
  unfold update
  split
  · split <;> rfl
  · rfl

@[simp] theorem size_update (g : Gathered) (p f : Nat) (x : Binary64) :
    (g.update p f x).size = g.size := by
  rw [size, values_update, Journal.size_set, size]

theorem store_eq_ok {g g' : Gathered} {p f : Nat} {x : Binary64} :
    g.store p f x = .ok g' ↔ p < g.size ∧ g.update p f x = g' := by
  unfold store
  split
  · next hp => exact ⟨fun h => ⟨hp, Except.ok.inj h⟩, fun h => congrArg _ h.2⟩
  · next hp => exact ⟨nofun, fun h => absurd h.1 hp⟩

theorem Extends.refl (g : Gathered) : Extends g g := ⟨.refl _, .refl _⟩

theorem Extends.trans {g g' g'' : Gathered} (h : Extends g g') (h' : Extends g' g'') :
    Extends g g'' :=
  ⟨h.values.trans h'.values, h.offsets.trans h'.offsets⟩

theorem Extends.place (g : Gathered) (f : Nat) (x : Binary64) : Extends g (g.place f x) :=
  ⟨.push _ _, .push _ _⟩

theorem Extends.pop (g : Gathered) : Extends g g.pop := ⟨.pop _, .pop _⟩

theorem Extends.update (g : Gathered) (p f : Nat) (x : Binary64) : Extends g (g.update p f x) := by
  unfold Gathered.update
  split
  · split
    · exact ⟨.set _ _ _, .refl _⟩
    · exact ⟨.set _ _ _, .set _ _ _⟩
  · exact ⟨.set _ _ _, .refl _⟩

/-- A property of all values is kept if the new one has it. -/
theorem every_update {P : Binary64 → Prop} {g : Gathered} (h : g.values.Every P) (p f : Nat)
    {x : Binary64} (hx : P x) : (g.update p f x).values.Every P := by
  rw [values_update]
  exact h.set hx p

namespace Valid

variable {g : Gathered}

theorem size_offsets (h : g.Valid) : g.offsets.values.size = g.size := h.sizes

theorem place (h : g.Valid) (f : Nat) (x : Binary64) : (g.place f x).Valid where
  sizes := by simp [Gathered.place, h.sizes]
  readers := h.readers.push f

theorem pop (h : g.Valid) : g.pop.Valid where
  sizes := by simp [Gathered.pop, h.sizes]
  readers := by
    simp only [Gathered.pop, Journal.values_pop]
    split
    · next f hf => exact h.readers.pop hf
    · next hnone =>
      have : g.offsets.values = #[] := by simpa using hnone
      simpa [this] using h.readers

theorem update (h : g.Valid) (p f : Nat) (x : Binary64) : (g.update p f x).Valid := by
  have hvalues : (g.values.set p x).values.size = g.values.values.size := Journal.size_set _ _ _
  unfold Gathered.update
  split
  · next old hold =>
    have hp := (Array.getElem?_eq_some_iff.mp hold).1
    split
    · exact ⟨by rw [hvalues]; exact h.sizes, h.readers⟩
    · refine ⟨?_, (h.readers.set hold f).congr fun q => ?_⟩
      · rw [hvalues, ← h.sizes]; exact Journal.size_set _ _ _
      · rw [Journal.getElem?_set hp, Array.getElem?_setIfInBounds]
        grind
  · exact ⟨by rw [hvalues]; exact h.sizes, h.readers⟩

theorem reading_eq_none (h : g.Valid) {q : Nat} (hq : g.size ≤ q) : g.reading q = none := by
  have : g.offsets.values[q]? = none :=
    Array.getElem?_eq_none (by rw [h.size_offsets]; exact hq)
  simp [reading, this]

theorem reading_place (h : g.Valid) (f : Nat) (x : Binary64) (q : Nat) :
    (g.place f x).reading q = if q = g.size then some (f, x.place?) else g.reading q := by
  unfold reading
  simp only [Gathered.place, Journal.values_push, Array.getElem?_push, h.sizes]
  by_cases hq : q = g.size
  · simp only [hq, size, Journal.size, if_true, Option.bind_some, Option.map_some]
  · have hvalue : q ≠ g.values.values.size := hq
    simp only [hq, hvalue, if_false]

theorem reading_pop (h : g.Valid) (q : Nat) :
    g.pop.reading q = if q < g.size - 1 then g.reading q else none := by
  by_cases hq : q < g.size - 1
  · have hvalue : q < g.values.values.size - 1 := hq
    unfold reading
    simp only [Gathered.pop, Journal.values_pop, Array.getElem?_pop, h.sizes, hvalue, hq, if_true]
  · rw [if_neg hq, h.pop.reading_eq_none (by rw [Gathered.size_pop]; omega)]

theorem reading_update (h : g.Valid) {p : Nat} (hp : p < g.size) (f : Nat) (x : Binary64) (q : Nat) :
    (g.update p f x).reading q = if q = p then some (f, x.place?) else g.reading q := by
  have hvalue : p < g.values.values.size := hp
  have hoffset : p < g.offsets.values.size := by rw [h.sizes]; exact hp
  have hset := Journal.place?_getElem?_set hvalue x q
  unfold reading Gathered.update
  rw [Array.getElem?_eq_getElem hoffset]
  by_cases hold : g.offsets.values[p] = f
  · simp only [hold, if_true, hset]
    by_cases hq : q = p
    · simp [hq, hoffset, hold]
    · simp [hq]
  · simp only [hold, if_false, hset, Journal.getElem?_set hoffset]
    by_cases hq : q = p <;> simp [hq]

/-- A position read from `f` is listed under `f`. -/
theorem mem_readers (h : g.Valid) {q f : Nat} {x : Option Int} (hq : g.reading q = some (f, x)) :
    q ∈ g.readers.of f := by
  obtain ⟨f', hf', hrest⟩ := Option.bind_eq_some_iff.mp hq
  obtain ⟨y, -, hy⟩ := Option.map_eq_some_iff.mp hrest
  obtain ⟨rfl, -⟩ := Prod.mk.inj hy
  exact (h.readers.mem_of f' q).mpr hf'

end Valid

/-- Elements that have just been read. -/
theorem valid_ofEntries (entries : List (Nat × Binary64)) : (ofEntries entries).Valid where
  sizes := by simp [ofEntries, Journal.ofArray]
  readers := by
    refine (Readers.Exact.nil.linkFrom (fun _ _ => rfl) _).congr fun q => ?_
    simp [ofEntries, Journal.ofArray]

theorem clean_ofEntries (entries : List (Nat × Binary64)) : (ofEntries entries).Clean :=
  ⟨Journal.clean_ofArray _, Journal.clean_ofArray _⟩

@[simp] theorem size_ofEntries (entries : List (Nat × Binary64)) :
    (ofEntries entries).size = entries.length := by
  simp [ofEntries, size, Journal.ofArray, Journal.size]

theorem reading_ofEntries (entries : List (Nat × Binary64)) (q : Nat) :
    (ofEntries entries).reading q = entries[q]?.map fun e => (e.1, e.2.place?) := by
  cases h : entries[q]? <;> simp [reading, ofEntries, Journal.ofArray, h]

theorem Clean.revert_eq {g : Gathered} (h : g.Clean) : g.revert = g := by
  have hvalues := h.1.revert_eq
  have hoffsets := h.2.revert_eq
  show Gathered.mk g.values.revert g.offsets.revert (g.offsets.log.foldl undoLink g.readers) = g
  rw [hvalues, hoffsets, h.2.1]
  rfl

theorem Valid.commit {g : Gathered} (h : g.Valid) : g.commit.Valid := ⟨h.sizes, h.readers⟩

/-- **Reverting is exact.**  A gathered array reached by edits from one
without pending edits gets its values and offsets back, and the readers with
them. -/
theorem Extends.revert {g g' : Gathered} (h : Extends g g') (hg : g.Clean) (hv : g'.Valid) :
    g'.revert.values = g.values ∧ g'.revert.offsets = g.offsets ∧
      g'.revert.readers.Exact (g.offsets.values[·]?) :=
  ⟨h.values.revert_eq hg.1, h.offsets.revert_eq hg.2,
    Readers.Exact.undo (h.offsets.script hg.2) hv.readers⟩

end Gathered
end ArrayFlow
