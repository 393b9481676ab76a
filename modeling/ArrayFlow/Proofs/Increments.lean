import ArrayFlow.Proofs.Idempotence

/-!
# What a propagation records

An advanced selection is brought up to date by taking elements away from the
end, reading the dirty positions again and appending what is missing; each of
these steps writes records.  The dirty positions are more than those that
differ, come in increasing order, and each stands there once.  A value that
is written over an equal one leaves no record, and an element that is not
dirty has kept its value; so the records are the ones that can be read off
the values before and after (`increments`), and nothing else.

* `diff_popMany`, `diff_updateAll`, `diff_placeAll` — the records of the three
  steps;
* `diff_refresh` — together they are the increments from what was stored to
  what is read anew;
* `run_increments` — this at every propagation of a run.
-/

namespace ArrayFlow

/-! ### From one list of values to another -/

/-- The records of taking elements away from the end until `n` are left. -/
def removalsTo (n : Nat) (old : List Binary64) : List (Update Binary64) :=
  ((old.zipIdx.drop n).map fun (x, p) => .removal p x).reverse

/-- The records of changing, in the order of the positions, what differs where
both lists have an element. -/
def changesTo (new old : List Binary64) : List (Update Binary64) :=
  (old.zip new).zipIdx.filterMap fun ((x, y), p) => if x == y then none else some (.change p x y)

/-- The records of appending the elements from position `n` on. -/
def placementsFrom (n : Nat) (new : List Binary64) : List (Update Binary64) :=
  (new.zipIdx.drop n).map fun (y, p) => .placement p y

/-- The records that lead from some values to others: removals from the end if
there are too many, changes of what differs, and placements if there are too
few. -/
def increments (old new : List Binary64) : List (Update Binary64) :=
  removalsTo new.length old ++ changesTo new old ++ placementsFrom old.length new

theorem removalsTo_of_le {n : Nat} {old : List Binary64} (h : old.length ≤ n) :
    removalsTo n old = [] := by
  have hdrop : old.zipIdx.drop n = [] := List.drop_of_length_le (by rwa [List.length_zipIdx])
  rw [removalsTo, hdrop]
  rfl

/-- The last record is that of the element that stands at `n`. -/
theorem removalsTo_of_lt {n : Nat} {old : List Binary64} (h : n < old.length) :
    removalsTo n old = removalsTo (n + 1) old ++ [.removal n old[n]] := by
  have hlt : n < old.zipIdx.length := by rwa [List.length_zipIdx]
  rw [removalsTo, List.drop_eq_getElem_cons hlt, List.map_cons, List.reverse_cons,
    List.getElem_zipIdx, Nat.zero_add]
  rfl

/-- The record of a position where both lists have an element, if these
differ. -/
def changeAt (old : List Binary64) (fresh : Nat → Binary64) (p : Nat) : Option (Update Binary64) :=
  old[p]?.bind fun x => if x == fresh p then none else some (.change p x (fresh p))

/-- Walking over the positions instead of the entries. -/
theorem filterMap_zipIdx {α β : Type} (f : α × Nat → Option β) (xs : List α) :
    xs.zipIdx.filterMap f =
      (List.range xs.length).filterMap fun p => xs[p]?.bind fun x => f (x, p) := by
  have hentries : xs.zipIdx.map some =
      (List.range xs.length).map fun p => xs[p]?.map (·, p) := by
    refine List.ext_getElem (by simp) fun p hp hp' => ?_
    have hlt : p < xs.length := by simpa using hp
    simp [hlt]
  calc xs.zipIdx.filterMap f = (xs.zipIdx.map some).filterMap (·.bind f) := by
        rw [List.filterMap_map]
        rfl
    _ = _ := by
        rw [hentries, List.filterMap_map]
        exact List.filterMap_congr fun p _ => by simp [Option.bind_map]

theorem changesTo_map_range (old : List Binary64) (fresh : Nat → Binary64) (n : Nat) :
    changesTo ((List.range n).map fresh) old =
      (List.range (min old.length n)).filterMap (changeAt old fresh) := by
  rw [changesTo, filterMap_zipIdx, List.length_zip, List.length_map, List.length_range]
  refine List.filterMap_congr fun p hp => ?_
  have hlt := List.mem_range.mp hp
  have hold : p < old.length := Nat.lt_of_lt_of_le hlt (Nat.min_le_left _ _)
  have hnew : p < n := Nat.lt_of_lt_of_le hlt (Nat.min_le_right _ _)
  simp [changeAt, hold, hnew]

theorem placementsFrom_map_range (fresh : Nat → Binary64) (m n : Nat) :
    placementsFrom m ((List.range n).map fresh) =
      (List.range' m (n - m)).map fun p => .placement p (fresh p) := by
  refine List.ext_getElem (by simp [placementsFrom]) fun k hk hk' => ?_
  simp [placementsFrom]

/-- The increments to values that are computed one by one. -/
theorem increments_map_range (old : List Binary64) (fresh : Nat → Binary64) (n : Nat) :
    increments old ((List.range n).map fresh) =
      removalsTo (min old.length n) old ++
        (List.range (min old.length n)).filterMap (changeAt old fresh) ++
          (List.range' (min old.length n) (n - min old.length n)).map
            fun p => .placement p (fresh p) := by
  rw [increments, changesTo_map_range, placementsFrom_map_range, List.length_map, List.length_range]
  rcases Nat.le_total old.length n with hle | hle
  · rw [Nat.min_eq_left hle, removalsTo_of_le hle, removalsTo_of_le (Nat.le_refl _)]
  · rw [Nat.min_eq_right hle, Nat.sub_eq_zero_of_le hle, Nat.sub_self]
    rfl

/-- An increasing list is what it picks from the numbers below a bound. -/
theorem eq_filter_range {ps : List Nat} {m : Nat} (h : ps.Pairwise (· < ·))
    (hm : ∀ p ∈ ps, p < m) : ps = (List.range m).filter (· ∈ ps) := by
  have hperm : ps.Perm ((List.range m).filter (· ∈ ps)) := by
    refine (List.perm_ext_iff_of_nodup (h.imp Nat.ne_of_lt) (List.nodup_range.filter _)).mpr ?_
    exact fun p => by simpa using hm p
  exact hperm.eq_of_pairwise' h (List.pairwise_lt_range.filter _)

namespace Journal

theorem diff_pop {j : Journal Binary64} {x : Binary64} (h : j.values.back? = some x) :
    j.pop.diff = j.diff ++ [.removal (j.size - 1) x] := by
  simp [pop, h, diff]

theorem diff_set {j : Journal Binary64} {p : Nat} {x : Binary64} (h : j.values[p]? = some x)
    (y : Binary64) :
    (j.set p y).diff = j.diff ++ (if x == y then none else some (.change p x y)).toList := by
  by_cases hxy : (x == y) = true
  · simp [set, h, hxy]
  · simp [set, h, hxy, diff]

theorem getElem?_set_of_ne {j : Journal Binary64} {p q : Nat} (h : q ≠ p) (y : Binary64) :
    (j.set p y).values[q]? = j.values[q]? := by
  unfold set
  split
  · rfl
  · split
    · rfl
    · exact Array.getElem?_setIfInBounds_ne h.symm

end Journal

/-! ### The three steps -/

namespace AdvancedIndexing

section Refresh

variable {g g' : Gathered} {entry : Nat → Except Fault (Nat × Binary64)} {off : Nat → Nat}
  {fresh : Nat → Binary64}

/-- The elements at the end are taken away, the last one first. -/
theorem diff_popMany {n : Nat} (hn : n ≤ g.size) :
    (Nat.repeat Gathered.pop n g).values.values.toList =
        g.values.values.toList.take (g.size - n) ∧
      (Nat.repeat Gathered.pop n g).values.diff =
        g.values.diff ++ removalsTo (g.size - n) g.values.values.toList := by
  induction n with
  | zero =>
    refine ⟨(List.take_of_length_le (Nat.le_refl _)).symm, ?_⟩
    rw [Nat.sub_zero, removalsTo_of_le (n := g.size) (Nat.le_refl _), List.append_nil]
    rfl
  | succ n ih =>
    obtain ⟨hvalues, hdiff⟩ := ih (Nat.le_of_succ_le hn)
    obtain ⟨m, hm⟩ : ∃ m, g.size - n = m + 1 := ⟨g.size - n - 1, by omega⟩
    have hm' : g.size - (n + 1) = m := by omega
    have hlt : m < g.values.values.toList.length := by
      show m < g.size
      omega
    rw [hm] at hvalues hdiff
    have hsize : (Nat.repeat Gathered.pop n g).values.values.size = m + 1 := by
      rw [← Array.length_toList, hvalues, List.length_take]
      omega
    have hlast : (Nat.repeat Gathered.pop n g).values.values.back? =
        some g.values.values.toList[m] := by
      rw [Array.back?_eq_getElem?, hsize, ← Array.getElem?_toList, hvalues]
      simp
    rw [hm', Nat.repeat]
    constructor
    · show (Journal.pop _).values.toList = _
      rw [Journal.values_pop, Array.toList_pop, hvalues, List.dropLast_eq_take, List.take_take,
        List.length_take]
      congr 1
      omega
    · show (Journal.pop _).diff = _
      rw [Journal.diff_pop hlast, hdiff, removalsTo_of_lt hlt, List.append_assoc]
      show _ ++ (_ ++ [Update.removal ((Nat.repeat Gathered.pop n g).values.values.size - 1) _]) = _
      rw [hsize]
      rfl

/-- A change is recorded where the value differs. -/
theorem diff_updateAll {ps : List Nat} (hps : ps.Nodup) (hlt : ∀ p ∈ ps, p < g.size)
    (hentry : ∀ p ∈ ps, entry p = .ok (off p, fresh p))
    (hrun : ps.foldlM (fun g p => do
        let (f, x) ← entry p
        g.store p f x) g = .ok g') :
    g'.values.diff = g.values.diff ++ ps.filterMap (changeAt g.values.values.toList fresh) := by
  induction ps generalizing g with
  | nil =>
    obtain rfl := Except.ok.inj hrun
    exact (List.append_nil _).symm
  | cons p ps ih =>
    obtain ⟨hp, hps⟩ := List.nodup_cons.mp hps
    obtain ⟨hpg, hlt⟩ := List.forall_mem_cons.mp hlt
    obtain ⟨hep, hentry⟩ := List.forall_mem_cons.mp hentry
    rw [List.foldlM_cons, hep] at hrun
    obtain ⟨g1, hstore, hrun⟩ := Outcome.bind_eq_ok.mp hrun
    obtain ⟨-, rfl⟩ := Gathered.store_eq_ok.mp hstore
    have hrest := ih hps (fun q hq => by rw [Gathered.size_update]; exact hlt q hq) hentry hrun
    have hkept : ps.filterMap (changeAt (g.update p (off p) (fresh p)).values.values.toList fresh) =
        ps.filterMap (changeAt g.values.values.toList fresh) := by
      refine List.filterMap_congr fun q hq => ?_
      have hne : q ≠ p := fun h => hp (h ▸ hq)
      rw [changeAt, changeAt, Gathered.values_update, Array.getElem?_toList, Array.getElem?_toList,
        Journal.getElem?_set_of_ne hne]
    have hget : g.values.values[p]? = some g.values.values[p] := Array.getElem?_eq_getElem hpg
    rw [hrest, hkept, Gathered.values_update, Journal.diff_set hget, List.append_assoc]
    congr 1
    rw [List.filterMap_cons, changeAt, Array.getElem?_toList, hget, Option.bind_some]
    split <;> rfl

theorem size_updateAll {ps : List Nat} (hrun : ps.foldlM (fun g p => do
        let (f, x) ← entry p
        g.store p f x) g = .ok g') : g'.size = g.size := by
  refine Outcome.foldlM_induction (P := fun x => x.size = g.size)
    (fun x p x' hx hstep => ?_) hrun rfl
  obtain ⟨e, -, hstep⟩ := Outcome.bind_eq_ok.mp hstep
  obtain ⟨-, rfl⟩ := Gathered.store_eq_ok.mp hstep
  rw [Gathered.size_update, hx]

/-- What is missing is appended. -/
theorem diff_placeAll {count : Nat}
    (hentry : ∀ p, g.size ≤ p → p < g.size + count → entry p = .ok (off p, fresh p))
    (hrun : (List.range' g.size count).foldlM (fun g p => do
        let (f, x) ← entry p
        return g.place f x) g = .ok g') :
    g'.values.diff =
      g.values.diff ++ (List.range' g.size count).map fun p => .placement p (fresh p) := by
  induction count generalizing g with
  | zero =>
    obtain rfl := Except.ok.inj hrun
    exact (List.append_nil _).symm
  | succ count ih =>
    have hsize := Gathered.size_place g (off g.size) (fresh g.size)
    rw [List.range'_succ, List.foldlM_cons, hentry g.size (Nat.le_refl _) (by omega)] at hrun
    rw [← hsize] at hrun
    have hrest := ih (fun p hlo hhi => hentry p (by omega) (by omega)) hrun
    rw [hrest, hsize, List.range'_succ, List.map_cons]
    show (g.values.push (fresh g.size)).diff ++ _ = _
    rw [Journal.diff_push, List.append_assoc]
    rfl

end Refresh

variable {a : AdvancedIndexing} {b : Blocks} {view : NodeId → View}

theorem pairwise_dirtyPositions {indexerDiffs : List (List (Update Binary64))}
    {sourceDiff : List (Update Binary64)} {readers : Readers} {limit : Nat} :
    (a.dirtyPositions b indexerDiffs sourceDiff readers limit).Pairwise (· < ·) := by
  unfold dirtyPositions
  simp only
  split
  · exact List.pairwise_lt_range
  · exact Ascending.pairwise_sorted _

/-- The values that are read anew, in order. -/
theorem gather_values {source : View} {y : Gathered} {n : Nat} {fresh : Nat → Binary64}
    {off : Nat → Nat} (hn : b.size = n)
    (hentry : ∀ p < n, a.entry b (a.indexers.map (view ·.node)) source p = .ok (off p, fresh p))
    (hy : a.gather b (a.indexers.map (view ·.node)) source = .ok y) :
    y.values.values.toList = (List.range n).map fresh := by
  obtain ⟨_, hcount, hy⟩ := Outcome.bind_eq_ok.mp hy
  obtain ⟨-, -, rfl⟩ := Blocks.count_eq_ok.mp hcount
  obtain ⟨_, -, hy⟩ := Outcome.bind_eq_ok.mp hy
  obtain ⟨entries, hentries, rfl⟩ := Outcome.map_eq_ok.mp hy
  have heq : (List.range b.size).mapM (a.entry b (a.indexers.map (view ·.node)) source) =
      .ok ((List.range n).map fun p => (off p, fresh p)) := by
    rw [hn, Outcome.mapM_eq_ok, List.map_map]
    exact List.map_congr_left fun p hp => hentry p (List.mem_range.mp hp)
  obtain rfl := Except.ok.inj (hentries.symm.trans heq)
  simp [Gathered.ofEntries, Journal.ofArray, Function.comp_def]

/-- The records of the dirty positions are those of all positions, if there is
none of a position that is not dirty. -/
theorem filterMap_changeAt {dirty : List Nat} {old : List Binary64} {fresh : Nat → Binary64}
    {keep : Nat} (hsorted : dirty.Pairwise (· < ·)) (hlt : ∀ p ∈ dirty, p < keep)
    (hkept : ∀ p < keep, p ∉ dirty → changeAt old fresh p = none) :
    dirty.filterMap (changeAt (old.take keep) fresh) =
      (List.range keep).filterMap (changeAt old fresh) := by
  rw [eq_filter_range hsorted hlt, List.filterMap_filter]
  refine List.filterMap_congr fun p hp => ?_
  have hp := List.mem_range.mp hp
  have htake : changeAt (old.take keep) fresh p = changeAt old fresh p := by
    rw [changeAt, changeAt, List.getElem?_take_of_lt hp]
  by_cases hdirty : p ∈ dirty
  · simp [hdirty, htake]
  · simp [hdirty, hkept p hp hdirty]

/-- **What is recorded.**  If the positions that are not dirty hold a value
that is equal to the one that would be read, the records are the increments
from the stored values to those that are read anew. -/
theorem diff_refresh {g g' y : Gathered} {source : View}
    {indexerDiffs : List (List (Update Binary64))} {sourceDiff : List (Update Binary64)}
    (hcount : b.count = .ok b.size) (h : a.CanRead view b.broadcast) (hs : source.Readable)
    (hf : ∀ p < b.size, a.offset b view p < source.size)
    (hkept : ∀ p < min g.size b.size, ∀ x, g.values.values[p]? = some x →
      p ∉ a.dirtyPositions b indexerDiffs sourceDiff g.readers (min g.size b.size) →
        (x == source.cell (a.offset b view p)) = true)
    (hy : a.gather b (a.indexers.map (view ·.node)) source = .ok y)
    (hrun : a.refresh b (a.indexers.map (view ·.node)) source indexerDiffs sourceDiff g = .ok g') :
    g'.values.diff =
      g.values.diff ++ increments g.values.values.toList y.values.values.toList := by
  let fresh := fun p => source.cell (a.offset b view p)
  have hentry : ∀ p < b.size, a.entry b (a.indexers.map (view ·.node)) source p =
      .ok (a.offset b view p, fresh p) := fun p hp => entry_eq h hs hp (hf p hp)
  have hsize : g.values.values.toList.length = g.size := Array.length_toList
  unfold refresh at hrun
  rw [hcount, Outcome.ok_bind] at hrun
  obtain ⟨g2, hrun2, hrun3⟩ := Outcome.bind_eq_ok.mp hrun
  have hmin : g.size - (g.size - b.size) = min g.size b.size := by omega
  obtain ⟨hvalues1, hdiff1⟩ := diff_popMany (g := g) (Nat.sub_le g.size b.size)
  rw [hmin] at hvalues1 hdiff1
  have hs1 : (Nat.repeat Gathered.pop (g.size - b.size) g).size = min g.size b.size := by
    show (Nat.repeat Gathered.pop (g.size - b.size) g).values.values.size = _
    rw [← Array.length_toList, hvalues1, List.length_take, hsize, Nat.min_eq_left]
    exact Nat.min_le_left _ _
  have hlt : ∀ p ∈ a.dirtyPositions b indexerDiffs sourceDiff g.readers (min g.size b.size),
      p < min g.size b.size := fun p hp => lt_of_mem_dirtyPositions hp
  have hdiff2 := diff_updateAll (pairwise_dirtyPositions.imp Nat.ne_of_lt)
    (fun p hp => hs1 ▸ hlt p hp)
    (fun p hp => hentry p (Nat.lt_of_lt_of_le (hlt p hp) (Nat.min_le_right _ _))) hrun2
  have hs2 : g2.size = min g.size b.size := size_updateAll hrun2 ▸ hs1
  rw [← hs2] at hrun3
  have hdiff3 := diff_placeAll (fun p hlo hhi => hentry p (by omega)) hrun3
  have hchanged := @filterMap_changeAt _ g.values.values.toList fresh _ pairwise_dirtyPositions hlt
    fun p hp hclean => by
      have hget := Array.getElem?_eq_getElem (Nat.lt_of_lt_of_le hp (Nat.min_le_left g.size _))
      rw [changeAt, Array.getElem?_toList, hget, Option.bind_some, if_pos (hkept p hp _ hget hclean)]
  rw [gather_values rfl hentry hy, increments_map_range, hsize, ← hchanged, hdiff3, hdiff2, hdiff1,
    hvalues1, hs2]
  simp only [List.append_assoc]

end AdvancedIndexing

/-! ### During a run -/

namespace Graph

variable {g : Graph} {committed now now' past t : State} {edited waiting ids : List NodeId}
  {id : NodeId} {a : AdvancedIndexing} {x : Gathered}

/-- **What a step records.**  From the stored values of an advanced selection
that was up to date before some edits, to those that it would be filled with
now. -/
theorem propagateSlot_increments (hb : g.Built) (hnan : ¬ g.HoldsNaN) (hp : g.Settled past)
    (hroom : g.InRoom t) (hr : g.Ruled t) (hn : g.nodes[id]? = some (.advanced a))
    (hc : ∀ j : Nat, j < id → g.CurrentAt t j) (hext : past.ExtendsTo t id)
    (hx : g.Current past id (.advanced a) (.gathered x)) {new : Slot}
    (hnew : g.propagateSlot t (.advanced a) (.gathered x) = .ok new) :
    ∃ y x', g.defaultSlot t (.advanced a) = .ok (.gathered y) ∧ new = .gathered x' ∧
      y.size = g.sizeBy t (a.description id) ∧ x'.values.diff =
        x.values.diff ++ increments x.values.values.toList y.values.values.toList := by
  obtain ⟨picked, hfits⟩ := hb.promises hn
  have hd : g.describe id = .ok (a.description id) := describe_eq_ok.mpr ⟨_, hn, rfl⟩
  have hgathers := hp.gathers.at hn
  have hseen : g.SeenBelow t id := fun p d hlt hd hf =>
    seen_of_current hb (hp.gathers id) hroom hr hc hlt hd hf
  obtain ⟨b, hfinds⟩ := exists_finds hn hfits hgathers hseen hb hroom hr hd
  obtain ⟨y, hy, hmirrors, -⟩ := AdvancedIndexing.gather_eq hfinds.count hfinds.room hfinds.canRead
    hfinds.readable hfinds.offset_lt
  obtain ⟨x', hrun, rfl⟩ := (hfinds.propagateSlot_eq_ok hn hfits hc).mp hnew
  refine ⟨y, x', hfinds.defaultSlot_eq hy, rfl, hmirrors.size.trans hfinds.size_eq, ?_⟩
  cases hx with
  | advanced hx =>
  refine AdvancedIndexing.diff_refresh hfinds.count hfinds.canRead hfinds.readable hfinds.offset_lt
    (fun p hlt v hv hclean => ?_) hy hrun
  -- what is not dirty is still read from where it was, and the source has kept it
  have hltx : p < g.sizeBy past (a.description id) :=
    hx.size ▸ Nat.lt_of_lt_of_le hlt (Nat.min_le_left _ _)
  have hltb : p < b.size := Nat.lt_of_lt_of_le hlt (Nat.min_le_right _ _)
  have hfresh : (g.shown t a.source).cell (a.offset b (g.shown t) p) ≠ .nan :=
    ((seen_source hn hfits hgathers hseen).cells _ (hfinds.offset_lt p hltb)).ne_nan hnan
  have hblock := hfinds.eq_blocksIn (Nat.ne_of_gt (Nat.zero_lt_of_lt hltb))
  rw [hblock] at hclean hltb hlt hfresh ⊢
  obtain ⟨hoffset, hcell⟩ := kept_of_clean hb hp hroom hr hn hc hext hfits hx hltx hltb hlt hclean
  have hplace := hx.place?_values hltx
  rw [hv, Option.getD_some, ← hcell, ← hoffset] at hplace
  refine Binary64.beq_of_place?_eq hplace fun hnanv => hfresh ?_
  exact Binary64.place?_eq_none.mp (hplace ▸ Binary64.place?_eq_none.mpr hnanv)

/-- **Each propagation records exactly what has changed.**  The diff of every
advanced selection of the set grows by the increments from the elements `x`
that it stores to the elements `y` that it would be filled with from the
present views of the arrays that it reads: a removal for each element too
many, from the last one down; then, from the first position up, a change for
each element that differs as a number; then a placement for each element that
is missing. -/
theorem run_increments (hb : g.Built) (hnan : ¬ g.HoldsNaN)
    (h : g.Run committed now edited waiting) (closed : g.Closed ids) (reached : waiting ⊆ ids)
    (room : g.InRoom now) (hp : g.propagate ids now = .ok () now')
    (hn : g.nodes[id]? = some (.advanced a)) (hid : id ∈ ids) :
    ∃ x x' y, now.slot? id = some (.gathered x) ∧ now'.slot? id = some (.gathered x') ∧
      g.defaultSlot now' (.advanced a) = .ok (.gathered y) ∧ x'.size = y.size ∧
        g.diff now id = .ok x.values.diff ∧ g.diff now' id =
          .ok (x.values.diff ++ increments x.values.values.toList y.values.values.toList) := by
  obtain ⟨base, past, hepoch⟩ := h.epoch hb
  have hstepped := (stepAll_stepped local_propagateSlot hp).1
  have hsettled := hepoch.propagated.propagate hepoch.edits hb closed reached room hp
  obtain ⟨new, ⟨slot, hslot, hnew⟩, hslot'⟩ := hstepped.slot_of_mem hn hid
  have hd : g.describe id = .ok (a.description id) := describe_eq_ok.mpr ⟨_, hn, rfl⟩
  obtain ⟨x, rfl, hx⟩ : ∃ x, slot = .gathered x ∧ g.Current past id (.advanced a) (.gathered x) := by
    cases hepoch.edits.before hepoch.propagated hn hslot with
    | kept hcur =>
      cases hcur with
      | advanced hx => exact ⟨_, rfl, .advanced hx⟩
  obtain ⟨y, x', hy, rfl, hsize, hdiff⟩ := propagateSlot_increments hb hnan hepoch.propagated
    hsettled.inRoom hsettled.ruled hn (fun j _ => hsettled.current j)
    (extendsTo_propagated hepoch.propagated hstepped (hepoch.edits.extendsTo id)) hx hnew
  have hsize' : x'.size = g.sizeBy now' (a.description id) := by
    obtain ⟨_, hslot, hcur⟩ := hsettled.current id _ hn
    obtain rfl := Option.some.inj (hslot'.symm.trans hslot)
    cases hcur with
    | advanced hx' => exact hx'.size
  refine ⟨x, x', y, hslot, hslot', hy, hsize'.trans hsize.symm, ?_, ?_⟩
  · rw [diff_eq hepoch.full hd, diffAt_of_owns hd hn (.advanced a x) hslot]
    rfl
  · rw [diff_eq hsettled.full hd, diffAt_of_owns hd hn (.advanced a x') hslot', ← hdiff]
    rfl

namespace Table

/-- The first column is to stand first again, and there is a second row. -/
def widened : State := table.after [.edit 0 (.rows (.grow [.ofInt 4, .ofInt 4]))] turned

theorem run_widened : table.Run opened widened [0, 1, 1, 0] [0, 1] :=
  run_turned.edit (call_eq_ok_after (c := .edit 0 _) (by decide +kernel)) (by decide +kernel)

/-- All of it is propagated. -/
def arranged : State := table.after [.propagate [0, 1, 2, 3, 4]] widened

end Table

open Table in
set_option maxRecDepth 4000 in
/-- The elements are `3, 3, 4, 4` after `4, 3`.  The first one and the two that
are missing are recorded, and the second one is not. -/
theorem table_increments :
    (table.Built ∧ ¬ table.HoldsNaN ∧ table.Run opened widened [0, 1, 1, 0] [0, 1] ∧
      table.Closed [0, 1, 2, 3, 4] ∧ table.InRoom widened ∧
        table.propagate [0, 1, 2, 3, 4] widened = .ok () arranged) ∧
      ∃ old new : List Binary64,
        table.diff widened 2 = .ok [.placement 0 (.ofInt 4), .placement 1 (.ofInt 3)] ∧
          table.diff arranged 2 =
            .ok ([.placement 0 (.ofInt 4), .placement 1 (.ofInt 3)] ++ increments old new) ∧
          increments old new =
            [.change 0 (.ofInt 4) (.ofInt 3), .placement 2 (.ofInt 4), .placement 3 (.ofInt 4)] := by
  have hnan : ¬ table.HoldsNaN := by decide +kernel
  have closed : table.Closed [0, 1, 2, 3, 4] := by decide +kernel
  have room : table.InRoom widened := by decide +kernel
  have hp : table.propagate [0, 1, 2, 3, 4] widened = .ok () arranged :=
    call_eq_ok_after (c := .propagate [0, 1, 2, 3, 4]) (by decide +kernel)
  obtain ⟨a, hn⟩ : ∃ a, table.nodes[2]? = some (.advanced a) := ⟨_, rfl⟩
  obtain ⟨x, x', y, -, -, -, -, hbefore, hafter⟩ :=
    run_increments built_table hnan run_widened closed (by decide) room hp hn (by decide)
  have hdiff : table.diff widened 2 = .ok [.placement 0 (.ofInt 4), .placement 1 (.ofInt 3)] := by
    decide +kernel
  have hdiff' : table.diff arranged 2 = .ok ([.placement 0 (.ofInt 4), .placement 1 (.ofInt 3)] ++
      [.change 0 (.ofInt 4) (.ofInt 3), .placement 2 (.ofInt 4), .placement 3 (.ofInt 4)]) := by
    decide +kernel
  rw [Except.ok.inj (hbefore.symm.trans hdiff)] at hafter
  exact ⟨⟨built_table, hnan, run_widened, closed, room, hp⟩, _, _, hdiff, hafter,
    List.append_cancel_left (Except.ok.inj (hafter.symm.trans hdiff'))⟩

end Graph
end ArrayFlow
