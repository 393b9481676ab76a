import ArrayFlow.Indexing.Basic
import ArrayFlow.Proofs.Shape
import ArrayFlow.Proofs.Slice
import ArrayFlow.Proofs.View
import Mathlib.Algebra.Order.Group.Abs

/-!
# Basic indexing looks at what it promises

A position of the result of basic indexing stands for one position of the
source, `sourceOf`.  The three ways in which the selection uses this are
shown to agree: the diff of the source is renumbered by `translate?`, the
view of the result is a restrided view of the source, and the shape is that
of the axes that are left.

* `translate?_eq` — as long as there is room for the source, translating does
  not overflow, and finds the position that is meant, `target?`;
* `target?_sourceOf`, `sourceOf_of_target?` — this goes back exactly from a
  source position to the position that stands for it;
* `view_eq` — the view overflows where its start or its strides do, whatever
  the number of rows (`frame`), and for no other reason; in a view with elements
  only the step of a slice to a single position can be to blame
  (`AxisMap.exists_frame`);
* `position_view`, `view_spec` — the view reads at each position what the
  source has there, in the same place of the buffer.

Along one axis a map has to keep to the extent (`On`).  That is known from
construction for extents below `2 ^ 63` (`Fits`); larger ones occur only
where another extent is zero and there is nothing to see.
-/

namespace ArrayFlow
namespace AxisMap

/-- What a map makes of an axis of `n` positions keeps to these. -/
def On (n : Nat) : AxisMap → Prop
  | whole => True
  | range r => r.On n
  | position i => i < n

/-- A map leaves no more positions of an axis than there are. -/
def Shrinks (n : Nat) : AxisMap → Prop
  | whole => True
  | range r => r.length ≤ n
  | position _ => 0 < n

/-- What is known of a map from its construction. -/
def Fits : Dim → AxisMap → Prop
  | .dynamic, m => m = whole
  | .fixed n, m => m ≠ whole ∧ m.Shrinks n ∧ (n < 2 ^ 63 → m.On n)

/-- The position of the result at which the source element with the given
coordinates is meant to be seen. -/
def target? : List AxisMap → List Nat → List Nat → Option Nat
  | whole :: maps, c :: cs, s :: strides => (target? maps cs strides).map (c * s + ·)
  | range r :: maps, c :: cs, s :: strides =>
    (r.indexOf? c).bind fun k => (target? maps cs strides).map (k * s + ·)
  | position i :: maps, c :: cs, strides => if c = i then target? maps cs strides else none
  | _, _, _ => some 0

/-- Where the result starts in the source, and its strides: what `restride`
finds without regard to extents. -/
def frame (offset : Int) : List AxisMap → List Int → Except Fault (Int × List Int)
  | whole :: maps, s :: ss => do
    let (offset, strides) ← frame offset maps ss
    return (offset, s :: strides)
  | range r :: maps, s :: ss => do
    let next ← if 0 < r.length then do signed (offset + (← signed (r.start * s))) else pure offset
    let stride ← signed (r.step * s)
    let (offset, strides) ← frame next maps ss
    return (offset, stride :: strides)
  | position i :: maps, s :: ss => do
    let term ← signed (i * s)
    let next ← signed (offset + term)
    frame next maps ss
  | _, _ => .ok (offset, [])

/-- The extents that some maps leave of those of the source. -/
def extentsFrom : List AxisMap → List Nat → List Nat
  | whole :: maps, n :: ns => n :: extentsFrom maps ns
  | range r :: maps, _ :: ns => r.length :: extentsFrom maps ns
  | position _ :: maps, _ :: ns => extentsFrom maps ns
  | _, _ => []

/-- The coordinates in the source of some coordinates in the result. -/
def sourceCoordinates : List AxisMap → List Nat → List Nat
  | whole :: maps, k :: ks => k :: sourceCoordinates maps ks
  | range r :: maps, k :: ks => r.position k :: sourceCoordinates maps ks
  | position i :: maps, ks => i :: sourceCoordinates maps ks
  | _, _ => []

/-- A position that is found lies on the axis. -/
theorem ofPosition_eq_ok {n : Nat} {i : Int} {m : AxisMap} (h : ofPosition n i = .ok m) :
    ∃ index, (if i < 0 then index = i + signedWord n else index = i) ∧
      (0 ≤ index ∧ index < signedWord n) ∧ m = position index.toNat := by
  have hfound : ∀ index : Int, (if 0 ≤ index ∧ index < signedWord n
      then pure (position index.toNat) else throw (.refused (.indexOutOfBounds i n)) :
        Except Failure AxisMap) = .ok m →
        (0 ≤ index ∧ index < signedWord n) ∧ m = position index.toNat := by
    intro index h
    split at h
    · next hindex => exact ⟨hindex, (Except.ok.inj h).symm⟩
    · cases h
  unfold ofPosition at h
  simp only at h
  split at h
  · next hi =>
    obtain ⟨index, hindex, h⟩ := Outcome.bind_eq_ok.mp h
    obtain ⟨-, rfl⟩ := signed_eq_ok.mp (Outcome.fault_eq_ok.mp hindex)
    exact ⟨_, (if_pos hi).mpr rfl, hfound _ h⟩
  · next hi => exact ⟨_, (if_neg hi).mpr rfl, hfound _ h⟩

theorem ofPosition_fits {n : Nat} {i : Int} {m : AxisMap} (h : ofPosition n i = .ok m) :
    m.Fits (.fixed n) := by
  obtain ⟨index, -, ⟨hlow, hhigh⟩, rfl⟩ := ofPosition_eq_ok h
  have hpos : 0 < n := by
    refine Nat.pos_of_ne_zero ?_
    rintro rfl
    exact absurd hhigh (Int.not_lt.mpr hlow)
  refine ⟨nofun, hpos, fun hn => ?_⟩
  rw [signedWord_of_lt hn] at hhigh
  show index.toNat < n
  omega

theorem ofSelector_fits {axis : Nat} {d : Dim} {s : Selector} {m : AxisMap}
    (h : ofSelector axis d s = .ok m) : m.Fits d := by
  cases d with
  | dynamic =>
    cases s with
    | position i => cases h
    | slice s =>
      simp only [ofSelector] at h
      split at h
      · cases h
        rfl
      · cases h
  | fixed n =>
    cases s with
    | position i => exact ofPosition_fits h
    | slice s =>
      obtain ⟨r, hr, h⟩ := Outcome.bind_eq_ok.mp h
      have hr := Outcome.fault_eq_ok.mp hr
      cases r with
      | none => cases h
      | some r =>
        cases h
        exact ⟨nofun, Slice.length_le_of_resolve? hr, fun hn =>
          Slice.range?_on hn (Slice.resolve?_eq_ok hr)⟩

theorem ofSelectors_fits {axis : Nat} {ds : List Dim} {ss : List Selector} {maps : List AxisMap}
    (h : ofSelectors axis ds ss = .ok maps) : List.Forall₂ (fun d m => m.Fits d) ds maps := by
  induction ds generalizing axis ss maps with
  | nil =>
    cases h
    exact .nil
  | cons d ds ih =>
    obtain ⟨m, hm, h⟩ := Outcome.bind_eq_ok.mp h
    obtain ⟨rest, hrest, h⟩ := Outcome.bind_eq_ok.mp h
    cases h
    exact .cons (ofSelector_fits hm) (ih hrest)

/-! ### Coordinates -/

section Coordinates

variable {maps : List AxisMap} {ns ks cs : List Nat}

theorem within_sourceCoordinates (h : List.Forall₂ On ns maps)
    (hk : RowMajor.Within ks (extentsFrom maps ns)) :
    RowMajor.Within (sourceCoordinates maps ks) ns := by
  induction h generalizing ks with
  | nil => exact .nil
  | @cons n m ns maps hm _ ih =>
    cases m with
    | whole =>
      cases hk with
      | cons hkn hks => exact .cons hkn (ih hks)
    | range r =>
      cases hk with
      | cons hkn hks => exact .cons (SliceRange.On.position_lt hm hkn) (ih hks)
    | position i => exact .cons hm (ih hk)

theorem size_extentsFrom_le (h : List.Forall₂ Shrinks ns maps) :
    RowMajor.size (extentsFrom maps ns) ≤ RowMajor.size ns := by
  induction h with
  | nil => exact Nat.le_refl _
  | @cons n m ns maps hm _ ih =>
    cases m with
    | whole => exact Nat.mul_le_mul_left n ih
    | range r => exact Nat.mul_le_mul hm ih
    | position i => exact Nat.le_trans ih (Nat.le_mul_of_pos_left _ hm)

theorem countsFrom_extentsFrom (h : List.Forall₂ Shrinks ns maps) {k l : Nat}
    (hc : RowMajor.CountsFrom l ns) (hkl : k ≤ l) : RowMajor.CountsFrom k (extentsFrom maps ns) := by
  induction h generalizing k l with
  | nil => trivial
  | @cons n m ns maps hm _ ih =>
    cases m with
    | whole =>
      have hle := Nat.mul_le_mul_right n hkl
      exact ⟨Nat.lt_of_le_of_lt hle hc.1, ih hc.2 hle⟩
    | range r =>
      have hle := Nat.mul_le_mul hkl (show r.length ≤ n from hm)
      exact ⟨Nat.lt_of_le_of_lt hle hc.1, ih hc.2 hle⟩
    | position i => exact ih hc.2 (Nat.le_trans hkl (Nat.le_mul_of_pos_right l hm))

theorem On.shrinks {n : Nat} {m : AxisMap} (h : m.On n) : m.Shrinks n := by
  cases m with
  | whole => trivial
  | range r => exact SliceRange.On.length_le h
  | position i => exact Nat.zero_lt_of_lt h

/-- A coordinate of the result is found again from its place in the
source. -/
theorem target?_sourceCoordinates (h : List.Forall₂ On ns maps)
    (hk : RowMajor.Within ks (extentsFrom maps ns)) {ss : List Nat} (hs : ss.length = ks.length) :
    target? maps (sourceCoordinates maps ks) ss = some (RowMajor.flatten ks ss) := by
  induction h generalizing ks ss with
  | nil =>
    cases hk
    rfl
  | @cons n m ns maps hm _ ih =>
    cases m with
    | position i => simp only [sourceCoordinates, target?, if_true, ih hk hs]
    | whole =>
      cases hk with
      | @cons k _ ks _ hkn hks =>
        cases ss with
        | nil => simp at hs
        | cons s ss =>
          rw [sourceCoordinates, target?, ih hks (by simpa using hs)]
          simp
    | range r =>
      cases hk with
      | @cons k _ ks _ hkn hks =>
        cases ss with
        | nil => simp at hs
        | cons s ss =>
          rw [sourceCoordinates, target?, SliceRange.On.indexOf?_position hm hkn, Option.bind_some,
            ih hks (by simpa using hs)]
          simp

/-- What a source position is translated to stands for it. -/
theorem exists_of_target? (h : List.Forall₂ On ns maps) (hc : RowMajor.Within cs ns)
    {ss : List Nat} (hs : ss.length = (extentsFrom maps ns).length) {k : Nat}
    (hk : target? maps cs ss = some k) :
    ∃ ks, RowMajor.Within ks (extentsFrom maps ns) ∧ sourceCoordinates maps ks = cs ∧
      RowMajor.flatten ks ss = k := by
  induction h generalizing cs ss k with
  | nil =>
    cases hc
    obtain rfl : ss = [] := by simpa [extentsFrom] using hs
    obtain rfl : 0 = k := by simpa [target?] using hk
    exact ⟨[], .nil, rfl, rfl⟩
  | @cons n m ns maps hm _ ih =>
    cases hc with
    | @cons c _ cs _ hcn hcs =>
      cases m with
      | position i =>
        simp only [target?] at hk
        split at hk
        · next hci =>
          obtain ⟨ks, hw, hsrc, hflat⟩ := ih hcs hs hk
          exact ⟨ks, hw, by rw [sourceCoordinates, hsrc, hci], hflat⟩
        · cases hk
      | whole =>
        cases ss with
        | nil => simp [extentsFrom] at hs
        | cons s ss =>
          simp only [target?, Option.map_eq_some_iff] at hk
          obtain ⟨j, hj, rfl⟩ := hk
          obtain ⟨ks, hw, hsrc, hflat⟩ := ih hcs (by simpa [extentsFrom] using hs) hj
          exact ⟨c :: ks, .cons hcn hw, by rw [sourceCoordinates, hsrc], by
            rw [RowMajor.flatten_cons, hflat]⟩
      | range r =>
        cases ss with
        | nil => simp [extentsFrom] at hs
        | cons s ss =>
          simp only [target?, Option.bind_eq_some_iff, Option.map_eq_some_iff] at hk
          obtain ⟨x, hx, j, hj, rfl⟩ := hk
          obtain ⟨hxr, hxc⟩ := SliceRange.On.position_of_indexOf? hm hx
          obtain ⟨ks, hw, hsrc, hflat⟩ := ih hcs (by simpa [extentsFrom] using hs) hj
          exact ⟨x :: ks, .cons hxr hw, by rw [sourceCoordinates, hsrc, hxc], by
            rw [RowMajor.flatten_cons, hflat]⟩

/-- As long as there is room for the source, the target is found without an
overflow: what the axes add up to is at most what the coordinates add up to in
the source. -/
theorem translate?_eq (h : List.Forall₂ On ns maps) (hc : RowMajor.Within cs ns) {sum : Nat}
    (hsum : sum + RowMajor.size ns ≤ 2 ^ 62) :
    translate? sum maps cs (RowMajor.weights (extentsFrom maps ns)) =
      .ok ((target? maps cs (RowMajor.weights (extentsFrom maps ns))).map (sum + ·)) := by
  induction h generalizing cs sum with
  | nil =>
    cases hc
    rfl
  | @cons n m ns maps hm hms ih =>
    cases hc with
    | @cons c _ cs _ hcn hcs =>
      have hle := size_extentsFrom_le (hms.imp fun _ _ h => h.shrinks)
      have hpos : 0 < RowMajor.size ns := Nat.zero_lt_of_lt (RowMajor.flatten_lt hcs)
      have hn : n ≤ RowMajor.size (n :: ns) := Nat.le_mul_of_pos_right _ hpos
      -- what one more axis adds is paid for by its part of the source
      have hstep : ∀ k, k < n → sum + k * RowMajor.size (extentsFrom maps ns) +
          RowMajor.size ns ≤ 2 ^ 62 := fun k hk => by
        have hmul : k * RowMajor.size (extentsFrom maps ns) ≤ k * RowMajor.size ns :=
          Nat.mul_le_mul_left k hle
        have hnext : (k + 1) * RowMajor.size ns ≤ n * RowMajor.size ns := Nat.mul_le_mul_right _ hk
        rw [Nat.add_mul, Nat.one_mul] at hnext
        rw [RowMajor.size] at hsum
        omega
      cases m with
      | position i =>
        simp only [translate?, target?, extentsFrom]
        by_cases hci : c = i
        · rw [if_pos hci, if_pos hci]
          have hzero := hstep 0 (Nat.zero_lt_of_lt hcn)
          exact ih hcs (by omega)
        · rw [if_neg hci, if_neg hci]
          rfl
      | whole =>
        have hnext := hstep c hcn
        rw [extentsFrom, RowMajor.weights, translate?, target?]
        rw [if_neg (by rw [signedWord_of_lt (show c < 1 <<< 63 by omega)]; omega),
          word_of_lt (by omega), Outcome.ok_bind, word_of_lt (by omega), Outcome.ok_bind,
          ih hcs hnext, Option.map_map]
        exact congrArg Except.ok (congrArg (Option.map · _) (funext fun _ => Nat.add_assoc _ _ _))
      | range r =>
        rw [extentsFrom, RowMajor.weights, translate?, target?,
          SliceRange.On.find?_eq hm (by omega) (by omega), Outcome.ok_bind]
        cases hfound : r.indexOf? c with
        | none => rfl
        | some k =>
          have hk : k < r.length := (SliceRange.On.position_of_indexOf? hm hfound).1
          have hnext := hstep k (Nat.lt_of_lt_of_le hk (SliceRange.On.length_le hm))
          show (word _ >>= _) = _
          rw [word_of_lt (by omega), Outcome.ok_bind, word_of_lt (by omega), Outcome.ok_bind,
            ih hcs hnext, Option.bind_some, Option.map_map]
          exact congrArg Except.ok (congrArg (Option.map · _) (funext fun _ => Nat.add_assoc _ _ _))

/-! ### The frame of the result -/

/-- The extents have no part in where the result starts. -/
theorem restride_eq {offset : Int} (hlen : maps.length = ns.length) {ss : List Int}
    (hs : ss.length = ns.length) :
    restride offset maps ns ss =
      (fun f => (f.1, extentsFrom maps ns, f.2)) <$> frame offset maps ss := by
  induction maps generalizing ns ss offset with
  | nil => cases ns <;> rfl
  | cons m maps ih =>
    cases ns with
    | nil => cases hlen
    | cons n ns =>
      cases ss with
      | nil => cases hs
      | cons s ss =>
        have hrest := fun next : Int =>
          @ih ns next (Nat.succ.inj hlen) ss (Nat.succ.inj hs)
        cases m with
        | whole =>
          rw [restride, frame, hrest, map_bind, bind_map_left]
          rfl
        | position i =>
          simp only [restride, frame, hrest, map_bind]
          rfl
        | range r =>
          by_cases hr : 0 < r.length
          · simp only [restride, frame, hr, if_true, hrest, map_bind, bind_map_left]
            rfl
          · simp only [restride, frame, hr, if_false, hrest, map_bind, bind_map_left]
            rfl

theorem frame_eq_error {maps : List AxisMap} {offset : Int} {ss : List Int} {f : Fault}
    (h : frame offset maps ss = .error f) : f = .overflow := by
  induction maps generalizing offset ss with
  | nil => cases h
  | cons m maps ih =>
    cases ss with
    | nil => cases m <;> cases h
    | cons s ss =>
      cases m with
      | whole =>
        rcases Outcome.bind_eq_error.mp h with h | ⟨_, -, h⟩
        · exact ih h
        · cases h
      | position i =>
        rcases Outcome.bind_eq_error.mp h with h | ⟨_, -, h⟩
        · exact (signed_eq_error.mp h).2
        rcases Outcome.bind_eq_error.mp h with h | ⟨_, -, h⟩
        · exact (signed_eq_error.mp h).2
        · exact ih h
      | range r =>
        have hbehind : ∀ next : Int, (do
            let stride ← signed (r.step * s)
            let (offset, strides) ← frame next maps ss
            return (offset, stride :: strides) : Except Fault (Int × List Int)) = .error f →
            f = .overflow := by
          intro next h
          rcases Outcome.bind_eq_error.mp h with h | ⟨_, -, h⟩
          · exact (signed_eq_error.mp h).2
          rcases Outcome.bind_eq_error.mp h with h | ⟨_, -, h⟩
          · exact ih h
          · cases h
        rw [frame] at h
        simp only at h
        split at h
        · rcases Outcome.bind_eq_error.mp h with h | ⟨_, -, h⟩
          · exact (signed_eq_error.mp h).2
          rcases Outcome.bind_eq_error.mp h with h | ⟨next, -, h⟩
          · exact (signed_eq_error.mp h).2
          · exact hbehind next h
        · exact hbehind offset h

/-- What a range makes of the frame. -/
theorem frame_range_eq_ok {r : SliceRange} {offset o s : Int} {ss os : List Int}
    (hf : frame offset (range r :: maps) (s :: ss) = .ok (o, os)) :
    ∃ next os', frame next maps ss = .ok (o, os') ∧ os = r.step * s :: os' ∧
      next = if 0 < r.length then offset + r.start * s else offset := by
  have hbehind : ∀ next : Int, (do
      let stride ← signed (r.step * s)
      let (offset, strides) ← frame next maps ss
      return (offset, stride :: strides) : Except Fault (Int × List Int)) = .ok (o, os) →
      ∃ os', frame next maps ss = .ok (o, os') ∧ os = r.step * s :: os' := by
    intro next h
    obtain ⟨stride, hstride, h⟩ := Outcome.bind_eq_ok.mp h
    obtain ⟨-, rfl⟩ := signed_eq_ok.mp hstride
    obtain ⟨⟨o', os'⟩, hrest, h⟩ := Outcome.bind_eq_ok.mp h
    cases h
    exact ⟨os', hrest, rfl⟩
  rw [frame] at hf
  simp only at hf
  split at hf
  · next hpos =>
    obtain ⟨term, hterm, hf⟩ := Outcome.bind_eq_ok.mp hf
    obtain ⟨-, rfl⟩ := signed_eq_ok.mp hterm
    obtain ⟨next, hnext, hf⟩ := Outcome.bind_eq_ok.mp hf
    obtain ⟨-, rfl⟩ := signed_eq_ok.mp hnext
    obtain ⟨os', hrest, hos⟩ := hbehind _ hf
    exact ⟨_, os', hrest, hos, (if_pos hpos).symm⟩
  · next hpos =>
    obtain ⟨os', hrest, hos⟩ := hbehind _ hf
    exact ⟨_, os', hrest, hos, (if_neg hpos).symm⟩

theorem length_frame {offset o : Int} {ss os : List Int} (hlen : maps.length = ns.length)
    (hs : ss.length = ns.length) (hf : frame offset maps ss = .ok (o, os)) :
    os.length = (extentsFrom maps ns).length := by
  induction maps generalizing ns ss offset os with
  | nil =>
    obtain rfl := List.eq_nil_of_length_eq_zero hlen.symm
    cases hf
    rfl
  | cons m maps ih =>
    cases ns with
    | nil => cases hlen
    | cons n ns =>
      cases ss with
      | nil => cases hs
      | cons s ss =>
        have hrest := fun {next : Int} {os : List Int} =>
          @ih ns next ss os (Nat.succ.inj hlen) (Nat.succ.inj hs)
        cases m with
        | whole =>
          obtain ⟨⟨o', os'⟩, h, hf⟩ := Outcome.bind_eq_ok.mp hf
          cases hf
          exact congrArg Nat.succ (hrest h)
        | position i =>
          obtain ⟨term, -, hf⟩ := Outcome.bind_eq_ok.mp hf
          obtain ⟨next, -, hf⟩ := Outcome.bind_eq_ok.mp hf
          exact hrest hf
        | range r =>
          obtain ⟨next, os', h, rfl, -⟩ := frame_range_eq_ok hf
          exact congrArg Nat.succ (hrest h)

/-- The strides of a frame that is found lead to the same place as those of the
source. -/
theorem frame_eq_ok {offset o : Int} {ss os : List Int} (h : List.Forall₂ On ns maps)
    (hs : ss.length = ns.length) (hf : frame offset maps ss = .ok (o, os)) :
    ∀ ks, RowMajor.Within ks (extentsFrom maps ns) →
      offset + RowMajor.dot (sourceCoordinates maps ks) ss = o + RowMajor.dot ks os := by
  induction h generalizing offset ss os with
  | nil =>
    intro ks hk
    cases hk
    cases hf
    rfl
  | @cons n m ns maps hm _ ih =>
    cases ss with
    | nil => cases hs
    | cons s ss =>
      have hs' : ss.length = ns.length := Nat.succ.inj hs
      cases m with
      | position i =>
        obtain ⟨term, hterm, hf⟩ := Outcome.bind_eq_ok.mp hf
        obtain ⟨-, rfl⟩ := signed_eq_ok.mp hterm
        obtain ⟨next, hnext, hf⟩ := Outcome.bind_eq_ok.mp hf
        obtain ⟨-, rfl⟩ := signed_eq_ok.mp hnext
        intro ks hk
        rw [← ih hs' hf ks hk, sourceCoordinates, RowMajor.dot_cons]
        ring
      | whole =>
        obtain ⟨⟨o', os'⟩, hrest, hf⟩ := Outcome.bind_eq_ok.mp hf
        cases hf
        intro ks hk
        cases hk with
        | cons hkn hks =>
          have := ih hs' hrest _ hks
          simp only [sourceCoordinates, RowMajor.dot_cons]
          omega
      | range r =>
        obtain ⟨next, os', hrest, rfl, hnext⟩ := frame_range_eq_ok hf
        intro ks hk
        cases hk with
        | @cons k _ ks _ hkn hks =>
          rw [if_pos (Nat.zero_lt_of_lt hkn)] at hnext
          rw [hnext] at hrest
          have := ih hs' hrest _ hks
          calc offset + RowMajor.dot (sourceCoordinates (range r :: maps) (k :: ks)) (s :: ss)
              = offset + r.start * s + RowMajor.dot (sourceCoordinates maps ks) ss +
                  k * (r.step * s) := by
                rw [sourceCoordinates, RowMajor.dot_cons, SliceRange.On.cast_position hm hkn]
                ring
            _ = o + RowMajor.dot ks os' + k * (r.step * s) := by rw [this]
            _ = o + RowMajor.dot (k :: ks) (r.step * s :: os') := by
                rw [RowMajor.dot_cons]
                ring

/-- Coordinates and strides do not add up to more than the limits of buffers,
whether or not the axes before are counted. -/
def Near (offset : Int) (ns : List Nat) (ss : List Int) : Prop :=
  ∀ cs, RowMajor.Within cs ns →
    |offset + RowMajor.dot cs ss| ≤ maxElements ∧ |RowMajor.dot cs ss| ≤ maxElements

namespace Near

variable {offset s : Int} {n c : Nat} {ss : List Int}

theorem next (h : Near offset (n :: ns) (s :: ss)) (hc : c < n) : Near (offset + c * s) ns ss := by
  intro cs hcs
  have hsum := (h (c :: cs) (.cons hc hcs)).1
  have hrest := (h (0 :: cs) (.cons (Nat.zero_lt_of_lt hc) hcs)).2
  rw [RowMajor.dot_cons, ← Int.add_assoc] at hsum
  rw [RowMajor.dot_cons, Int.natCast_zero, Int.zero_mul, Int.zero_add] at hrest
  exact ⟨hsum, hrest⟩

theorem term (h : Near offset (n :: ns) (s :: ss)) (hz : RowMajor.size ns ≠ 0) (hc : c < n) :
    |offset + c * s| ≤ maxElements ∧ |(c * s : Int)| ≤ maxElements := by
  have hpos := RowMajor.within_coordinates (Nat.pos_of_ne_zero hz)
  have hterm := h (c :: RowMajor.coordinates ns 0) (.cons hc hpos)
  rwa [RowMajor.dot_cons, RowMajor.dot_coordinates_zero, Int.add_zero] at hterm

theorem signed_term (h : Near offset (n :: ns) (s :: ss)) (hz : RowMajor.size ns ≠ 0)
    (hc : c < n) : signed (offset + c * s) = .ok (offset + c * s) ∧
      signed (c * s) = .ok (c * s : Int) := by
  have hmax : maxElements < 2 ^ 60 := by decide
  obtain ⟨hsum, hterm⟩ := h.term hz hc
  rw [abs_le] at hsum hterm
  exact ⟨signed_of_mem (by omega) (by omega), signed_of_mem (by omega) (by omega)⟩

/-- The step of a slice to more than one position leads from one to the next, so
it is not too long. -/
theorem step (h : Near offset (n :: ns) (s :: ss)) (hz : RowMajor.size ns ≠ 0) {r : SliceRange}
    (hr : r.On n) (hlength : 1 < r.length) : signed (r.step * s) = .ok (r.step * s) := by
  have hmax : maxElements < 2 ^ 60 := by decide
  obtain ⟨-, hfirst⟩ := h.term hz (hr.position_lt (Nat.zero_lt_of_lt hlength))
  obtain ⟨-, hsecond⟩ := h.term hz (hr.position_lt hlength)
  rw [hr.cast_position (Nat.zero_lt_of_lt hlength), abs_le, Int.natCast_zero, Int.zero_mul,
    Int.add_zero] at hfirst
  rw [hr.cast_position hlength, abs_le, Int.natCast_one, Int.one_mul, Int.add_mul] at hsecond
  exact signed_of_mem (by omega) (by omega)

end Near

/-- A frame that is near is found, unless a slice to a single position has a
step that is too long for the stride. -/
theorem exists_frame {offset : Int} {ss : List Int} (h : List.Forall₂ On ns maps)
    (hs : ss.length = ns.length) (hz : RowMajor.size ns ≠ 0) (hnear : Near offset ns ss)
    (hlength : ∀ r, range r ∈ maps → r.length ≠ 0)
    (hstep : ∀ r s, (range r, s) ∈ maps.zip ss → r.length = 1 →
      signed (r.step * s) ≠ .error .overflow) :
    ∃ f, frame offset maps ss = .ok f := by
  induction h generalizing offset ss with
  | nil =>
    obtain rfl := List.eq_nil_of_length_eq_zero hs
    exact ⟨_, rfl⟩
  | @cons n m ns maps hm _ ih =>
    cases ss with
    | nil => cases hs
    | cons s ss =>
      rw [RowMajor.size, Nat.mul_ne_zero_iff] at hz
      rw [List.zip_cons_cons] at hstep
      have hrest := fun {c : Nat} (hc : c < n) => ih (Nat.succ.inj hs) hz.2 (hnear.next hc)
        (fun r hr => hlength r (List.mem_cons_of_mem _ hr))
        (fun r s hr => hstep r s (List.mem_cons_of_mem _ hr))
      cases m with
      | whole =>
        obtain ⟨f, hf⟩ := hrest (Nat.pos_of_ne_zero hz.1)
        rw [Int.natCast_zero, Int.zero_mul, Int.add_zero] at hf
        exact ⟨_, Outcome.bind_eq_ok.mpr ⟨f, hf, rfl⟩⟩
      | position i =>
        obtain ⟨hsum, hterm⟩ := hnear.signed_term hz.2 hm
        obtain ⟨f, hf⟩ := hrest hm
        exact ⟨f, Outcome.bind_eq_ok.mpr ⟨_, hterm, Outcome.bind_eq_ok.mpr ⟨_, hsum, hf⟩⟩⟩
      | range r =>
        have hpos : 0 < r.length := Nat.pos_of_ne_zero (hlength r List.mem_cons_self)
        have hfirst := SliceRange.On.cast_position hm hpos
        have hlt := SliceRange.On.position_lt hm hpos
        rw [Int.natCast_zero, Int.zero_mul, Int.add_zero] at hfirst
        obtain ⟨hsum, hstart⟩ := hnear.signed_term hz.2 hlt
        obtain ⟨f, hf⟩ := hrest hlt
        rw [hfirst] at hsum hstart hf
        have hstride : signed (r.step * s) = .ok (r.step * s) := by
          by_cases hone : r.length = 1
          · exact signed_of_ne_overflow (hstep r s List.mem_cons_self hone)
          · exact hnear.step hz.2 hm (by omega)
        refine ⟨(f.1, r.step * s :: f.2), ?_⟩
        rw [frame, if_pos hpos]
        refine Outcome.bind_eq_ok.mpr ⟨_, hstart, Outcome.bind_eq_ok.mpr ⟨_, hsum, ?_⟩⟩
        exact Outcome.bind_eq_ok.mpr ⟨_, hstride, Outcome.bind_eq_ok.mpr ⟨f, hf, rfl⟩⟩

/-- There is something to see where each slice has a position. -/
theorem size_extentsFrom_ne_zero (h : List.Forall₂ On ns maps) (hz : RowMajor.size ns ≠ 0)
    (hlength : ∀ r, range r ∈ maps → r.length ≠ 0) : RowMajor.size (extentsFrom maps ns) ≠ 0 := by
  induction h with
  | nil => exact hz
  | @cons n m ns maps _ _ ih =>
    rw [RowMajor.size, Nat.mul_ne_zero_iff] at hz
    have hrest := ih hz.2 fun r hr => hlength r (List.mem_cons_of_mem _ hr)
    cases m with
    | whole => exact Nat.mul_ne_zero hz.1 hrest
    | range r => exact Nat.mul_ne_zero (hlength r List.mem_cons_self) hrest
    | position i => exact hrest

/-- There is nothing to see where the source has nothing. -/
theorem size_ne_zero_of_extentsFrom (h : List.Forall₂ (fun n m => n < 2 ^ 63 → On n m) ns maps)
    (hz : RowMajor.size (extentsFrom maps ns) ≠ 0) : RowMajor.size ns ≠ 0 := by
  induction h with
  | nil => exact hz
  | @cons n m ns maps hm _ ih =>
    rw [RowMajor.size, Nat.mul_ne_zero_iff]
    cases m with
    | whole =>
      rw [extentsFrom, RowMajor.size, Nat.mul_ne_zero_iff] at hz
      exact ⟨hz.1, ih hz.2⟩
    | range r =>
      rw [extentsFrom, RowMajor.size, Nat.mul_ne_zero_iff] at hz
      refine ⟨?_, ih hz.2⟩
      rintro rfl
      have := SliceRange.On.length_le (hm (by omega))
      omega
    | position i =>
      refine ⟨?_, ih hz⟩
      rintro rfl
      exact Nat.not_lt_zero i (hm (by omega))

end Coordinates

/-! ### Shapes -/

section Shapes

variable {shape : Shape} {maps : List AxisMap}

theorem extentsFrom_fixed {ns : List Nat}
    (h : List.Forall₂ (fun d m => Fits d m) (ns.map Dim.fixed) maps) :
    extentsFrom maps ns = extents maps ∧ AxisMap.shape maps = .static (extents maps) := by
  induction ns generalizing maps with
  | nil => cases h; exact ⟨rfl, rfl⟩
  | cons n ns ih =>
    cases h with
    | @cons _ m _ maps hm hms =>
      cases m with
      | whole => exact absurd rfl hm.1
      | range r => exact ⟨by rw [extentsFrom, extents, (ih hms).1], rfl⟩
      | position i => exact ⟨(ih hms).1, rfl⟩

/-- The extents of the result are those of its shape. -/
theorem extentsFrom_withRows (h : List.Forall₂ (fun d m => Fits d m) shape.dims maps) (rows : Nat) :
    extentsFrom maps (shape.withRows rows) = (AxisMap.shape maps).withRows rows := by
  cases shape with
  | static ns =>
    rw [(extentsFrom_fixed h).2]
    exact (extentsFrom_fixed h).1
  | dynamic ns =>
    cases h with
    | @cons _ m _ maps hm hms =>
      obtain rfl : m = whole := hm
      show rows :: extentsFrom maps ns = rows :: extents maps
      rw [(extentsFrom_fixed hms).1]

theorem isDynamic_shape (h : List.Forall₂ (fun d m => Fits d m) shape.dims maps) :
    (AxisMap.shape maps).isDynamic = shape.isDynamic := by
  cases shape with
  | static ns => rw [(extentsFrom_fixed h).2]; rfl
  | dynamic ns =>
    cases h with
    | @cons _ m _ maps hm hms =>
      obtain rfl : m = whole := hm
      rfl

theorem shrinks (h : List.Forall₂ (fun d m => Fits d m) shape.dims maps) (rows : Nat) :
    List.Forall₂ Shrinks (shape.withRows rows) maps := by
  have hfixed : ∀ {ns : List Nat} {maps : List AxisMap},
      List.Forall₂ (fun d m => Fits d m) (ns.map Dim.fixed) maps → List.Forall₂ Shrinks ns maps := by
    intro ns maps h
    rw [List.forall₂_map_left_iff] at h
    exact h.imp fun _ _ hm => hm.2.1
  cases shape with
  | static ns => exact hfixed h
  | dynamic ns =>
    cases h with
    | @cons _ m _ maps hm hms =>
      obtain rfl : m = whole := hm
      exact .cons trivial (hfixed hms)

theorem promised_fixed {ns : List Nat}
    (h : List.Forall₂ (fun d m => Fits d m) (ns.map Dim.fixed) maps) :
    List.Forall₂ (fun n m => n < 2 ^ 63 → On n m) ns maps := by
  rw [List.forall₂_map_left_iff] at h
  exact h.imp fun _ _ hm => hm.2.2

theorem promised (h : List.Forall₂ (fun d m => Fits d m) shape.dims maps) (rows : Nat) :
    List.Forall₂ (fun n m => n < 2 ^ 63 → On n m) (shape.withRows rows) maps := by
  cases shape with
  | static ns => exact promised_fixed h
  | dynamic ns =>
    cases h with
    | @cons _ m _ maps hm hms =>
      obtain rfl : m = whole := hm
      exact .cons (fun _ => trivial) (promised_fixed hms)

theorem on_of_lt {ns : List Nat} (h : List.Forall₂ (fun n m => n < 2 ^ 63 → On n m) ns maps)
    (hlt : ∀ n ∈ ns, n < 2 ^ 63) : List.Forall₂ On ns maps := by
  induction h with
  | nil => exact .nil
  | cons hm _ ih =>
    rw [List.forall_mem_cons] at hlt
    exact .cons (hm hlt.1) (ih hlt.2)

/-- In a source that has elements and room for them, the maps keep to their
axes. -/
theorem on_of_room (h : List.Forall₂ (fun d m => Fits d m) shape.dims maps) {rows : Nat}
    (hz : shape.sizeWith rows ≠ 0) (hroom : shape.sizeWith rows ≤ maxElements) :
    List.Forall₂ On (shape.withRows rows) maps := by
  refine on_of_lt (promised h rows) fun n hn => ?_
  have := RowMajor.le_size hz hn
  unfold Shape.sizeWith at hroom
  unfold maxElements at hroom
  omega

end Shapes

end AxisMap

namespace BasicIndexing

variable {b : BasicIndexing} {rows : Nat}

/-- What is known of a basic selection from its construction. -/
structure Fits (b : BasicIndexing) : Prop where
  axes : List.Forall₂ (fun d m => AxisMap.Fits d m) b.sourceDescription.shape.dims b.axes
  strides : b.shape.strides = .ok b.strides
  sourceRow : b.sourceDescription.shape.countRow = .ok b.sourceRow

/-- The source position that a position of the result stands for. -/
def sourceOf (b : BasicIndexing) (k : Nat) : Nat :=
  RowMajor.flatten (AxisMap.sourceCoordinates b.axes (b.shape.coordinates k))
    b.sourceDescription.shape.weights

/-- The position at which a source position is meant to be seen, if it is. -/
def target? (b : BasicIndexing) (flat : Nat) : Option Nat :=
  AxisMap.target? b.axes (b.sourceDescription.shape.coordinates flat) b.shape.weights

/-- The updates of a source that are seen, at the positions where they are. -/
def renumbered (b : BasicIndexing) (diff : List (Update Binary64)) : List (Update Binary64) :=
  diff.filterMap fun u => (b.target? u.index).map u.moveTo

/-- Where a view of the result starts, and its strides, if a view of the source
starts and strides so. -/
def frame (b : BasicIndexing) (offset : Nat) (strides : List Int) :
    Except Fault (Nat × List Int) := do
  let (distance, strides) ← AxisMap.frame 0 b.axes strides
  let start ← signed (signedWord offset + distance)
  return (start.toNat, strides)

theorem Fits.strides_eq (h : b.Fits) : b.strides = b.shape.weights :=
  (Shape.strides_eq_ok.mp h.strides).2.symm

theorem Fits.sourceRow_eq (h : b.Fits) : b.sourceRow = b.sourceDescription.shape.rowSize :=
  (Shape.countRow_eq_ok.mp h.sourceRow).2.symm

theorem Fits.countRow (h : b.Fits) : b.shape.countRow = .ok b.shape.rowSize :=
  Shape.countRow_eq_ok.mpr ⟨(Shape.strides_eq_ok.mp h.strides).1.1, rfl⟩

/-- The dynamic axis is long enough for any position of an array. -/
theorem sourceCoordinates_eq {f : Nat} (hf : f < b.sourceDescription.shape.sizeWith rows)
    (hroom : b.sourceDescription.shape.sizeWith rows ≤ maxElements) :
    b.sourceCoordinates f = b.sourceDescription.shape.coordinates f := by
  have hmax : maxElements ≤ maxSize := by decide
  unfold sourceCoordinates
  cases hshape : b.sourceDescription.shape with
  | static ns =>
    rw [Shape.dims, List.map_map]
    exact congrArg (RowMajor.coordinates · f) (List.map_id ns)
  | dynamic ns =>
    rw [hshape] at hf hroom
    have hpos : 0 < RowMajor.size ns := by
      refine Nat.pos_of_ne_zero fun h0 => ?_
      rw [Shape.sizeWith, Shape.withRows, RowMajor.size, h0, Nat.mul_zero] at hf
      exact Nat.not_lt_zero f hf
    have hlong : f < maxSize * RowMajor.size ns := by
      have := Nat.le_mul_of_pos_right maxSize hpos
      omega
    rw [Shape.dims, List.map_cons, List.map_map]
    show RowMajor.coordinates (maxSize :: ns.map id) f = _
    rw [List.map_id]
    exact RowMajor.coordinates_cons hlong

theorem ofSelectors_fits {graph : Nat} {source : NodeId} {d : Description} {ss : List Selector}
    (h : ofSelectors graph source d ss = .ok b) :
    b.graph = graph ∧ b.source = source ∧ b.sourceDescription = d ∧ b.Fits := by
  obtain ⟨-, h⟩ := Outcome.guard_eq_ok.mp h
  obtain ⟨maps, hmaps, h⟩ := Outcome.bind_eq_ok.mp h
  obtain ⟨strides, hstrides, h⟩ := Outcome.bind_eq_ok.mp h
  obtain ⟨row, hrow, h⟩ := Outcome.bind_eq_ok.mp h
  obtain rfl := Except.ok.inj h
  exact ⟨rfl, rfl, rfl, AxisMap.ofSelectors_fits hmaps, Outcome.fault_eq_ok.mp hstrides,
    Outcome.fault_eq_ok.mp hrow⟩

theorem extentsFrom_withRows (h : b.Fits) (rows : Nat) :
    AxisMap.extentsFrom b.axes (b.sourceDescription.shape.withRows rows) = b.shape.withRows rows :=
  AxisMap.extentsFrom_withRows h.axes rows

/-- Nothing is gained from a source that has gained nothing. -/
theorem sizeDiff_zero (h : b.Fits) : b.sizeDiff 0 = .ok 0 := by
  have hzero : signed 0 = .ok 0 := signed_of_mem (by decide) (by decide)
  unfold sizeDiff
  rw [Int.zero_tdiv, hzero, Outcome.ok_bind, h.countRow, Outcome.ok_bind, Int.zero_mul, hzero]

/-- A translated diff has no records but those of the diff, moved. -/
theorem exists_of_mem_translateDiff {diff translated : List (Update Binary64)}
    (h : b.translateDiff diff = .ok translated) {u : Update Binary64} (hu : u ∈ translated) :
    ∃ w ∈ diff, ∃ k, u = w.moveTo k := by
  induction diff generalizing translated with
  | nil =>
    obtain rfl := Except.ok.inj h
    cases hu
  | cons w diff ih =>
    have hrest : ∀ {translated}, b.translateDiff diff = .ok translated → u ∈ translated →
        ∃ w' ∈ w :: diff, ∃ k, u = w'.moveTo k := by
      intro translated h hu
      obtain ⟨w', hw', hk⟩ := ih h hu
      exact ⟨w', List.mem_cons_of_mem _ hw', hk⟩
    obtain ⟨found, -, h⟩ := Outcome.bind_eq_ok.mp h
    cases found with
    | none => exact hrest h hu
    | some k =>
      obtain ⟨translated', h', rfl⟩ := Outcome.map_eq_ok.mp h
      rcases List.mem_cons.mp hu with rfl | hu
      · exact ⟨w, List.mem_cons_self, k, rfl⟩
      · exact hrest h' hu

/-- A record of a position that is seen has its place in the translated diff. -/
theorem mem_of_translateDiff {diff translated : List (Update Binary64)}
    (h : b.translateDiff diff = .ok translated) {u : Update Binary64} (hu : u ∈ diff) {k : Nat}
    (hk : b.translate? u.index = .ok (some k)) : u.moveTo k ∈ translated := by
  induction diff generalizing translated with
  | nil => cases hu
  | cons w diff ih =>
    obtain ⟨seen, hseen, h⟩ := Outcome.bind_eq_ok.mp h
    rcases List.mem_cons.mp hu with rfl | hu
    · obtain rfl := Except.ok.inj (hseen.symm.trans hk)
      obtain ⟨rest, -, rfl⟩ := Outcome.map_eq_ok.mp h
      exact List.mem_cons_self
    · cases seen with
      | none => exact ih h hu
      | some i =>
        obtain ⟨rest, hrest, rfl⟩ := Outcome.map_eq_ok.mp h
        exact List.mem_cons_of_mem _ (ih hrest hu)

theorem isDynamic_shape (h : b.Fits) :
    b.shape.isDynamic = b.sourceDescription.shape.isDynamic := AxisMap.isDynamic_shape h.axes

theorem sizeWith_source_ne_zero (h : b.Fits) (hz : b.shape.sizeWith rows ≠ 0) :
    b.sourceDescription.shape.sizeWith rows ≠ 0 := by
  refine AxisMap.size_ne_zero_of_extentsFrom (AxisMap.promised h.axes rows) ?_
  rw [extentsFrom_withRows h]
  exact hz

/-- Where the rows of the result have elements, those of the source have. -/
theorem rowSize_source_ne_zero (h : b.Fits) (hdyn : b.shape.isDynamic = true)
    (hz : b.shape.rowSize ≠ 0) : b.sourceDescription.shape.rowSize ≠ 0 := by
  have hone : b.shape.sizeWith 1 ≠ 0 := by
    rwa [Shape.sizeWith_of_isDynamic hdyn, Nat.one_mul]
  have hsource := sizeWith_source_ne_zero h hone
  rwa [Shape.sizeWith_of_isDynamic (isDynamic_shape h ▸ hdyn), Nat.one_mul] at hsource

/-- The result shows as many rows as the source. -/
theorem shows_withRows (h : b.Fits) {m rows : Nat}
    (hsource : b.sourceDescription.shape.Shows rows (b.sourceDescription.shape.withRows m)) :
    b.shape.Shows rows (b.shape.withRows m) :=
  ⟨m, rfl, fun hdyn hz =>
    hsource.rows_eq (isDynamic_shape h ▸ hdyn) (rowSize_source_ne_zero h hdyn hz)⟩

/-- The result has no more elements than the source. -/
theorem sizeWith_le (h : b.Fits) (rows : Nat) :
    b.shape.sizeWith rows ≤ b.sourceDescription.shape.sizeWith rows := by
  have := AxisMap.size_extentsFrom_le (AxisMap.shrinks h.axes rows)
  rwa [extentsFrom_withRows h] at this

/-- The elements of the result are counted where those of the source are. -/
theorem countsFrom_withRows (h : b.Fits)
    (hc : RowMajor.CountsFrom 1 (b.sourceDescription.shape.withRows rows)) :
    RowMajor.CountsFrom 1 (b.shape.withRows rows) := by
  have := AxisMap.countsFrom_extentsFrom (AxisMap.shrinks h.axes rows) hc (Nat.le_refl 1)
  rwa [extentsFrom_withRows h] at this

/-- A result that does not grow and shrink with its source keeps its size. -/
theorem sizeWith_of_not_resizes (h : b.Fits) (hr : b.resizes = false) (rows rows' : Nat) :
    b.shape.sizeWith rows = b.shape.sizeWith rows' := by
  refine Shape.sizeWith_of_not_resizing (fun hd => ?_) rows rows'
  rw [resizes, hd, h.sourceRow_eq, Bool.true_and, bne_eq_false_iff_eq] at hr
  by_contra hz
  refine @sizeWith_source_ne_zero b 1 h ?_ ?_
  · rwa [Shape.sizeWith_of_isDynamic hd, Nat.one_mul]
  · rw [Shape.sizeWith_of_isDynamic ((isDynamic_shape h).symm.trans hd), hr]

/-- The change in size, counted in rows, is the difference of the sizes. -/
theorem sizeDiff_eq (h : b.Fits) (hr : b.resizes = true) {before after : Nat}
    (hbefore : b.sourceDescription.shape.sizeWith before ≤ maxElements)
    (hafter : b.sourceDescription.shape.sizeWith after ≤ maxElements) :
    b.sizeDiff (b.sourceDescription.shape.sizeWith after -
        b.sourceDescription.shape.sizeWith before : Int) =
      .ok (b.shape.sizeWith after - b.shape.sizeWith before : Int) := by
  have hmax : maxElements < 2 ^ 60 := by decide
  obtain ⟨hd, hz⟩ := Bool.and_eq_true_iff.mp hr
  have hkind := (isDynamic_shape h).symm.trans hd
  have hrow : b.sourceDescription.shape.rowSize ≠ 0 := by
    rw [← h.sourceRow_eq]
    exact bne_iff_ne.mp hz
  have hle := sizeWith_le h before
  have hle' := sizeWith_le h after
  rw [sizeDiff, h.countRow, h.sourceRow_eq]
  simp only [Shape.sizeWith_of_isDynamic hd, Shape.sizeWith_of_isDynamic hkind] at *
  generalize b.sourceDescription.shape.rowSize = n at *
  generalize b.shape.rowSize = m at *
  have hrows := Nat.le_mul_of_pos_right before (Nat.pos_of_ne_zero hrow)
  have hrows' := Nat.le_mul_of_pos_right after (Nat.pos_of_ne_zero hrow)
  by_cases hsmall : before = 0 ∧ after = 0
  · -- a row may be longer than a word has a sign for, as long as there is none
    obtain ⟨rfl, rfl⟩ := hsmall
    simp only [Nat.zero_mul, Int.natCast_zero, Int.sub_self, Int.zero_tdiv]
    rw [signed_of_mem (by omega) (by omega), Outcome.ok_bind, Outcome.ok_bind, Int.zero_mul,
      signed_of_mem (by omega) (by omega)]
  · have hn : n ≤ before * n ∨ n ≤ after * n := by
      rcases Nat.eq_zero_or_pos before with h0 | hpos
      · exact .inr (Nat.le_mul_of_pos_left _ (by omega))
      · exact .inl (Nat.le_mul_of_pos_left _ hpos)
    have hm : m ≤ before * m ∨ m ≤ after * m := by
      rcases Nat.eq_zero_or_pos before with h0 | hpos
      · exact .inr (Nat.le_mul_of_pos_left _ (by omega))
      · exact .inl (Nat.le_mul_of_pos_left _ hpos)
    have hdiff : ((after * n : Nat) : Int) - (before * n : Nat) = ((after : Int) - before) * n := by
      push_cast
      ring
    have hdiff' : ((after : Int) - before) * m = ((after * m : Nat) : Int) - (before * m : Nat) := by
      push_cast
      ring
    rw [signedWord_of_lt (show n < 1 <<< 63 by omega), hdiff, Int.mul_tdiv_cancel _ (by omega),
      signed_of_mem (by omega) (by omega), Outcome.ok_bind, Outcome.ok_bind,
      signedWord_of_lt (show m < 1 <<< 63 by omega), hdiff',
      signed_of_mem (by omega) (by omega)]

/-- Nothing but an overflow can happen to a frame. -/
theorem frame_eq_error {offset : Nat} {strides : List Int} {f : Fault}
    (h : b.frame offset strides = .error f) : f = .overflow := by
  rcases Outcome.bind_eq_error.mp h with h | ⟨_, -, h⟩
  · exact AxisMap.frame_eq_error h
  rcases Outcome.bind_eq_error.mp h with h | ⟨_, -, h⟩
  · exact (signed_eq_error.mp h).2
  · cases h

/-- A view of the result is one of the buffer of the source. -/
theorem data_of_view {v w : View} (h : b.view v = .ok w) : w.data = v.data := by
  obtain ⟨parts, -, h⟩ := Outcome.bind_eq_ok.mp h
  obtain ⟨_, -, -, rfl⟩ := View.restride_eq_ok.mp h
  rfl

/-- A view that is not found overflows, or it starts before the buffer. -/
theorem view_eq_error {v : View} (hlen : b.axes.length = v.extents.length)
    (hs : v.strides.length = v.extents.length) {f : Fault} (h : b.view v = .error f) :
    f = .overflow ∨ f = .negativeStart := by
  rcases Outcome.bind_eq_error.mp h with h | ⟨parts, -, h⟩
  · rw [AxisMap.restride_eq hlen hs, Outcome.map_eq_error] at h
    exact .inl (AxisMap.frame_eq_error h)
  rcases Outcome.bind_eq_error.mp h with h | ⟨start, -, h⟩
  · exact .inl (signed_eq_error.mp h).2
  rcases Outcome.guard_eq_error.mp h with ⟨-, h⟩ | ⟨-, h⟩
  · exact .inr h.symm
  rcases Outcome.bind_eq_error.mp h with h | ⟨_, -, h⟩
  · rw [View.runsOn_eq, Outcome.if_eq_error] at h
    exact .inl h.2.symm
  · cases h

section Positions

variable (h : b.Fits) (hroom : b.sourceDescription.shape.sizeWith rows ≤ maxElements)
include h hroom

theorem on_of_nonempty {f : Nat} (hf : f < b.sourceDescription.shape.sizeWith rows) :
    List.Forall₂ AxisMap.On (b.sourceDescription.shape.withRows rows) b.axes :=
  AxisMap.on_of_room h.axes (Nat.ne_zero_of_lt hf) hroom

omit hroom in
theorem within_coordinates {k : Nat} (hk : k < b.shape.sizeWith rows) :
    RowMajor.Within (b.shape.coordinates k)
      (AxisMap.extentsFrom b.axes (b.sourceDescription.shape.withRows rows)) := by
  rw [extentsFrom_withRows h, ← Shape.coordinates_withRows hk]
  exact RowMajor.within_coordinates hk

theorem within_sourceOf {k : Nat} (hk : k < b.shape.sizeWith rows) :
    RowMajor.Within (AxisMap.sourceCoordinates b.axes (b.shape.coordinates k))
      (b.sourceDescription.shape.withRows rows) :=
  AxisMap.within_sourceCoordinates
    (on_of_nonempty h hroom (Nat.lt_of_lt_of_le hk (sizeWith_le h rows)))
    (within_coordinates h hk)

theorem sourceOf_lt {k : Nat} (hk : k < b.shape.sizeWith rows) :
    b.sourceOf k < b.sourceDescription.shape.sizeWith rows := by
  rw [sourceOf, ← Shape.weights_withRows _ rows]
  exact RowMajor.flatten_lt (within_sourceOf h hroom hk)

theorem coordinates_sourceOf {k : Nat} (hk : k < b.shape.sizeWith rows) :
    RowMajor.coordinates (b.sourceDescription.shape.withRows rows) (b.sourceOf k) =
      AxisMap.sourceCoordinates b.axes (b.shape.coordinates k) := by
  rw [sourceOf, ← Shape.weights_withRows _ rows]
  exact RowMajor.coordinates_flatten (within_sourceOf h hroom hk)

/-- As long as there is room for the source, translating does not overflow. -/
theorem translate?_eq {f : Nat} (hf : f < b.sourceDescription.shape.sizeWith rows) :
    b.translate? f = .ok (b.target? f) := by
  have hmax : maxElements < 2 ^ 60 := by decide
  have hw := RowMajor.within_coordinates hf
  rw [Shape.coordinates_withRows hf] at hw
  rw [translate?, target?, sourceCoordinates_eq hf hroom, h.strides_eq,
    ← Shape.weights_withRows _ rows, ← extentsFrom_withRows h,
    AxisMap.translate?_eq (on_of_nonempty h hroom hf) hw (by
      show 0 + b.sourceDescription.shape.sizeWith rows ≤ _
      omega)]
  simp only [Nat.zero_add, Option.map_id']

/-- **Translating finds the position again.** -/
theorem target?_sourceOf {k : Nat} (hk : k < b.shape.sizeWith rows) :
    b.target? (b.sourceOf k) = some k := by
  have hlt := sourceOf_lt h hroom hk
  have hw := within_coordinates h hk
  rw [target?, ← Shape.coordinates_withRows hlt, coordinates_sourceOf h hroom hk,
    ← Shape.weights_withRows _ rows]
  rw [AxisMap.target?_sourceCoordinates (on_of_nonempty h hroom hlt) hw,
    ← Shape.coordinates_withRows hk]
  · exact congrArg some (RowMajor.flatten_coordinates hk)
  · rw [RowMajor.length_weights, hw.length_eq, extentsFrom_withRows h]

/-- **Translating finds nothing else.** -/
theorem sourceOf_of_target? {f k : Nat} (hf : f < b.sourceDescription.shape.sizeWith rows)
    (hk : b.target? f = some k) : k < b.shape.sizeWith rows ∧ b.sourceOf k = f := by
  have hon := on_of_nonempty h hroom hf
  have hc := RowMajor.within_coordinates hf
  rw [target?, ← Shape.coordinates_withRows hf, ← Shape.weights_withRows _ rows] at hk
  obtain ⟨ks, hw, hsrc, hflat⟩ := AxisMap.exists_of_target? hon hc (by
    rw [RowMajor.length_weights, extentsFrom_withRows h]) hk
  rw [extentsFrom_withRows h] at hw
  have hlt : k < b.shape.sizeWith rows := hflat ▸ RowMajor.flatten_lt hw
  have hcoord : RowMajor.coordinates (b.shape.withRows rows) k = ks :=
    hflat ▸ RowMajor.coordinates_flatten hw
  refine ⟨hlt, ?_⟩
  rw [sourceOf, ← Shape.coordinates_withRows hlt, hcoord, hsrc, ← Shape.weights_withRows _ rows]
  exact RowMajor.flatten_coordinates hf

omit hroom in
/-- A diff of the source is renumbered without an overflow, if its positions
are ones that the source can have. -/
theorem translateDiff_eq {diff : List (Update Binary64)}
    (hdiff : ∀ u ∈ diff, b.sourceDescription.shape.Reaches u.index) :
    b.translateDiff diff = .ok (b.renumbered diff) := by
  induction diff with
  | nil => rfl
  | cons u diff ih =>
    obtain ⟨⟨rows, hlt, hroom⟩, hdiff⟩ := List.forall_mem_cons.mp hdiff
    rw [translateDiff, translate?_eq h hroom hlt, Outcome.ok_bind, ih hdiff]
    simp only [renumbered, List.filterMap_cons]
    cases b.target? u.index <;> rfl

/-! ### The view of the result -/

variable {v : View} (hv : v.Regular) (he : v.extents = b.sourceDescription.shape.withRows rows)
include hv he

omit hroom in
/-- Where a result has elements, its source does not start far behind the
buffer's start. -/
theorem signedWord_offset (hz : b.shape.sizeWith rows ≠ 0) : signedWord v.offset = v.offset := by
  have hsource := sizeWith_source_ne_zero h hz
  have hsize : v.size = b.sourceDescription.shape.sizeWith rows := congrArg RowMajor.size he
  exact signedWord_of_lt (hv.offset_lt (hsize ▸ hsource))

section Frame

variable {distance : Int} {strides : List Int}
  (hf : AxisMap.frame 0 b.axes v.strides = .ok (distance, strides))
include hf

omit hroom in
theorem length_strides_frame : strides.length = (b.shape.withRows rows).length := by
  rw [← extentsFrom_withRows h]
  refine AxisMap.length_frame ?_ ?_ hf
  · rw [← (AxisMap.shrinks h.axes rows).length_eq]
  · rw [hv.length_strides, he]

/-- The strides of the frame lead to the place in the source. -/
theorem dot_frame {k : Nat} (hk : k < b.shape.sizeWith rows) :
    v.offset + distance + RowMajor.dot (RowMajor.coordinates (b.shape.withRows rows) k) strides =
      v.position (b.sourceOf k) := by
  have hsize : v.size = b.sourceDescription.shape.sizeWith rows := congrArg RowMajor.size he
  have hlt := sourceOf_lt h hroom hk
  have hdot := AxisMap.frame_eq_ok (on_of_nonempty h hroom hlt) (by rw [hv.length_strides, he]) hf _
    (within_coordinates h hk)
  rw [hv.strided _ (hsize ▸ hlt), he, coordinates_sourceOf h hroom hk, Shape.coordinates_withRows hk]
  omega

/-- A view with elements does not start before the buffer. -/
theorem start_nonneg (hz : b.shape.sizeWith rows ≠ 0) : 0 ≤ v.offset + distance := by
  have hpos : 0 < b.shape.sizeWith rows := Nat.pos_of_ne_zero hz
  have hsize : v.size = b.sourceDescription.shape.sizeWith rows := congrArg RowMajor.size he
  have hfirst := (hv.readable.inside _ (hsize ▸ sourceOf_lt h hroom hpos)).1
  rwa [← dot_frame h hroom hv he hf hpos, RowMajor.dot_coordinates_zero, Int.add_zero] at hfirst

end Frame

/-- The view of the result is found where its frame is. -/
theorem view_eq : b.view v =
    (fun f => v.movedTo f.1 (b.shape.withRows rows) f.2) <$> b.frame v.offset v.strides := by
  have hmax : maxElements < 2 ^ 60 := by decide
  have hle := sizeWith_le h rows
  have hmaps : b.axes.length = v.extents.length := by
    rw [he, ← (AxisMap.shrinks h.axes rows).length_eq]
  have hextents : AxisMap.extentsFrom b.axes v.extents = b.shape.withRows rows := by
    rw [he, extentsFrom_withRows h]
  have hview : b.view v = (AxisMap.frame 0 b.axes v.strides >>= fun f =>
      v.restride f.1 (b.shape.withRows rows) f.2) := by
    rw [view, AxisMap.restride_eq hmaps hv.length_strides, hextents, bind_map_left]
  cases hframe : AxisMap.frame 0 b.axes v.strides with
  | error f =>
    have hf : b.frame v.offset v.strides = .error f := Outcome.bind_eq_error.mpr (.inl hframe)
    rw [hview, hf, hframe]
    rfl
  | ok f =>
    obtain ⟨distance, ss⟩ := f
    rw [hview, hframe, Outcome.ok_bind]
    cases hplace : signed (signedWord v.offset + distance) with
    | error f =>
      have hf : b.frame v.offset v.strides = .error f :=
        Outcome.bind_eq_error.mpr (.inr ⟨_, hframe, Outcome.bind_eq_error.mpr (.inl hplace)⟩)
      rw [hf]
      exact Outcome.bind_eq_error.mpr (.inl hplace)
    | ok place =>
      have hf : b.frame v.offset v.strides = .ok (place.toNat, ss) :=
        Outcome.bind_eq_ok.mpr ⟨_, hframe, Outcome.bind_eq_ok.mpr ⟨_, hplace, rfl⟩⟩
      rw [hf]
      refine View.restride_eq_ok.mpr ⟨place, hplace, ?_, rfl⟩
      by_cases h0 : (b.shape.withRows rows).contains 0 = true
      · exact .inl h0
      · have hnz : b.shape.sizeWith rows ≠ 0 := RowMajor.size_ne_zero.mpr fun n hn h0' =>
          h0 (List.contains_iff_mem.mpr (h0' ▸ hn))
        rw [signedWord_offset h hv he hnz] at hplace
        obtain ⟨-, rfl⟩ := signed_eq_ok.mp hplace
        exact .inr ⟨start_nonneg h hroom hv he hframe hnz,
          RowMajor.laysOut_of_size hnz (Nat.lt_of_le_of_lt (Nat.le_trans hle hroom) (by omega))⟩

/-- **The view reads what it stands for.** -/
theorem view_spec {w : View} (hw : b.view v = .ok w) :
    w.extents = b.shape.withRows rows ∧ w.Regular ∧
      (∀ k < b.shape.sizeWith rows, w.position k = v.position (b.sourceOf k)) ∧
      ∀ k < b.shape.sizeWith rows, w.cell k = v.cell (b.sourceOf k) := by
  have hmax : maxElements < 2 ^ 60 := by decide
  have hle := sizeWith_le h rows
  rw [view_eq h hroom hv he] at hw
  obtain ⟨⟨start, ss⟩, hf, rfl⟩ := Outcome.map_eq_ok.mp hw
  obtain ⟨⟨distance, ss'⟩, hframe, hf⟩ := Outcome.bind_eq_ok.mp hf
  obtain ⟨place, hplace, hf⟩ := Outcome.bind_eq_ok.mp hf
  obtain ⟨rfl, rfl⟩ := Prod.mk.inj (Except.ok.inj hf)
  have hlen := length_strides_frame h hv he hframe
  have hsize : v.size = b.sourceDescription.shape.sizeWith rows := congrArg RowMajor.size he
  have hposition : ∀ k < b.shape.sizeWith rows,
      (v.movedTo place.toNat (b.shape.withRows rows) ss').position k = v.position (b.sourceOf k) := by
    intro k hk
    have hz := Nat.ne_zero_of_lt hk
    rw [signedWord_offset h hv he hz] at hplace
    obtain ⟨-, rfl⟩ := signed_eq_ok.mp hplace
    rw [View.movedTo_position hlen (Nat.lt_of_le_of_lt (Nat.le_trans hle hroom) (by omega)) hk,
      Int.toNat_of_nonneg (start_nonneg h hroom hv he hframe hz)]
    exact dot_frame h hroom hv he hframe hk
  have hsource := fun k (hk : k < b.shape.sizeWith rows) => hsize ▸ sourceOf_lt h hroom hk
  refine ⟨rfl, ⟨⟨?_, ?_, Nat.le_trans hle hroom, hlen⟩, ?_⟩, hposition, ?_⟩
  · intro k hk
    rw [hposition k hk]
    exact hv.readable.inside _ (hsource k hk)
  · intro k hk
    rw [hposition k hk]
    exact hv.readable.near _ (hsource k hk)
  · exact (v.movedTo_flagged place.toNat hlen).strided
      (Nat.lt_of_le_of_lt (Nat.le_trans hle hroom) (by omega))
  · intro k hk
    rw [View.cell, hposition k hk]
    rfl

end Positions

end BasicIndexing
end ArrayFlow
