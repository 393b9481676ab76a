import ArrayFlow.Proofs.Exact
import ArrayFlow.Proofs.VariableHistory

/-!
# Integers in their bounds

The bounds of an integer variable are integers, but numbers are compared with
them after rounding.  So what is admitted are the integers between the rounded
bounds (`IntegerVariable.admits_iff`).  No integer that is a number is lost by
this, as none lies between a bound and its rounding (`IsIntegerIn.rounded`).
But where a bound is rounded to an integer outside, that one is admitted as
well.  So the bounds are kept if and only if rounding leads **inward**
(`IntegerVariable.roundsInward_iff`), as it does up to `2 ^ 53`
(`IntegerVariable.roundsInward_of_natAbs_le`).

Whatever is done with a graph, the elements of an integer variable are such
integers (`Graph.Reached.integers_between`).  Where rounding leads outward, the
default value itself can lie below the lower bound (`Graph.default_below_bound`).
-/

namespace ArrayFlow
namespace Binary64

variable {x : Binary64} {lower upper : Int}

/-- The number is an integer from `lower` to `upper`. -/
def IsIntegerIn (lower upper : Int) (x : Binary64) : Prop :=
  ∃ k : Int, x.rational? = some (k : ℚ) ∧ lower ≤ k ∧ k ≤ upper

/-- The integers between rounded bounds are the whole numbers between the
numbers to which the bounds are rounded. -/
theorem isIntegerIn_rounded_iff : x.IsIntegerIn (rounded lower) (rounded upper) ↔
    x.isWhole = true ∧ ofInt lower ≤ x ∧ x ≤ ofInt upper := by
  constructor
  · rintro ⟨k, hk, hlo, hhi⟩
    exact ⟨isWhole_iff_exists.mpr ⟨k, hk⟩, (ofInt_le_iff hk).mpr hlo, (le_ofInt_iff hk).mpr hhi⟩
  · rintro ⟨hwhole, hlo, hhi⟩
    obtain ⟨k, hk⟩ := isWhole_iff_exists.mp hwhole
    exact ⟨k, hk, (ofInt_le_iff hk).mp hlo, (le_ofInt_iff hk).mp hhi⟩

/-- **Rounding the bounds loses no number.** -/
theorem IsIntegerIn.rounded (h : x.IsIntegerIn lower upper) :
    x.IsIntegerIn (rounded lower) (rounded upper) := by
  obtain ⟨k, hk, hlo, hhi⟩ := h
  exact ⟨k, hk, rounded_le hk hlo, le_rounded hk hhi⟩

theorem IsIntegerIn.mono {lower' upper' : Int} (h : x.IsIntegerIn lower upper)
    (hlo : lower' ≤ lower) (hhi : upper ≤ upper') : x.IsIntegerIn lower' upper' := by
  obtain ⟨k, hk, hle, hge⟩ := h
  exact ⟨k, hk, Int.le_trans hlo hle, Int.le_trans hge hhi⟩

end Binary64

namespace IntegerVariable

open Binary64 (rounded)

variable {v : IntegerVariable} {x : Binary64}

/-- **What is admitted**: the integers between the rounded bounds. -/
theorem admits_iff : v.admits x = true ↔ x.IsIntegerIn (rounded v.lower) (rounded v.upper) := by
  rw [Binary64.isIntegerIn_rounded_iff]
  constructor
  · intro h
    obtain ⟨hlo, hhi⟩ := between_of_admits h
    simp only [admits, Bool.and_eq_true] at h
    exact ⟨h.1.1, hlo, hhi⟩
  · rintro ⟨hwhole, hlo, hhi⟩
    have hlower : ¬ x < v.min := Binary64.not_lt_of_le hlo
    have hupper : ¬ v.max < x := Binary64.not_lt_of_le hhi
    simp [admits, hwhole, hlower, hupper]

theorem eq_of_ofBounds {extents : List Nat} {lower upper : Int}
    (h : ofBounds extents lower upper = .ok v) :
    v.extents = extents ∧ v.lower = lower ∧ v.upper = upper := by
  unfold ofBounds at h
  split at h
  · obtain rfl := Except.ok.inj h
    exact ⟨rfl, rfl, rfl⟩
  · cases h

/-- An element is set if it exists and the value is admitted. -/
theorem edit_set_eq_ok {j j' : Journal Binary64} {i : Nat} (hcount : v.count = .ok v.size) :
    v.edit (.set i x) j = .ok () j' ↔ i < v.size ∧ v.admits x = true ∧ j' = j.set i x := by
  constructor
  · intro h
    cases hindex : v.checkIndex i with
    | error f => simp [edit, hindex] at h
    | ok u =>
      cases hvalue : v.checkValue x with
      | error r => simp [edit, hindex, hvalue] at h
      | ok u =>
        simp only [edit, hindex, hvalue] at h
        cases h
        exact ⟨(checkIndex_eq_ok.mp hindex).2, checkValue_eq_ok.mp hvalue, rfl⟩
  · rintro ⟨hi, hx, rfl⟩
    have hindex := checkIndex_eq_ok.mpr ⟨hcount, hi⟩
    have hvalue := checkValue_eq_ok.mpr hx
    simp [edit, hindex, hvalue]

/-- A buffer with elements can be looked at; one without overflows if its
strides are too large. -/
theorem bufferView_outcome {values : Array Binary64} (h : v.count = .ok values.size) :
    Graph.bufferView (.static v.extents) values = .ok (.ofArray values v.extents) ∨
      v.size = 0 ∧ Graph.bufferView (.static v.extents) values = .error .overflow := by
  obtain ⟨hcounts, hsize⟩ := count_eq_ok.mp h
  cases hview : Graph.bufferView (.static v.extents) values with
  | ok w =>
    obtain ⟨-, rfl⟩ := frame_of_bufferView hview
    exact .inl rfl
  | error f =>
    obtain rfl := bufferView_eq_error hview
    refine .inr ⟨?_, rfl⟩
    by_contra hz
    have hlt : v.size < 2 ^ 64 := by
      have hlt := hcounts.size_lt (by decide)
      rwa [Nat.one_mul] at hlt
    obtain ⟨-, -, hlays⟩ := @Shape.words_of_size (.static v.extents) 0 hz hlt
    cases hview.symm.trans (bufferView_eq hlays hlt)

/-- Neither bound is rounded to an integer outside. -/
def RoundsInward (v : IntegerVariable) : Prop :=
  v.lower ≤ rounded v.lower ∧ rounded v.upper ≤ v.upper

/-- **When the bounds are kept.**  A bound that is rounded to an integer
outside is rounded to one that is admitted. -/
theorem roundsInward_iff (hlower : -(2 ^ 63) ≤ v.lower) (hupper : v.upper < 2 ^ 63) :
    v.RoundsInward ↔ ∀ x, v.admits x = true → x.IsIntegerIn v.lower v.upper := by
  have hle := v.lower_le_upper
  have hrounded := Binary64.rounded_mono hle
  constructor
  · intro h x hx
    exact (admits_iff.mp hx).mono h.1 h.2
  · intro h
    have hlo := Binary64.rational?_ofInt (k := v.lower) (by omega)
    have hhi := Binary64.rational?_ofInt (k := v.upper) (by omega)
    obtain ⟨k, hk, hge, -⟩ := h _ (admits_iff.mpr ⟨_, hlo, Int.le_refl _, hrounded⟩)
    obtain ⟨l, hl, -, hle⟩ := h _ (admits_iff.mpr ⟨_, hhi, hrounded, Int.le_refl _⟩)
    rw [hlo, Option.some.injEq, Int.cast_inj] at hk
    rw [hhi, Option.some.injEq, Int.cast_inj] at hl
    exact ⟨hk ▸ hge, hl ▸ hle⟩

theorem roundsInward_of_natAbs_le (hlower : v.lower.natAbs ≤ 2 ^ 53)
    (hupper : v.upper.natAbs ≤ 2 ^ 53) : v.RoundsInward := by
  rw [RoundsInward, Binary64.rounded_of_natAbs_le hlower, Binary64.rounded_of_natAbs_le hupper]
  exact ⟨Int.le_refl _, Int.le_refl _⟩

end IntegerVariable

namespace Graph

open Binary64 (rounded)

variable {g : Graph} {s : State} {id : NodeId} {v : IntegerVariable} {extents : List Nat}
  {lower upper : Int}

/-- An element can be set if it exists and the value is admitted. -/
theorem Sound.edit_set_iff (hs : g.Sound s) (hn : g.nodes[id]? = some (.leaf (.integer v)))
    {j : Journal Binary64} (hslot : s.slot? id = some (.contents (.values j))) {i : Nat}
    {x : Binary64} (hcount : v.count = .ok v.size) :
    (∃ s', g.edit id (.integer (.set i x)) s = .ok () s') ↔ i < v.size ∧ v.admits x = true := by
  have hedits : ∀ s', g.edit id (.integer (.set i x)) s = .ok () s' ↔
      ∃ c', (Variable.integer v).edit id (.integer (.set i x)) (.values j) = .ok () c' ∧
        s' = s.put id (.contents c') :=
    fun s' => hs.edit_leaf_eq_ok hn hslot rfl
  constructor
  · rintro ⟨s', h⟩
    obtain ⟨c', hedit, -⟩ := (hedits s').mp h
    obtain ⟨j', hj', -⟩ := Outcome.putBack_eq_ok.mp hedit
    obtain ⟨hindex, hvalue, -⟩ := (IntegerVariable.edit_set_eq_ok hcount).mp hj'
    exact ⟨hindex, hvalue⟩
  · rintro ⟨hindex, hvalue⟩
    have hedit := (IntegerVariable.edit_set_eq_ok (j := j) hcount).mpr ⟨hindex, hvalue, rfl⟩
    exact ⟨_, (hedits _).mpr ⟨_, Outcome.putBack_eq_ok.mpr ⟨_, hedit, rfl⟩, rfl⟩⟩

/-- **Integers in their bounds.**  Whatever calls were made, the elements of an
integer variable are integers between the rounded bounds, and between the
bounds themselves if these are rounded inward; and an element can be set to the
integers between the rounded bounds, among which are all numbers that are
integers between the bounds.  Only a variable without elements may overflow when
it is looked at. -/
theorem Reached.integers_between (h : g.Reached s)
    (hof : IntegerVariable.ofBounds extents lower upper = .ok v) (hlower : -(2 ^ 63) ≤ lower)
    (hupper : upper < 2 ^ 63) (hn : g.nodes[id]? = some (.leaf (.integer v)))
    (hinit : s.isInitialized id = true) :
    ((∃ w xs, g.view s id = .ok w ∧ w.toList = .ok xs ∧ xs.length = RowMajor.size extents ∧
      ∀ x ∈ xs, x.IsIntegerIn (rounded lower) (rounded upper) ∧
        (v.RoundsInward → x.IsIntegerIn lower upper)) ∨
      RowMajor.size extents = 0 ∧ g.view s id = .error (.fault .overflow)) ∧
    ∀ i < RowMajor.size extents, ∀ x,
      ((∃ s', g.edit id (.integer (.set i x)) s = .ok () s') ↔
        x.IsIntegerIn (rounded lower) (rounded upper)) ∧
      (x.IsIntegerIn lower upper → ∃ s', g.edit id (.integer (.set i x)) s = .ok () s') := by
  obtain ⟨rfl, rfl, rfl⟩ := IntegerVariable.eq_of_ofBounds hof
  obtain ⟨committed, hsince⟩ := h.since hinit
  obtain ⟨base, c, -, hslot, hhistory⟩ := hsince.history hn
  cases hhistory.holds.2 with
  | @integer _ j hcount hvalues =>
    have hcount' := IntegerVariable.count_eq_size hcount
    have hsize : v.size = j.size := (IntegerVariable.count_eq_ok.mp hcount).2
    have helements : ∀ x ∈ j.values.toList, x.IsIntegerIn (rounded v.lower) (rounded v.upper) := by
      intro x hx
      have hadmits := hvalues x (Array.mem_def.mpr hx)
      obtain ⟨hlo, hhi, hwhole⟩ := hadmits.bounds ⟨hlower, hupper⟩ id
      exact Binary64.isIntegerIn_rounded_iff.mpr ⟨hwhole rfl, hlo, hhi⟩
    have hset : ∀ i < v.size, ∀ x, (∃ s', g.edit id (.integer (.set i x)) s = .ok () s') ↔
        x.IsIntegerIn (rounded v.lower) (rounded v.upper) := by
      intro i hi x
      rw [h.sound.edit_set_iff hn hslot hcount', IntegerVariable.admits_iff, and_iff_right hi]
    have hview := h.sound.view_leaf hn hslot
    constructor
    · rcases IntegerVariable.bufferView_outcome hcount with hbuffer | ⟨hz, hbuffer⟩
      · refine .inl ⟨_, _, hview.trans (congrArg liftM hbuffer), View.toList_ofArray hcount,
          Array.length_toList.trans hsize.symm, fun x hx => ?_⟩
        exact ⟨helements x hx, fun hinward => (helements x hx).mono hinward.1 hinward.2⟩
      · exact .inr ⟨hz, hview.trans (congrArg liftM hbuffer)⟩
    · intro i hi x
      exact ⟨hset i hi x, fun hx => (hset i hi x).mpr hx.rounded⟩

namespace Tally

/-- Two integers between bounds of which the lower one is rounded up by one and
the upper one down. -/
def counts : IntegerVariable := ⟨[2], 2 ^ 53 + 3, 2 ^ 53 + 9, by decide⟩

def tally : Graph := (Graph.empty 0).extend fun _ => .ok (.leaf (.integer counts))

/-- The first integer is made the greatest one, which is committed; then both
change places, and the other one is set as well before a revert. -/
def counted : State :=
  tally.after [.initializeRemaining, .edit 0 (.integer (.set 0 (.ofInt (2 ^ 53 + 8)))),
    .commit [0], .edit 0 (.integer (.exchange 0 1)),
    .edit 0 (.integer (.set 0 (.ofInt (2 ^ 53 + 6)))), .revert [0]] tally.emptyState.1

/-- The lower bound is rounded down, to an integer outside. -/
def loose : IntegerVariable := ⟨[1], 2 ^ 53 + 1, 2 ^ 53 + 2, by decide⟩

def slack : Graph := (Graph.empty 0).extend fun _ => .ok (.leaf (.integer loose))

def opened : State := slack.after [.initializeRemaining] slack.emptyState.1

end Tally

open Tally in
/-- Three integers between the bounds are numbers.  Two are elements, and one
of these can be set to the third. -/
theorem counted_between :
    (tally.Reached counted ∧
      IntegerVariable.ofBounds [2] (2 ^ 53 + 3) (2 ^ 53 + 9) = .ok counts ∧
      tally.nodes[0]? = some (.leaf (.integer counts)) ∧ counted.isInitialized 0 = true) ∧
    tally.elementsOf counted 0 = some [.ofInt (2 ^ 53 + 8), .ofInt (2 ^ 53 + 4)] ∧
    (∀ x ∈ [.ofInt (2 ^ 53 + 8), .ofInt (2 ^ 53 + 4)],
      Binary64.IsIntegerIn (2 ^ 53 + 3) (2 ^ 53 + 9) x) ∧
    ∃ s, tally.edit 0 (.integer (.set 1 (.ofInt (2 ^ 53 + 6)))) counted = .ok () s := by
  have hr : tally.Reached counted := reached_after .start (by decide +kernel)
  have hof : IntegerVariable.ofBounds [2] (2 ^ 53 + 3) (2 ^ 53 + 9) = .ok counts := rfl
  have hn : tally.nodes[0]? = some (.leaf (.integer counts)) := rfl
  have hinit : counted.isInitialized 0 = true := by decide +kernel
  obtain ⟨hseen, hset⟩ := hr.integers_between hof (by decide) (by decide) hn hinit
  obtain ⟨w, xs, hw, hxs, -, hbetween⟩ := hseen.resolve_right fun h => absurd h.1 (by decide)
  have helements : tally.elementsOf counted 0 =
      some [.ofInt (2 ^ 53 + 8), .ofInt (2 ^ 53 + 4)] := by decide +kernel
  have hseen : tally.elementsOf counted 0 = some xs := by
    rw [elementsOf, hw]
    exact congrArg Except.toOption hxs
  obtain rfl := Option.some.inj (hseen.symm.trans helements)
  have hinward : counts.RoundsInward := ⟨by decide +kernel, by decide +kernel⟩
  have hsix : rounded (2 ^ 53 + 6) = 2 ^ 53 + 6 := by decide +kernel
  have hvalue := Binary64.rational?_ofInt (k := 2 ^ 53 + 6) (by decide)
  rw [hsix] at hvalue
  refine ⟨⟨hr, hof, hn, hinit⟩, helements, fun x hx => (hbetween x hx).2 hinward, ?_⟩
  exact (hset 1 (by decide) _).2 ⟨_, hvalue, by decide, by decide⟩

open Tally in
/-- **A bound that is rounded outward is not kept.**  The default value lies
below the lower bound, and can be set. -/
theorem default_below_bound :
    IntegerVariable.ofBounds [1] (2 ^ 53 + 1) (2 ^ 53 + 2) = .ok loose ∧
      slack.nodes[0]? = some (.leaf (.integer loose)) ∧ slack.Reached opened ∧
      slack.elementsOf opened 0 = some [.ofInt (2 ^ 53)] ∧
      ¬ (Binary64.ofInt (2 ^ 53)).IsIntegerIn (2 ^ 53 + 1) (2 ^ 53 + 2) ∧
      ∃ s, slack.edit 0 (.integer (.set 0 (.ofInt (2 ^ 53)))) opened = .ok () s := by
  have hr : slack.Reached opened := reached_after .start (by decide +kernel)
  have hset := call_eq_ok_after (g := slack) (s := opened)
    (c := .edit 0 (.integer (.set 0 (.ofInt (2 ^ 53))))) (by decide +kernel)
  have hrounded : rounded (2 ^ 53) = 2 ^ 53 := by decide +kernel
  have hvalue := Binary64.rational?_ofInt (k := 2 ^ 53) (by decide)
  rw [hrounded] at hvalue
  refine ⟨rfl, rfl, hr, by decide +kernel, ?_, _, hset⟩
  rintro ⟨k, hk, hlo, -⟩
  rw [hvalue, Option.some.injEq, Int.cast_inj] at hk
  omega

end Graph
end ArrayFlow
