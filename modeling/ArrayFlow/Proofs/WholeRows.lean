import ArrayFlow.Proofs.Refusals
import ArrayFlow.Proofs.VariableHistory

/-!
# Whole rows

The buffer of a row variable does not say how many rows it holds: they are
counted anew from the number of elements whenever the variable is seeded,
edited or read.  As long as rows have elements the count is exact, and it stays
between the limits (`Since.whole_rows`).

Rows without elements cannot be counted like this.  There are never any, so
the least number of them is not kept, and whatever is put into the buffer is
no row, is not refused, and is not seen again (`hollow_rows`).
-/

namespace ArrayFlow

namespace Variable

variable {v : Variable} {base now : Contents}

/-- The most rows are a property that lasts. -/
theorem History.atMost (h : v.History base now) :
    v.AtMost base.elements.size ∧ v.AtMost now.elements.size := by
  refine h.both (P := fun c => v.AtMost c.elements.size) ?_ ?_ ?_
  · rintro c (hdefaults | hseed)
    · exact atMost_defaults hdefaults
    · exact atMost_seed hseed
  · exact fun _ _ _ _ hholds hedit hmost => atMost_edit hholds hedit hmost
  · intro c hmost
    rw [Contents.elements_commit, Journal.size_commit]
    exact hmost

/-- The change in size is counted from the last commit. -/
theorem History.sizeDiff_eq (h : v.History base now) :
    now.elements.sizeDiff = now.elements.size - base.elements.size :=
  h.extends_base.elements.sizeDiff_eq h.clean.elements

end Variable

namespace RowVariable

variable {v : RowVariable} {j : Journal Binary64}

/-- The number of rows that a buffer is taken to hold. -/
def countedRows (v : RowVariable) (size : Nat) : Nat := size / v.rowSize

theorem countedRows_of_rowSize {size : Nat} (h : v.rowSize = 0) : v.countedRows size = 0 := by
  rw [countedRows, h, Nat.div_zero]

/-- Counting the rows of what was counted changes nothing. -/
theorem countedRows_countedRows (v : RowVariable) (size : Nat) :
    v.countedRows (v.countedRows size * v.rowSize) = v.countedRows size := by
  by_cases hz : v.rowSize = 0
  · rw [countedRows_of_rowSize hz, countedRows_of_rowSize hz]
  · exact Nat.mul_div_cancel _ (Nat.pos_of_ne_zero hz)

/-- Rows that have elements fill the buffer. -/
theorem size_eq_countedRows (h : (Variable.rows v).Holds (.values j)) (hz : v.rowSize ≠ 0) :
    j.size = v.countedRows j.size * v.rowSize ∧ v.minRows ≤ v.countedRows j.size := by
  cases h with
  | rows _ size _ =>
    obtain ⟨n, hn, hj⟩ := size hz
    have hcount : v.countedRows j.size = n := by
      rw [countedRows, hj, Nat.mul_div_cancel n (Nat.pos_of_ne_zero hz)]
    rw [hcount]
    exact ⟨hj, hn⟩

/-- The strides of a row are no words, or there are more elements than a buffer
can hold: then the rows cannot be looked at. -/
def Overlong (v : RowVariable) (size : Nat) : Prop := ¬ v.shape.LaysOut ∨ maxElements < size

/-- Nothing but too much of it keeps a buffer from being looked at. -/
theorem overlong_of_error {values : Array Binary64} {f : Fault}
    (h : Graph.bufferView v.shape values = .error f) : v.Overlong values.size := by
  by_contra hfits
  obtain ⟨hlays, hroom⟩ := not_or.mp hfits
  have hmax : maxElements < 2 ^ 60 := by decide
  have hle : RowMajor.size (v.shape.extentsOf values.size) ≤ values.size :=
    Nat.div_mul_le_self values.size v.rowSize
  rw [bufferView_eq (not_not.mp hlays) (by omega)] at h
  cases h

/-- What can be looked at is counted. -/
theorem count_of_bufferView {values : Array Binary64} {w : View}
    (h : Graph.bufferView v.shape values = .ok w) :
    w.count = .ok (v.countedRows values.size * v.rowSize) := by
  obtain ⟨extents, hextents, h⟩ := Outcome.bind_eq_ok.mp h
  obtain ⟨-, rfl⟩ := Shape.resolve_eq_ok.mp hextents
  obtain ⟨hlays, rfl⟩ := View.layOut_eq_ok.mp h
  exact View.count_eq_ok.mpr ⟨Shape.counts_extentsOf (s := v.shape) trivial hlays.size_lt, rfl⟩

theorem countedRows_le (h : (Variable.rows v).AtMost j.size) :
    ∀ m ∈ v.maxRows, v.countedRows j.size ≤ m := by
  intro m hm
  by_cases hz : v.rowSize = 0
  · rw [countedRows_of_rowSize hz]
    exact Nat.zero_le m
  · exact Nat.div_le_of_le_mul (Nat.mul_comm m v.rowSize ▸ h hz m hm)

end RowVariable

namespace Graph

variable {g : Graph} {s committed now : State} {id : NodeId} {v : RowVariable}
  {j : Journal Binary64}

section Read

variable (hn : g.nodes[id]? = some (.leaf (.rows v)))
  (hslot : s.slot? id = some (.contents (.values j)))
include hn hslot

/-- The number of elements is that of the counted rows, or it overflows. -/
theorem sizeAt_rows : g.sizeAt s id = .ok (v.countedRows j.size * v.rowSize) ∨
    v.Overlong j.size ∧ g.sizeAt s id = .error .overflow := by
  have hsize : g.sizeAt s id = bufferView v.shape j.values >>= View.count := by
    rw [sizeAt_eq (describe_eq_ok.mpr ⟨_, hn, rfl⟩), viewAt_contents hn hslot]
    rfl
  rw [hsize]
  cases hview : bufferView v.shape j.values with
  | error f =>
    obtain rfl := bufferView_eq_error hview
    exact .inr ⟨RowVariable.overlong_of_error hview, rfl⟩
  | ok w => exact .inl (RowVariable.count_of_bufferView hview)

theorem Sound.sizeIn_rows (hs : g.Sound s) :
    g.sizeIn s id = .ok (v.countedRows j.size * v.rowSize) ∨
      v.Overlong j.size ∧ g.sizeIn s id = .error (.fault .overflow) := by
  unfold sizeIn
  rw [hs.checkReadable_leaf hn hslot]
  rcases sizeAt_rows hn hslot with h | ⟨hlong, h⟩
  · exact .inl (by rw [h]; rfl)
  · exact .inr ⟨hlong, by rw [h]; rfl⟩

/-- The extents are counted a second time, from what the first count left. -/
theorem Sound.extentsIn_rows (hs : g.Sound s) (hrow : v.countRow = .ok v.rowSize) :
    g.extentsIn s id = .ok (v.countedRows j.size :: v.trailing) ∨
      v.Overlong j.size ∧ g.extentsIn s id = .error (.fault .overflow) := by
  unfold extentsIn extentsAt
  rw [hs.checkReadable_leaf hn hslot, descriptionAt_eq (describe_eq_ok.mpr ⟨_, hn, rfl⟩)]
  rcases sizeAt_rows hn hslot with h | ⟨hlong, h⟩
  · have hresolve : v.shape.resolve (v.countedRows j.size * v.rowSize) =
        .ok (v.countedRows j.size :: v.trailing) := by
      refine Shape.resolve_eq_ok.mpr ⟨(RowVariable.countRow_eq_ok.mp hrow).1, ?_⟩
      exact congrArg (· :: v.trailing) (v.countedRows_countedRows j.size)
    rw [h]
    left
    show (liftM (v.shape.resolve _) : Except Failure _) = _
    rw [hresolve]
    rfl
  · exact .inr ⟨hlong, by rw [h]; rfl⟩

end Read

/-- What is true of the row variable `id` with the buffer `j`, which was `base`
at the last commit: the buffer holds as many whole rows as the leading extent
says, between the limits, and the change in size is the one since that commit.
Where rows have no elements there are none to be seen.  What is read may overflow,
but only if there is too much of it. -/
structure HoldsRows (g : Graph) (committed now : State) (id : NodeId) (v : RowVariable)
    (base j : Journal Binary64) : Prop where
  slot : now.slot? id = some (.contents (.values j))
  slotBefore : committed.slot? id = some (.contents (.values base))
  laysOut : v.rowSize ≠ 0 → v.shape.LaysOut
  extents : g.extentsIn now id = .ok (v.countedRows j.size :: v.trailing) ∨
    v.Overlong j.size ∧ g.extentsIn now id = .error (.fault .overflow)
  size : v.rowSize ≠ 0 → j.size = v.countedRows j.size * v.rowSize
  least : v.rowSize ≠ 0 → v.minRows ≤ v.countedRows j.size
  most : ∀ m ∈ v.maxRows, v.countedRows j.size ≤ m
  sizeIn : v.rowSize ≠ 0 → g.sizeIn now id = .ok j.size ∨
    v.Overlong j.size ∧ g.sizeIn now id = .error (.fault .overflow)
  sizeBefore : v.rowSize ≠ 0 → g.sizeIn committed id = .ok base.size ∨
    v.Overlong base.size ∧ g.sizeIn committed id = .error (.fault .overflow)
  sizeDiff : g.sizeDiff now id = .ok (j.size - base.size : Int)
  hollow : v.rowSize = 0 → v.countedRows j.size = 0 ∧ (g.sizeIn now id = .ok 0 ∨
    v.Overlong j.size ∧ g.sizeIn now id = .error (.fault .overflow))

/-- **A row variable holds whole rows**, whatever calls were made, if rows have
elements. -/
theorem Since.whole_rows (h : g.Since id committed now)
    (hn : g.nodes[id]? = some (.leaf (.rows v))) :
    ∃ base j, g.HoldsRows committed now id v base j := by
  obtain ⟨cbase, c, hbefore, hslot, hhistory⟩ := h.history hn
  obtain ⟨hbase, hnow⟩ := hhistory.holds
  obtain ⟨-, hmost⟩ := hhistory.atMost
  have hdiff := hhistory.sizeDiff_eq
  cases hbase with
  | @rows _ base hrow hsize hvalues =>
    cases hnow with
    | @rows _ j _ hsize' hvalues' =>
      have hwhole := RowVariable.size_eq_countedRows (.rows hrow hsize' hvalues')
      have hwholeBefore := RowVariable.size_eq_countedRows (.rows hrow hsize hvalues)
      have hsizeIn := h.reached.sound.sizeIn_rows hn hslot
      have hsizeBefore := h.committed_reached.sound.sizeIn_rows hn hbefore
      refine ⟨base, j, hslot, hbefore,
        fun hz => Shape.laysOut_of_rowSize rfl hz (RowVariable.countRow_eq_ok.mp hrow).1,
        h.reached.sound.extentsIn_rows hn hslot hrow, fun hz => (hwhole hz).1,
        fun hz => (hwhole hz).2, RowVariable.countedRows_le hmost,
        fun hz => hsizeIn.imp_left (·.trans (congrArg _ (hwhole hz).1.symm)),
        fun hz => hsizeBefore.imp_left (·.trans (congrArg _ (hwholeBefore hz).1.symm)), ?_,
        fun hz => ⟨RowVariable.countedRows_of_rowSize hz, ?_⟩⟩
      · rw [h.reached.sound.sizeDiff_leaf hn hslot]
        exact congrArg Except.ok hdiff
      · rwa [hz, Nat.mul_zero] at hsizeIn

namespace Ledger

/-- One to three rows of two digits. -/
def rows : RowVariable where
  trailing := [2]
  lower := .ofInt 0
  upper := .ofInt 9
  integral := true
  minRows := 1
  maxRows := some 3
  domain_nonempty := by decide +kernel
  minRows_le := by simp

def ledger : Graph := (Graph.empty 0).extend fun _ => .ok (.leaf (.rows rows))

/-- The row that there is by default, before anything else is done. -/
def opened : State := ledger.after [.initializeRemaining] ledger.emptyState.1

/-- A second row is added. -/
def entered : State := ledger.after [.edit 0 (.rows (.grow [.ofInt 1, .ofInt 2]))] opened

/-- Both rows are committed. -/
def closed : State := ledger.after [.commit [0]] entered

/-- A digit is changed. -/
def corrected : State := ledger.after [.edit 0 (.rows (.set 3 (.ofInt 5)))] closed

/-- The third row is added. -/
def full : State := ledger.after [.edit 0 (.rows (.grow [.ofInt 3, .ofInt 4]))] corrected

end Ledger

open Ledger in
/-- After the commit a call with half a row is refused, and at the end one
with a row too many. -/
theorem full_whole_rows :
    (ledger.Since 0 closed full ∧ ledger.nodes[0]? = some (.leaf (.rows rows))) ∧
      ∃ base j, ledger.HoldsRows closed full 0 rows base j ∧
        ledger.extentsIn full 0 = .ok [3, 2] ∧ ledger.sizeDiff full 0 = .ok 2 := by
  have hn : ledger.nodes[0]? = some (.leaf (.rows rows)) := rfl
  have hopened : ledger.Since 0 opened opened :=
    .filled .start (by decide +kernel)
      (call_eq_ok_after (c := .initializeRemaining) (by decide +kernel)) (by decide +kernel)
  have hentered : ledger.Since 0 opened entered :=
    hopened.kept (call_eq_ok_after (c := .edit 0 _) (by decide +kernel)) nofun
  have hclosed : ledger.Since 0 closed closed :=
    hentered.committed List.mem_cons_self
      (call_eq_ok_after (c := .commit [0]) (by decide +kernel))
  obtain ⟨s, hhalf⟩ := Outcome.refused_of_refusal?
    (x := ledger.call (.edit 0 (.rows (.grow [.ofInt 7]))) closed)
    (r := .shapeMismatch 2 1) (by decide +kernel)
  rw [call_refused hhalf] at hhalf
  have hrefused : ledger.Since 0 closed closed := hclosed.refused hhalf
  have hcorrected : ledger.Since 0 closed corrected :=
    hrefused.kept (call_eq_ok_after (c := .edit 0 _) (by decide +kernel)) nofun
  have hfull : ledger.Since 0 closed full :=
    hcorrected.kept (call_eq_ok_after (c := .edit 0 _) (by decide +kernel)) nofun
  obtain ⟨s', hover⟩ := Outcome.refused_of_refusal?
    (x := ledger.call (.edit 0 (.rows (.grow [.ofInt 7, .ofInt 8]))) full)
    (r := .sizeOutOfBounds 4 1 3) (by decide +kernel)
  rw [call_refused hover] at hover
  have hsince : ledger.Since 0 closed full := hfull.refused hover
  obtain ⟨base, j, hrows⟩ := hsince.whole_rows hn
  exact ⟨⟨hsince, hn⟩, base, j, hrows, by decide +kernel, by decide +kernel⟩

namespace Hollow

/-- Any number of rows without elements. -/
def husks : RowVariable where
  trailing := [0]
  lower := .ofInt 0
  upper := .ofInt 9
  integral := true
  minRows := 0
  maxRows := none
  domain_nonempty := by decide +kernel
  minRows_le := by simp

theorem ofDomain_husks : RowVariable.ofDomain [0] (.ofInt 0) (.ofInt 9) true = .ok husks := by
  have h : RowVariable.domainEmpty (.ofInt 0) (.ofInt 9) true = false := by decide +kernel
  rw [RowVariable.ofDomain, dif_pos h]
  rfl

/-- At least one of them. -/
def husk : RowVariable := { husks with minRows := 1, minRows_le := by simp [husks] }

def hollow : Graph :=
  ((Graph.empty 0).extend fun _ => .ok (.leaf (.rows husks))).extend
    fun _ => .ok (.leaf (.rows husk))

def opened : State := hollow.after [.initializeRemaining] hollow.emptyState.1

/-- Two numbers are added to the first variable. -/
def stuffed : State := hollow.after [.edit 0 (.rows (.grow [.ofInt 1, .ofInt 2]))] opened

end Hollow

open Hollow in
/-- **Rows without elements are not kept.**  Two numbers in the buffer make no
row and no size, but a change in size; and where one row is the least there
is none. -/
theorem hollow_rows :
    (RowVariable.ofDomain [0] (.ofInt 0) (.ofInt 9) true = .ok husks ∧
      husks.withRows 1 none = .ok husk) ∧
    (hollow.Since 0 opened stuffed ∧ hollow.nodes[0]? = some (.leaf (.rows husks)) ∧
      hollow.nodes[1]? = some (.leaf (.rows husk))) ∧
    (∃ j, stuffed.slot? 0 = some (.contents (.values j)) ∧
      hollow.extentsIn stuffed 0 = .ok [0, 0] ∧ j.size ≠ 0 * husks.rowSize) ∧
    (hollow.sizeIn opened 0 = .ok 0 ∧ hollow.sizeIn stuffed 0 = .ok 0 ∧
      hollow.sizeDiff stuffed 0 = .ok 2) ∧
    hollow.extentsIn opened 1 = .ok [0, 0] ∧ husk.minRows = 1 := by
  have hopened : hollow.Since 0 opened opened :=
    .filled .start (by decide +kernel)
      (call_eq_ok_after (c := .initializeRemaining) (by decide +kernel)) (by decide +kernel)
  have hstuffed : hollow.Since 0 opened stuffed :=
    hopened.kept (call_eq_ok_after (c := .edit 0 _) (by decide +kernel)) nofun
  have hslot : stuffed.slot? 0 = some (.contents (.values
      ⟨#[.ofInt 1, .ofInt 2], [.placement 1 (.ofInt 2), .placement 0 (.ofInt 1)], 0⟩)) := by
    decide +kernel
  exact ⟨⟨ofDomain_husks, rfl⟩, ⟨hstuffed, rfl, rfl⟩,
    ⟨_, hslot, by decide +kernel, by decide⟩,
    ⟨by decide +kernel, by decide +kernel, by decide +kernel⟩, by decide +kernel, rfl⟩

end Graph
end ArrayFlow
