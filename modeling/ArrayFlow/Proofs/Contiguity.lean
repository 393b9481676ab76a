import ArrayFlow.Proofs.View

/-!
# The short way to an element and the long one

The element of a contiguous view is fetched from its flat position, and all of
them are copied in one piece.  The strides are not asked, although they are
there and would lead to an element as well.  The two ways lead to the same
place for every view that comes about: for the whole of a buffer, for a view
of it, for a view of that, and so on (`OfBuffer.ways_agree`).

What has to be known of such a view is that its flag says what its strides say
(`OfBuffer.flagged`).  Each view sets its own flag from its own strides, so
nothing is handed down from the view before.  The flag overlooks the stride of
an axis with at most one position, and takes a view without elements for
contiguous; neither shows.

A buffer may have fewer elements than the extents ask for.  Then both ways end
with a fault.  It need not be the same one, since the sum of coordinates and
strides may leave the range of its words before it comes to an address
(`toOption_get_byStrides`).
-/

namespace ArrayFlow
namespace View

/-- The same view, read along its strides only. -/
def byStrides (v : View) : View := { v with contiguous := false }

/-- The views of a buffer: the whole of it, and views of its views, as far as
they can be made.  An offset may lead in front of the buffer, and strides may
lead out of it. -/
inductive OfBuffer (data : Array Binary64) : View → Prop
  | whole {extents : List Nat} {v : View} (h : layOut data extents = .ok v) : OfBuffer data v
  | restride {v w : View} {offset : Int} {extents : List Nat} {strides : List Int}
      (h : OfBuffer data v) (hlen : strides.length = extents.length)
      (hw : v.restride offset extents strides = .ok w) : OfBuffer data w

variable {data : Array Binary64} {v : View}

namespace OfBuffer

theorem flagged (h : OfBuffer data v) : v.Flagged := by
  cases h with
  | @whole extents _ h =>
    obtain ⟨-, rfl⟩ := layOut_eq_ok.mp h
    exact ofArray_flagged data extents
  | restride _ hlen hw =>
    obtain ⟨start, -, -, rfl⟩ := restride_eq_ok.mp hw
    exact movedTo_flagged _ _ hlen

theorem data_eq (h : OfBuffer data v) : v.data = data := by
  induction h with
  | whole h =>
    obtain ⟨-, rfl⟩ := layOut_eq_ok.mp h
    rfl
  | restride _ _ hw ih =>
    obtain ⟨start, -, -, rfl⟩ := restride_eq_ok.mp hw
    exact ih

/-- The number of elements is a word, because the strides have been asked
for. -/
theorem size_lt (h : OfBuffer data v) : v.size < 2 ^ 64 := by
  cases h with
  | @whole extents _ h =>
    obtain ⟨hlays, rfl⟩ := layOut_eq_ok.mp h
    exact hlays.size_lt
  | @restride _ _ _ extents _ _ _ hw =>
    obtain ⟨start, -, hempty | ⟨-, hlays⟩, rfl⟩ := restride_eq_ok.mp hw
    · have hzero : RowMajor.size extents = 0 := by
        by_contra hne
        exact RowMajor.size_ne_zero.mp hne 0 (by simpa using hempty) rfl
      show RowMajor.size extents < 2 ^ 64
      rw [hzero]
      exact Nat.two_pow_pos 64
    · exact hlays.size_lt

end OfBuffer

/-! ### One element -/

@[simp] theorem size_byStrides (v : View) : v.byStrides.size = v.size := rfl

@[simp] theorem count_byStrides (v : View) : v.byStrides.count = v.count := rfl

theorem position_byStrides (v : View) (k : Nat) :
    v.byStrides.position k =
      v.offset + RowMajor.dot (RowMajor.coordinates v.extents k) v.strides := rfl

/-- The strides of a contiguous view lead to an element that the buffer has. -/
theorem place_byStrides (hf : v.Flagged) (hsize : v.size < 2 ^ 64) (hc : v.contiguous = true)
    {k : Nat} (hk : k < v.size) (hroom : v.offset + k < maxElements) :
    v.byStrides.place k = .ok (v.offset + k) := by
  have hmax : maxElements < 2 ^ 60 := by decide
  have hw := RowMajor.within_coordinates hk
  have hback := RowMajor.flatten_coordinates hk
  have hdot : ∀ cs, RowMajor.Within cs v.extents → RowMajor.dot cs v.strides =
      RowMajor.flatten cs (RowMajor.weights v.extents) := fun cs hcs =>
    dot_of_isContiguous hcs hf.length_strides hsize (hf.contiguous_eq ▸ hc)
  have hsmall : ∀ c ∈ RowMajor.coordinates v.extents k, c < 2 ^ 63 := by
    intro c hcoordinate
    have := hw.le_flatten hcoordinate
    omega
  have hdistance := RowMajor.advance_eq 0 v.strides hsmall fun i => by
    -- the sum so far is that of coordinates that end with zeros
    have hle := RowMajor.flatten_take_le (RowMajor.coordinates v.extents k)
      (RowMajor.weights v.extents) i
    rw [← RowMajor.dot_append_zeros _ (((RowMajor.coordinates v.extents k).drop i).map fun _ => 0)
      _ (by simp), hdot _ (hw.take i), abs_lt]
    omega
  rw [hdot _ hw, hback, Int.zero_add] at hdistance
  unfold place
  rw [show v.byStrides.contiguous = false from rfl, if_neg Bool.false_ne_true]
  refine Outcome.bind_eq_ok.mpr ⟨_, hdistance, ?_⟩
  rw [show v.byStrides.offset = v.offset from rfl, signedWord_of_lt (by omega)]
  exact signed_of_mem (by omega) (by omega)

/-- An element is fetched the short way and the long way, or neither way. -/
theorem toOption_get_byStrides (hf : v.Flagged) (hsize : v.size < 2 ^ 64)
    (hdata : v.data.size ≤ maxElements) {k : Nat} (hword : v.offset + k < 2 ^ 64) :
    (v.get k).toOption = (v.byStrides.get k).toOption := by
  cases hc : v.contiguous with
  | false =>
    have hsame : v.byStrides = v := by rw [byStrides, ← hc]
    rw [hsame]
  | true =>
    have hmax : maxElements < 2 ^ 60 := by decide
    refine Option.ext fun x => ?_
    rw [Outcome.toOption_eq_some, Outcome.toOption_eq_some, get_eq_ok, get_eq_ok, count_byStrides,
      size_byStrides]
    refine and_congr_right fun _ => and_congr_right fun hk => ?_
    have hshort : v.place k = .ok ((v.offset + k : Nat) : Int) := by
      rw [place, if_pos hc, word_of_lt hword]
      rfl
    have hposition := hf.strided hsize k hk
    rw [position_of_contiguous hc] at hposition
    constructor
    · rintro ⟨place, hplace, hfetch⟩
      obtain rfl := Except.ok.inj (hplace.symm.trans hshort)
      obtain ⟨hinside, -⟩ := Array.getElem?_eq_some_iff.mp (fetch_eq_ok.mp hfetch).2
      rw [Int.toNat_natCast] at hinside
      exact ⟨_, place_byStrides hf hsize hc hk (by omega), by exact_mod_cast hfetch⟩
    · rintro ⟨place, hplace, hfetch⟩
      refine ⟨_, hshort, ?_⟩
      obtain ⟨hlow, hsome⟩ := fetch_eq_ok.mp hfetch
      obtain ⟨hinside, -⟩ := Array.getElem?_eq_some_iff.mp hsome
      -- two addresses that are congruent and words are the same
      have hmod := place_modEq hplace
      rw [position_byStrides, ← hposition] at hmod
      have hsame : place = ((v.offset + k : Nat) : Int) := by
        have hlt : place < 2 ^ 64 := by
          have : v.byStrides.data.size = v.data.size := rfl
          omega
        have hleft := Int.emod_eq_of_lt hlow hlt
        have hright := Int.emod_eq_of_lt (Int.natCast_nonneg (v.offset + k))
          (by exact_mod_cast hword : ((v.offset + k : Nat) : Int) < 2 ^ 64)
        rw [← hleft, ← hright]
        exact_mod_cast hmod
      rwa [← hsame]

/-! ### All elements -/

theorem elements_eq_mapM {v : View} (h : v.count = .ok v.size) :
    v.elements = (List.range' 0 v.size).mapM v.get := by
  rw [elements, h]
  exact elementsFrom_eq_mapM v 0 v.size

/-- **Copying in one piece is reading one by one**, whatever the buffer: the
elements are the same, or there is a fault either way. -/
theorem toOption_toList (hf : v.Flagged) (hsize : v.size < 2 ^ 64)
    (hdata : v.data.size ≤ maxElements) (hword : v.offset + v.size ≤ 2 ^ 64) :
    v.toList.toOption = v.elements.toOption := by
  cases hn : v.count with
  | error f => rw [toList, elements, hn]; rfl
  | ok n =>
    obtain rfl := (count_eq_ok.mp hn).2
    by_cases hz : v.size = 0
    · rw [elements_eq_mapM hn, toList, hn, hz]
      rfl
    · cases hc : v.contiguous with
      | false =>
        refine congrArg _ ?_
        rw [toList, hn]
        show (if v.size = 0 then _ else _) = _
        rw [if_neg hz, if_neg (by rw [hc]; exact Bool.false_ne_true)]
      | true =>
        by_cases hfit : v.offset + v.size ≤ v.data.size
        · have hreadable : v.Readable := by
            refine ⟨fun k hk => ?_, fun k hk => ?_, by omega, hf.length_strides⟩
            · rw [position_of_contiguous hc]
              omega
            · rw [position_of_contiguous hc]
              omega
          rw [toList_eq hreadable hn, elements_eq hreadable hn]
        · have hlist : v.toList.toOption = none := by
            refine Outcome.toOption_eq_none fun xs hxs => ?_
            obtain ⟨-, ⟨h0, -⟩ | ⟨-, ⟨-, -, h, -⟩ | ⟨h, -⟩⟩⟩ := toList_eq_ok hxs
            · exact hz h0
            · exact hfit h
            · exact Bool.false_ne_true (h.symm.trans hc)
          have helements : v.elements.toOption = none := by
            refine Outcome.toOption_eq_none fun xs hxs => ?_
            -- the last element is not there
            rw [elements_eq_mapM hn] at hxs
            obtain ⟨x, hx⟩ := Outcome.exists_of_mapM_eq_ok hxs
              (List.mem_range'_1.mpr ⟨Nat.zero_le _, show v.size - 1 < 0 + v.size by omega⟩)
            obtain ⟨-, -, address, hplace, hfetch⟩ := get_eq_ok.mp hx
            rw [place, if_pos hc, word_of_lt (by omega)] at hplace
            obtain rfl := Except.ok.inj hplace
            obtain ⟨hinside, -⟩ := Array.getElem?_eq_some_iff.mp (fetch_eq_ok.mp hfetch).2
            rw [Int.toNat_natCast] at hinside
            omega
          rw [hlist, helements]

namespace Sheet

/-- Fourteen numbers, two fewer than four rows of four. -/
def numbers : Array Binary64 := ((List.range 14).map Binary64.ofNat).toArray

/-- The second row and those after it, `count` together, as the only entry of
one more axis, which has a stride of its own. -/
def rows (count : Nat) : Except Fault View := do
  let whole ← layOut numbers [4, 4]
  let below ← whole.restride 4 [count, 4] [4, 1]
  below.restride 0 [1, count, 4] [-7, 4, 1]

theorem ofBuffer_rows {count : Nat} {v : View} (h : rows count = .ok v) : OfBuffer numbers v := by
  obtain ⟨whole, hwhole, h⟩ := Outcome.bind_eq_ok.mp h
  obtain ⟨below, hbelow, h⟩ := Outcome.bind_eq_ok.mp h
  have hbuffer : OfBuffer numbers below := .restride (.whole hwhole) rfl hbelow
  exact hbuffer.restride rfl h

end Sheet

end View
end ArrayFlow
