import ArrayFlow.Fault

/-!
# Row-major order

The elements of an array with extents `[n₀, n₁, …]` are numbered so that the
last coordinate runs fastest.  The **stride** of an axis is the number of
elements after it.  `strides` finds the strides in one walk from the last
axis to the first, with the product of the extents that lie behind it; the
walk takes in every extent, the leading one too.

A flat position is the sum of coordinate times stride (`flatten`, `advance`).
`split` undoes that sum from the last axis to the first; what is left after
the first axis is the carry, so that one more leading axis without an extent
of its own can take it as its coordinate.
-/

namespace ArrayFlow
namespace RowMajor

/-- The number of elements of an array with the given extents. -/
def size : List Nat → Nat
  | [] => 1
  | n :: ns => n * size ns

/-- The number of elements, multiplied up from the first extent on. -/
def count (extents : List Nat) : Except Fault Nat :=
  extents.foldlM (fun n m => word (n * m)) 1

/-- Puts the stride down for each of some axes, which are listed from the
last one to the first, before those that are there already.  `stride` is the
product of the extents so far. -/
def stridesLoop : (reversed : List Nat) → (stride : Nat) → (behind : List Nat) →
    Except Fault (List Nat)
  | [], _, behind => .ok behind
  | n :: ns, stride, behind => do
    let next ← word (stride * n)
    stridesLoop ns next (stride :: behind)

/-- The stride of each axis. -/
def strides (extents : List Nat) : Except Fault (List Nat) := stridesLoop extents.reverse 1 []

/-- Takes a flat position apart.  An axis of extent 0 has coordinate 0 and
leaves the position as it is. -/
def split : List Nat → Nat → Nat × List Nat
  | [], k => (k, [])
  | n :: ns, k =>
    let (carry, cs) := split ns k
    if n = 0 then (carry, 0 :: cs) else (carry / n, carry % n :: cs)

/-- The coordinates of a flat position. -/
def coordinates (extents : List Nat) (k : Nat) : List Nat := (split extents k).2

/-- The sum of coordinate times stride, for strides that count forwards. -/
def flatten : (coordinates strides : List Nat) → Nat
  | c :: cs, s :: ss => c * s + flatten cs ss
  | _, _ => 0

/-- A distance and the coordinates times strides of either sign that are
added to it one after the other. -/
def advance (distance : Int) : (coordinates : List Nat) → (strides : List Int) → Except Fault Int
  | c :: cs, s :: ss => do
    let term ← signed (signedWord c * s)
    let next ← signed (distance + term)
    advance next cs ss
  | _, _ => .ok distance

/-- What has been counted is the number of elements. -/
theorem size_eq_of_count {extents : List Nat} {n : Nat} (h : count extents = .ok n) :
    size extents = n := by
  have general : ∀ (ns : List Nat) (k : Nat),
      ns.foldlM (fun n m => word (n * m)) k = .ok n → k * size ns = n := by
    intro ns
    induction ns with
    | nil => exact fun k h => (Nat.mul_one k).trans (Except.ok.inj h)
    | cons m ms ih =>
      intro k h
      rw [List.foldlM_cons] at h
      cases hw : word (k * m) with
      | error f => rw [hw] at h; cases h
      | ok next =>
        rw [hw] at h
        rw [size, ← Nat.mul_assoc, eq_of_word hw]
        exact ih next h
  rw [← general extents 1 h, Nat.one_mul]

@[simp] theorem length_split (extents : List Nat) (k : Nat) :
    (split extents k).2.length = extents.length := by
  induction extents with
  | nil => rfl
  | cons n ns ih => simp only [split]; split <;> simp [ih]

@[simp] theorem length_coordinates (extents : List Nat) (k : Nat) :
    (coordinates extents k).length = extents.length := length_split extents k

end RowMajor
end ArrayFlow
