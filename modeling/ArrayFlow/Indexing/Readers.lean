/-!
# Readers

Which positions read which source element: a list of source positions, each
with the positions that read it, and never with none.  It is the way back
from the offsets of a gathered array and is kept in step with them one link
at a time.
-/

namespace ArrayFlow

/-- The positions that read each source position. -/
abbrev Readers := List (Nat × List Nat)

namespace Readers

/-- The positions that read `f`. -/
def of : Readers → Nat → List Nat
  | [], _ => []
  | (f', ps) :: rest, f => if f' = f then ps else of rest f

/-- Position `p` reads `f` from now on. -/
def link : Readers → Nat → Nat → Readers
  | [], f, p => [(f, [p])]
  | (f', ps) :: rest, f, p => if f' = f then (f', ps ++ [p]) :: rest else (f', ps) :: link rest f p

/-- Position `p` reads `f` no longer. -/
def unlink : Readers → Nat → Nat → Readers
  | [], _, _ => []
  | (f', ps) :: rest, f, p =>
    if f' = f then
      if ps.erase p = [] then rest else (f', ps.erase p) :: rest
    else (f', ps) :: unlink rest f p

/-- The readers of the offsets that are listed from position `p` on. -/
def linkFrom (r : Readers) (p : Nat) : List Nat → Readers
  | [] => r
  | f :: fs => linkFrom (r.link f p) (p + 1) fs

end Readers
end ArrayFlow
