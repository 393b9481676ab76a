import ArrayFlow.Indexing.Readers
import ArrayFlow.Journal

/-!
# Gathered arrays

Advanced indexing copies elements of its source.  Each position keeps its
value and its **offset**, the source position it was read from; both are
journaled, and the readers lead from a source position back to the positions
that read it.  The readers have no journal: a revert undoes the offsets, and
the links with them.
-/

namespace ArrayFlow

/-- Copied elements and where they were read. -/
structure Gathered where
  values : Journal Binary64
  offsets : Journal Nat
  readers : Readers
  deriving DecidableEq

namespace Gathered

/-- Elements that have just been read, each given by its offset and its
value. -/
def ofEntries (entries : List (Nat × Binary64)) : Gathered where
  values := .ofArray (entries.map Prod.snd).toArray
  offsets := .ofArray (entries.map Prod.fst).toArray
  readers := Readers.linkFrom [] 0 (entries.map Prod.fst)

/-- The number of elements. -/
def size (g : Gathered) : Nat := g.values.size

/-- Appends the value `x` read from `f`. -/
def place (g : Gathered) (f : Nat) (x : Binary64) : Gathered where
  values := g.values.push x
  offsets := g.offsets.push f
  readers := g.readers.link f g.offsets.size

/-- Takes the last element away. -/
def pop (g : Gathered) : Gathered where
  values := g.values.pop
  offsets := g.offsets.pop
  readers := match g.offsets.values.back? with
    | some f => g.readers.unlink f (g.offsets.size - 1)
    | none => g.readers

/-- Position `p` now holds `x`, read from `f`. -/
def update (g : Gathered) (p f : Nat) (x : Binary64) : Gathered :=
  let values := g.values.set p x
  match g.offsets.values[p]? with
  | some old =>
    if old = f then { g with values := values }
    else ⟨values, g.offsets.set p f, (g.readers.unlink old p).link f p⟩
  | none => { g with values := values }

/-- Position `p`, which has to exist, now holds `x`, read from `f`. -/
def store (g : Gathered) (p f : Nat) (x : Binary64) : Except Fault Gathered :=
  if p < g.size then .ok (g.update p f x) else .error .noPosition

/-- Makes the current elements the committed ones. -/
def commit (g : Gathered) : Gathered :=
  { g with values := g.values.commit, offsets := g.offsets.commit }

/-- Undoes the links of one record of the offsets. -/
def undoLink (r : Readers) (u : Update Nat) : Readers :=
  let r := match u.new with
    | some f => r.unlink f u.index
    | none => r
  match u.old with
  | some f => r.link f u.index
  | none => r

/-- Brings the committed elements back. -/
def revert (g : Gathered) : Gathered where
  values := g.values.revert
  offsets := g.offsets.revert
  readers := g.offsets.log.foldl undoLink g.readers

end Gathered
end ArrayFlow
