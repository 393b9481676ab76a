import ArrayFlow.Proofs.AdvancedIndexing
import ArrayFlow.Proofs.Steps
import ArrayFlow.Proofs.Variable

/-!
# The history of a slot

A slot is the state of one node, and what a bulk call does to it can be told
without the graph.  A step that propagates **extends** the journals of the
slot (`Slot.Extends`), a step that commits forgets them, and a step that
reverts goes back along them.

A slot is *clean* if nothing in it is pending.  It is only *quiet* if its diff
is empty: the offsets of a gathered array can still have pending records,
since an element that is read from elsewhere may have an equal value.

* `Slot.Quiet.revert` — reverting what extends a quiet slot brings back what
  a view sees of it;
* `propagateSlot_extends`, `commitSlot_spec`, `revertSlot_eq`,
  `defaultSlot_clean` — the four steps, one lemma each.
-/

namespace ArrayFlow

/-- The slots that a node can have. -/
inductive Node.Owns : Node → Slot → Prop
  | constant (c : Constant) : Owns (.constant c) .constant
  | leaf (v : Variable) (c : Variable.Contents) : Owns (.leaf v) (.contents c)
  | basic (b : BasicIndexing) (diff : List (Update Binary64)) : Owns (.basic b) (.translated diff)
  | advanced (a : AdvancedIndexing) (x : Gathered) : Owns (.advanced a) (.gathered x)
  | validation (w : NodeId) (xs : List Binary64) : Owns (.validation w) (.watched xs)

namespace AdvancedIndexing

variable {a : AdvancedIndexing} {b : Blocks} {views : List View} {source : View}

/-- What an entry holds is in the buffer of the source. -/
theorem mem_data_of_entry {p f : Nat} {x : Binary64} (h : a.entry b views source p = .ok (f, x)) :
    x ∈ source.data := by
  obtain ⟨_, -, h⟩ := Outcome.bind_eq_ok.mp h
  obtain ⟨y, hy, h⟩ := Outcome.bind_eq_ok.mp h
  obtain ⟨-, rfl⟩ := Prod.mk.inj (Except.ok.inj h)
  exact View.mem_data_of_get hy

/-- What holds of a gathered array before it is brought up to date holds
afterwards, if the three ways to change it keep it.  The values that are
written are those of the source. -/
theorem refresh_induction {P : Gathered → Prop} (hpop : ∀ x, P x → P x.pop)
    (hupdate : ∀ x p f, ∀ v ∈ source.data, P x → P (x.update p f v))
    (hplace : ∀ x f, ∀ v ∈ source.data, P x → P (x.place f v))
    {indexerDiffs : List (List (Update Binary64))} {sourceDiff : List (Update Binary64)}
    {x x' : Gathered} (h : a.refresh b views source indexerDiffs sourceDiff x = .ok x')
    (hx : P x) : P x' := by
  unfold refresh at h
  obtain ⟨size, -, h⟩ := Outcome.bind_eq_ok.mp h
  obtain ⟨updated, hupdated, hplaced⟩ := Outcome.bind_eq_ok.mp h
  have hshrunk : ∀ n, P (Nat.repeat Gathered.pop n x) := by
    intro n
    induction n with
    | zero => exact hx
    | succ n ih => exact hpop _ ih
  refine Outcome.foldlM_induction (fun y p y' hy hrun => ?_) hplaced
    (Outcome.foldlM_induction (fun y p y' hy hrun => ?_) hupdated (hshrunk _))
  · obtain ⟨⟨f, v⟩, hentry, hy'⟩ := Outcome.bind_eq_ok.mp hrun
    obtain rfl := Except.ok.inj hy'
    exact hplace y f v (mem_data_of_entry hentry) hy
  · obtain ⟨⟨f, v⟩, hentry, hy'⟩ := Outcome.bind_eq_ok.mp hrun
    obtain ⟨-, rfl⟩ := Gathered.store_eq_ok.mp hy'
    exact hupdate y p f v (mem_data_of_entry hentry) hy

theorem refresh_extends {indexerDiffs : List (List (Update Binary64))}
    {sourceDiff : List (Update Binary64)} {x x' : Gathered}
    (h : a.refresh b views source indexerDiffs sourceDiff x = .ok x') :
    x.Extends x' ∧ (x.Valid → x'.Valid) := by
  refine refresh_induction (P := fun y => x.Extends y ∧ (x.Valid → y.Valid)) ?_ ?_ ?_ h
    ⟨.refl x, id⟩
  · rintro y ⟨hext, hvalid⟩
    exact ⟨hext.trans (.pop y), fun hx => (hvalid hx).pop⟩
  · rintro y p f v - ⟨hext, hvalid⟩
    exact ⟨hext.trans (.update y p f v), fun hx => (hvalid hx).update p f v⟩
  · rintro y f v - ⟨hext, hvalid⟩
    exact ⟨hext.trans (.place y f v), fun hx => (hvalid hx).place f v⟩

end AdvancedIndexing

namespace Slot

variable {slot slot' slot'' : Slot}

/-- The pending changes of a slot, oldest first. -/
def diff : Slot → List (Update Binary64)
  | .contents c => c.elements.diff
  | .translated diff => diff
  | .gathered x => x.values.diff
  | _ => []

/-- The second slot was reached from the first one by edits. -/
inductive Extends : Slot → Slot → Prop
  | constant : Extends .constant .constant
  | contents {c c' : Variable.Contents} (h : c.Extends c') : Extends (.contents c) (.contents c')
  | translated (diff diff' : List (Update Binary64)) : Extends (.translated diff) (.translated diff')
  | gathered {x x' : Gathered} (h : x.Extends x') (hvalid : x.Valid → x'.Valid) :
      Extends (.gathered x) (.gathered x')
  | watched (xs : List Binary64) : Extends (.watched xs) (.watched xs)

theorem Extends.refl (slot : Slot) : slot.Extends slot := by
  cases slot with
  | constant => exact .constant
  | contents c => exact .contents (.refl c)
  | translated diff => exact .translated diff diff
  | gathered x => exact .gathered (.refl x) id
  | watched xs => exact .watched xs

theorem Extends.trans (h : slot.Extends slot') (h' : slot'.Extends slot'') :
    slot.Extends slot'' := by
  cases h with
  | constant => exact h'
  | contents h =>
    cases h' with
    | contents h' => exact .contents (h.trans h')
  | translated diff diff' =>
    cases h' with
    | translated _ diff'' => exact .translated diff diff''
  | gathered h hvalid =>
    cases h' with
    | gathered h' hvalid' => exact .gathered (h.trans h') fun hx => hvalid' (hvalid hx)
  | watched xs => exact h'

theorem Extends.owns {node : Node} (h : slot.Extends slot') (ho : node.Owns slot) :
    node.Owns slot' := by
  cases ho with
  | constant c => cases h; exact .constant c
  | leaf v c => cases h; exact .leaf v _
  | basic b diff => cases h; exact .basic b _
  | advanced a x => cases h; exact .advanced a _
  | validation w xs => cases h; exact .validation w xs

/-- Nothing in the slot is pending. -/
def Clean : Slot → Prop
  | .contents c => c.Clean
  | .translated diff => diff = []
  | .gathered x => x.Clean ∧ x.Valid
  | _ => True

/-- Nothing that a diff shows is pending in the slot. -/
def Quiet : Slot → Prop
  | .contents c => c.Clean
  | .translated diff => diff = []
  | .gathered x => x.values.Clean
  | _ => True

/-- The stack of a list has pending records only if its items have some. -/
def Linked : Slot → Prop
  | .contents c => c.Linked
  | _ => True

/-- The slot has a committed state to go back to. -/
structure Tracked (slot : Slot) : Prop where
  base : ∃ base : Slot, base.Clean ∧ base.Extends slot
  linked : slot.Linked

/-- The slot with its pending changes committed.  What a check watches is not
among them. -/
def commit : Slot → Slot
  | .contents c => .contents c.commit
  | .translated _ => .translated []
  | .gathered x => .gathered x.commit
  | slot => slot

/-- The slot with its pending changes taken back. -/
def revert : Slot → Slot
  | .contents c => .contents c.revert
  | .translated _ => .translated []
  | .gathered x => .gathered x.revert
  | slot => slot

theorem Clean.quiet (h : slot.Clean) : slot.Quiet := by
  cases slot with
  | gathered x => exact h.1.1
  | _ => exact h

theorem Clean.tracked (h : slot.Clean) : slot.Tracked where
  base := ⟨slot, h, .refl slot⟩
  linked := by
    cases slot with
    | contents c => exact h.linked
    | _ => trivial

theorem Tracked.extends (h : slot.Tracked) (he : slot.Extends slot') (hl : slot'.Linked) :
    slot'.Tracked := by
  obtain ⟨base, hclean, hbase⟩ := h.base
  exact ⟨⟨base, hclean, hbase.trans he⟩, hl⟩

theorem Quiet.diff_eq (h : slot.Quiet) : slot.diff = [] := by
  cases slot with
  | contents c => exact congrArg List.reverse h.elements.1
  | translated diff => exact h
  | gathered x => exact congrArg List.reverse h.1
  | _ => rfl

/-- A slot with an empty diff is as it was committed, its offsets apart. -/
theorem Tracked.quiet (h : slot.Tracked) (hdiff : slot.diff = []) : slot.Quiet := by
  obtain ⟨base, hclean, hbase⟩ := h.base
  cases hbase with
  | contents hc => exact hc.clean_of_linked hclean h.linked (List.reverse_eq_nil_iff.mp hdiff)
  | translated => exact hdiff
  | gathered hx => exact hx.values.clean_of_log hclean.1.1 (List.reverse_eq_nil_iff.mp hdiff)
  | _ => trivial

/-- **Reverting brings a view back**, whatever was done to a quiet slot. -/
theorem Quiet.revert (h : slot.Quiet) (he : slot.Extends slot') :
    slot'.revert.bare = slot.bare ∧ slot'.revert.Quiet := by
  cases he with
  | contents hc =>
    have heq := hc.revert_eq h
    simp only [Slot.revert, heq]
    exact ⟨trivial, h⟩
  | gathered hx =>
    have heq := hx.values.revert_eq h
    simp only [Slot.revert, Gathered.revert, bare, heq]
    exact ⟨trivial, h⟩
  | translated => exact ⟨rfl, rfl⟩
  | _ => exact ⟨rfl, trivial⟩

theorem Clean.revert_eq (h : slot.Clean) : slot.revert = slot := by
  cases slot with
  | contents c => exact congrArg contents ((Variable.Contents.Extends.refl c).revert_eq h)
  | translated diff => exact congrArg translated (Eq.symm h)
  | gathered x => exact congrArg gathered (Gathered.Clean.revert_eq h.1)
  | _ => rfl

theorem bare_commit (slot : Slot) : slot.commit.bare = slot.bare := by
  cases slot with
  | contents c => simp only [commit, bare, Variable.Contents.elements_commit]; rfl
  | _ => rfl

theorem Tracked.clean_commit (h : slot.Tracked) : slot.commit.Clean := by
  obtain ⟨base, hclean, hbase⟩ := h.base
  cases hbase with
  | contents hc => exact Variable.Contents.clean_commit _
  | translated => exact rfl
  | gathered hx hvalid =>
    exact ⟨⟨Journal.clean_commit _, Journal.clean_commit _⟩, (hvalid hclean.2).commit⟩
  | _ => trivial

theorem Tracked.clean_revert (h : slot.Tracked) : slot.revert.Clean := by
  obtain ⟨base, hclean, hbase⟩ := h.base
  cases hbase with
  | contents hc =>
    simp only [Slot.revert, hc.revert_eq hclean]
    exact hclean
  | translated => exact rfl
  | gathered hx hvalid =>
    obtain ⟨hvalues, hoffsets, hreaders⟩ := hx.revert hclean.1 (hvalid hclean.2)
    refine ⟨⟨?_, ?_⟩, ?_, ?_⟩
    · rw [hvalues]
      exact hclean.1.1
    · rw [hoffsets]
      exact hclean.1.2
    · rw [hvalues, hoffsets]
      exact hclean.2.sizes
    · rw [hoffsets]
      exact hreaders
  | _ => trivial

/-- Going on with contents does not change what they revert to. -/
theorem Tracked.revert_eq {c c' : Variable.Contents} (h : (contents c).Tracked)
    (he : c.Extends c') : c'.revert = c.revert := by
  obtain ⟨base, hclean, hbase⟩ := h.base
  cases hbase with
  | contents hbase => rw [hbase.revert_eq hclean, (hbase.trans he).revert_eq hclean]

/-- A slot that has nothing pending is clean, offsets included. -/
theorem Tracked.clean (h : slot.Tracked) (hquiet : slot.Quiet)
    (hoffsets : ∀ x, slot = .gathered x → x.offsets.log = []) : slot.Clean := by
  obtain ⟨base, hclean, hbase⟩ := h.base
  cases hbase with
  | gathered hx hvalid =>
    exact ⟨⟨hquiet, hx.offsets.clean_of_log hclean.1.2 (hoffsets _ rfl)⟩, hvalid hclean.2⟩
  | _ => exact hquiet

end Slot

namespace Graph

variable {g : Graph} {s t : State} {id : NodeId} {node : Node} {slot new : Slot}

/-- No slot has anything pending. -/
def AllClean (g : Graph) (s : State) : Prop :=
  ∀ (i : Nat) (slot : Slot), i < g.size → s.slot? i = some slot → slot.Clean

/-- The diff of an array is that of its slot. -/
theorem diffAt_of_owns {d : Description}
    (hd : g.describe id = .ok d) (hn : g.nodes[id]? = some node) (ho : node.Owns slot)
    (hs : s.slot? id = some slot) : g.diffAt s id = .ok slot.diff := by
  cases ho with
  | constant c => rw [diffAt_constant hn]; rfl
  | leaf v c => rw [diffAt_leaf hn, State.contents_eq hs]; rfl
  | basic b diff => rw [diffAt_basic hn, State.translated_eq hs]; rfl
  | advanced a x => rw [diffAt_advanced hn, State.gathered_eq hs]; rfl
  | validation w xs => cases description?_eq hn hd

/-- The step of a basic selection translates the diff of its source. -/
theorem propagateSlot_basic {b : BasicIndexing} {diff : List (Update Binary64)} :
    g.propagateSlot t (.basic b) (.translated diff) = .ok new ↔ ∃ source translated,
      g.diffAt t b.source = .ok source ∧ b.translateDiff source = .ok translated ∧
        new = .translated translated := by
  unfold propagateSlot
  rw [Outcome.map_eq_ok]
  constructor
  · rintro ⟨translated, hrun, rfl⟩
    obtain ⟨source, hsource, htranslated⟩ := Outcome.bind_eq_ok.mp hrun
    exact ⟨source, translated, hsource, htranslated, rfl⟩
  · rintro ⟨source, translated, hsource, htranslated, rfl⟩
    exact ⟨translated, Outcome.bind_eq_ok.mpr ⟨source, hsource, htranslated⟩, rfl⟩

/-- What the step of an advanced selection looks up, and what it makes of
it. -/
theorem propagateSlot_advanced {a : AdvancedIndexing} {x : Gathered}
    (h : g.propagateSlot t (.advanced a) (.gathered x) = .ok new) :
    ∃ b source views indexerDiffs sourceDiff x',
      (g.blocksOf t a = .ok b ∧ g.viewAt t a.source = .ok source ∧
        g.indexerViews t a = .ok views ∧
        a.indexers.mapM (g.diffAt t ·.node) = .ok indexerDiffs ∧
        g.diffAt t a.source = .ok sourceDiff) ∧
      a.refresh b views source indexerDiffs sourceDiff x = .ok x' ∧ new = .gathered x' := by
  obtain ⟨b, hblocks, h⟩ := Outcome.bind_eq_ok.mp h
  obtain ⟨indexerDiffs, hindexerDiffs, h⟩ := Outcome.bind_eq_ok.mp h
  obtain ⟨sourceDiff, hsourceDiff, h⟩ := Outcome.bind_eq_ok.mp h
  obtain ⟨source, hsource, h⟩ := Outcome.bind_eq_ok.mp h
  obtain ⟨views, hviews, h⟩ := Outcome.bind_eq_ok.mp h
  obtain ⟨x', hrefresh, h⟩ := Outcome.bind_eq_ok.mp h
  exact ⟨b, source, views, indexerDiffs, sourceDiff, x',
    ⟨hblocks, hsource, hviews, hindexerDiffs, hsourceDiff⟩, hrefresh, (Except.ok.inj h).symm⟩

/-- The default slot of an advanced selection is read off entry by entry. -/
theorem defaultSlot_advanced {a : AdvancedIndexing}
    (h : g.defaultSlot t (.advanced a) = .ok new) :
    ∃ b source views entries,
      (g.blocksOf t a = .ok b ∧ g.viewAt t a.source = .ok source ∧
        g.indexerViews t a = .ok views) ∧
      (b.count = .ok b.size ∧ b.size ≤ maxElements) ∧
      (List.range b.size).mapM (a.entry b views source) = .ok entries ∧
      new = .gathered (.ofEntries entries) := by
  obtain ⟨b, hblocks, h⟩ := Outcome.bind_eq_ok.mp h
  obtain ⟨source, hsource, h⟩ := Outcome.bind_eq_ok.mp h
  obtain ⟨views, hviews, h⟩ := Outcome.bind_eq_ok.mp h
  obtain ⟨x, hx, h⟩ := Outcome.bind_eq_ok.mp h
  obtain ⟨n, hcount, hx⟩ := Outcome.bind_eq_ok.mp hx
  obtain ⟨_, hroom, hx⟩ := Outcome.bind_eq_ok.mp hx
  obtain ⟨entries, hentries, rfl⟩ := Outcome.map_eq_ok.mp hx
  obtain ⟨-, -, rfl⟩ := Blocks.count_eq_ok.mp hcount
  exact ⟨b, source, views, entries, ⟨hblocks, hsource, hviews⟩,
    ⟨hcount, Outcome.check_eq_ok.mp hroom⟩, hentries, (Except.ok.inj h).symm⟩

/-- Propagating goes on with the journals of a slot. -/
theorem propagateSlot_extends (ho : node.Owns slot) (h : g.propagateSlot t node slot = .ok new) :
    slot.Extends new ∧ (slot.Linked → new.Linked) := by
  cases ho with
  | basic b diff =>
    obtain ⟨_, _, -, -, rfl⟩ := propagateSlot_basic.mp h
    exact ⟨.translated _ _, id⟩
  | advanced a x =>
    obtain ⟨_, _, _, _, _, x', -, hx, rfl⟩ := propagateSlot_advanced h
    obtain ⟨hext, hvalid⟩ := AdvancedIndexing.refresh_extends hx
    exact ⟨.gathered hext hvalid, id⟩
  | validation w xs =>
    obtain ⟨_, -, h⟩ := Outcome.bind_eq_ok.mp h
    obtain rfl := Except.ok.inj h
    exact ⟨.refl _, id⟩
  | _ =>
    obtain rfl := Except.ok.inj h
    exact ⟨.refl _, id⟩

/-- Committing changes nothing that a view sees. -/
theorem commitSlot_spec (ho : node.Owns slot) (h : g.commitSlot t node slot = .ok new) :
    node.Owns new ∧ new.bare = slot.bare ∧ (slot.Tracked → new.Clean) := by
  cases ho with
  | constant c =>
    obtain rfl := Except.ok.inj h
    exact ⟨.constant c, rfl, fun _ => trivial⟩
  | leaf v c =>
    obtain rfl := Except.ok.inj h
    exact ⟨.leaf v _, Slot.bare_commit (.contents c), Slot.Tracked.clean_commit⟩
  | basic b diff =>
    obtain rfl := Except.ok.inj h
    exact ⟨.basic b _, rfl, fun _ => rfl⟩
  | advanced a x =>
    obtain rfl := Except.ok.inj h
    exact ⟨.advanced a _, Slot.bare_commit (.gathered x), Slot.Tracked.clean_commit⟩
  | validation w xs =>
    obtain ⟨_, -, h⟩ := Outcome.bind_eq_ok.mp h
    obtain ⟨_, -, h⟩ := Outcome.bind_eq_ok.mp h
    obtain ⟨_, -, h⟩ := Outcome.bind_eq_ok.mp h
    obtain rfl := Except.ok.inj h
    exact ⟨.validation w _, rfl, fun _ => trivial⟩

/-- A commit, and what a check watches from then on. -/
theorem commitSlot_eq (ho : node.Owns slot) (h : g.commitSlot t node slot = .ok new) :
    new = slot.commit ∨ ∃ xs ys, slot = .watched xs ∧ new = .watched ys := by
  cases ho with
  | validation w xs =>
    obtain ⟨_, -, h⟩ := Outcome.bind_eq_ok.mp h
    obtain ⟨_, -, h⟩ := Outcome.bind_eq_ok.mp h
    obtain ⟨ys, -, h⟩ := Outcome.bind_eq_ok.mp h
    exact .inr ⟨xs, ys, rfl, (Except.ok.inj h).symm⟩
  | _ => exact .inl (Except.ok.inj h).symm

theorem revertSlot_eq (ho : node.Owns slot) (h : g.revertSlot t node slot = .ok new) :
    node.Owns new ∧ new = slot.revert := by
  cases ho with
  | constant c =>
    obtain rfl := Except.ok.inj h
    exact ⟨.constant c, rfl⟩
  | leaf v c =>
    obtain rfl := Except.ok.inj h
    exact ⟨.leaf v _, rfl⟩
  | basic b diff =>
    obtain rfl := Except.ok.inj h
    exact ⟨.basic b _, rfl⟩
  | advanced a x =>
    obtain rfl := Except.ok.inj h
    exact ⟨.advanced a _, rfl⟩
  | validation w xs =>
    obtain ⟨_, -, h⟩ := Outcome.bind_eq_ok.mp h
    obtain rfl := Except.ok.inj h
    exact ⟨.validation w xs, rfl⟩

/-- A default slot has no history. -/
theorem defaultSlot_clean (h : g.defaultSlot t node = .ok new) : node.Owns new ∧ new.Clean := by
  cases node with
  | constant c =>
    obtain rfl := Except.ok.inj h
    exact ⟨.constant c, trivial⟩
  | leaf v =>
    obtain ⟨c, hc, rfl⟩ := Outcome.map_eq_ok.mp h
    obtain ⟨-, -, rfl⟩ := Variable.defaults_eq_ok.mp hc
    exact ⟨.leaf v _, Variable.clean_initial v⟩
  | basic b =>
    obtain rfl := Except.ok.inj h
    exact ⟨.basic b _, rfl⟩
  | advanced a =>
    obtain ⟨_, _, _, entries, -, -, -, rfl⟩ := defaultSlot_advanced h
    exact ⟨.advanced a _, Gathered.clean_ofEntries entries, Gathered.valid_ofEntries entries⟩
  | validation w =>
    obtain ⟨xs, -, h⟩ := Outcome.bind_eq_ok.mp h
    obtain rfl := Except.ok.inj h
    exact ⟨.validation w xs, trivial⟩

end Graph
end ArrayFlow
