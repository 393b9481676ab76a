import ArrayFlow.Proofs.AdvancedIndexing
import ArrayFlow.Proofs.Reading

/-!
# Where the arrays of a graph are looked at

A view is a buffer with a start, extents and strides.  The start and the
strides make up its **frame**, and they are the same in every state: a step
along a growing axis is as long as a row, however many rows there are.  So it
depends on the graph alone whether the frame of an array can be computed in
machine words (`Framed`), and a view has its frame (`frame_of_viewAt`).

What is made from an array can need more than its frame: the elements and the
rows of a `Plain` array can be counted too, and a graph is `InWords` if what its
nodes gather and compare can be computed in words.
-/

namespace ArrayFlow

/-- The frame of a buffer under a shape. -/
def Shape.frame (shape : Shape) : Except Fault (Nat × List Int) :=
  (fun strides => (0, strides.map signedWord)) <$> shape.strides

theorem Shape.frame_eq_error {shape : Shape} {f : Fault} (h : shape.frame = .error f) :
    f = .overflow :=
  (Shape.strides_eq_error.mp (Outcome.map_eq_error.mp h)).2.symm

theorem Shape.frame_eq_ok {shape : Shape} {f : Nat × List Int} :
    shape.frame = .ok f ↔ shape.LaysOut ∧ (0, shape.weights.map signedWord) = f := by
  unfold Shape.frame
  rw [Outcome.map_eq_ok]
  constructor
  · rintro ⟨ss, hss, rfl⟩
    obtain ⟨hlays, rfl⟩ := Shape.strides_eq_ok.mp hss
    exact ⟨hlays, rfl⟩
  · rintro ⟨hlays, rfl⟩
    exact ⟨_, Shape.strides_eq_ok.mpr ⟨hlays, rfl⟩, rfl⟩

/-- The view of a buffer has the frame of its shape. -/
theorem frame_of_bufferView {shape : Shape} {values : Array Binary64} {v : View}
    (h : Graph.bufferView shape values = .ok v) :
    shape.frame = .ok (v.offset, v.strides) ∧ v = .ofArray values (shape.extentsOf values.size) := by
  obtain ⟨extents, hextents, h⟩ := Outcome.bind_eq_ok.mp h
  obtain ⟨hrow, rfl⟩ := Shape.resolve_eq_ok.mp hextents
  obtain ⟨hlays, rfl⟩ := View.layOut_eq_ok.mp h
  cases shape with
  | static ns => exact ⟨Shape.frame_eq_ok.mpr ⟨⟨hrow, hlays⟩, rfl⟩, rfl⟩
  | dynamic ns =>
    refine ⟨Shape.frame_eq_ok.mpr ⟨⟨hrow, ?_⟩, rfl⟩, rfl⟩
    refine @Shape.laysOut_withRows (.dynamic ns) (values.size / RowMajor.size ns) 0 hlays ?_
    rw [Shape.sizeWith_of_isDynamic rfl, Nat.zero_mul]
    exact Nat.two_pow_pos 64

/-- A buffer is laid out under its shape, if its rows are. -/
theorem bufferView_eq {shape : Shape} {values : Array Binary64} (h : shape.LaysOut)
    (hsize : RowMajor.size (shape.extentsOf values.size) < 2 ^ 64) :
    Graph.bufferView shape values = .ok (.ofArray values (shape.extentsOf values.size)) := by
  refine Outcome.bind_eq_ok.mpr ⟨_, Shape.resolve_eq_ok.mpr ⟨h.1, rfl⟩, ?_⟩
  refine View.layOut_eq_ok.mpr ⟨?_, rfl⟩
  cases shape with
  | static ns => exact h.2
  | dynamic ns => exact Shape.laysOut_withRows (s := .dynamic ns) h.2 hsize

theorem bufferView_eq_error {shape : Shape} {values : Array Binary64} {f : Fault}
    (h : Graph.bufferView shape values = .error f) : f = .overflow := by
  rcases Outcome.bind_eq_error.mp h with h | ⟨extents, -, h⟩
  · rw [Shape.resolve_eq, Outcome.if_eq_error] at h
    exact h.2.symm
  · rw [View.layOut_eq, Outcome.if_eq_error] at h
    exact h.2.symm

/-- A view of a basic selection has the frame that is computed from that of
its source. -/
theorem BasicIndexing.frame_of_view {b : BasicIndexing} {v w : View}
    (hlen : b.axes.length = v.extents.length) (hs : v.strides.length = v.extents.length)
    (h : b.view v = .ok w) :
    b.frame v.offset v.strides = .ok (w.offset, w.strides) ∧
      w.extents = AxisMap.extentsFrom b.axes v.extents ∧ w.strides.length = w.extents.length := by
  obtain ⟨parts, hparts, h⟩ := Outcome.bind_eq_ok.mp h
  rw [AxisMap.restride_eq hlen hs] at hparts
  obtain ⟨f, hframe, rfl⟩ := Outcome.map_eq_ok.mp hparts
  obtain ⟨start, hstart, -, rfl⟩ := View.restride_eq_ok.mp h
  refine ⟨?_, rfl, AxisMap.length_frame hlen hs hframe⟩
  refine Outcome.bind_eq_ok.mpr ⟨_, hframe, ?_⟩
  exact Outcome.bind_eq_ok.mpr ⟨start, hstart, rfl⟩

namespace Graph

variable {g : Graph} {s : State} {id : NodeId} {node : Node} {d : Description}

/-- The frame of an array, along at most `links` links of a chain of basic
selections. -/
def frameWithin (g : Graph) : Nat → NodeId → Except Fault (Nat × List Int)
  | 0, _ => .error .noPosition
  | links + 1, id => do
    match ← g.nodeAt id with
    | .constant c => (fun strides => (0, strides.map signedWord)) <$> RowMajor.strides c.extents
    | .leaf v => v.shape.frame
    | .basic b => do
      let (start, strides) ← g.frameWithin links b.source
      b.frame start strides
    | .advanced a => a.shape.frame
    | .validation _ => throw (.notAnArray id)

/-- Where an array is looked at: the start of its view and the strides. -/
def frame (g : Graph) (id : NodeId) : Except Fault (Nat × List Int) := g.frameWithin (id + 1) id

theorem frameWithin_none (hn : g.nodes[id]? = none) (links : Nat) :
    g.frameWithin (links + 1) id = .error .noPosition := by
  rw [frameWithin, nodeAt, hn]
  rfl

theorem frameWithin_succ (hn : g.nodes[id]? = some node) (links : Nat) :
    g.frameWithin (links + 1) id = match node with
      | .constant c => (fun strides => (0, strides.map signedWord)) <$> RowMajor.strides c.extents
      | .leaf v => v.shape.frame
      | .basic b => g.frameWithin links b.source >>= fun f => b.frame f.1 f.2
      | .advanced a => a.shape.frame
      | .validation _ => .error (.notAnArray id) := by
  rw [frameWithin, nodeAt_eq hn]
  cases node with
  | _ => rfl

theorem frameWithin_eq {links : Nat} (h : id < links) : g.frameWithin links id = g.frame id := by
  induction id using Nat.strong_induction_on generalizing links with
  | _ id ih =>
    cases links with
    | zero => exact absurd h (Nat.not_lt_zero _)
    | succ links =>
      unfold frame
      cases hn : g.nodes[id]? with
      | none => rw [frameWithin_none hn, frameWithin_none hn]
      | some node =>
        rw [frameWithin_succ hn, frameWithin_succ hn]
        cases node with
        | basic b =>
          have hlt := lt_of_basic hn
          have hlinks := @ih b.source hlt links (Nat.lt_of_lt_of_le hlt (Nat.le_of_lt_succ h))
          have hid := @ih b.source hlt id hlt
          exact congrArg (· >>= fun f => b.frame f.1 f.2) (hlinks.trans hid.symm)
        | _ => rfl

theorem frame_constant {c : Constant} (hn : g.nodes[id]? = some (.constant c)) :
    g.frame id = (fun strides => (0, strides.map signedWord)) <$> RowMajor.strides c.extents :=
  frameWithin_succ hn id

theorem frame_leaf {v : Variable} (hn : g.nodes[id]? = some (.leaf v)) :
    g.frame id = v.shape.frame := frameWithin_succ hn id

theorem frame_basic {b : BasicIndexing} (hn : g.nodes[id]? = some (.basic b)) :
    g.frame id = g.frame b.source >>= fun f => b.frame f.1 f.2 := by
  rw [← frameWithin_eq (lt_of_basic hn)]
  exact frameWithin_succ hn id

theorem frame_advanced {a : AdvancedIndexing} (hn : g.nodes[id]? = some (.advanced a)) :
    g.frame id = a.shape.frame := frameWithin_succ hn id

/-- The frame of an array can be computed in machine words. -/
def Framed (g : Graph) (id : NodeId) : Prop := (g.frame id).isOk = true

instance (g : Graph) (id : NodeId) : Decidable (g.Framed id) := inferInstanceAs (Decidable (_ = _))

theorem Framed.of_eq {f : Nat × List Int} (h : g.frame id = .ok f) : g.Framed id := by
  rw [Framed, h]
  rfl

theorem Framed.laysOut_constant {c : Constant} (h : g.Framed id)
    (hn : g.nodes[id]? = some (.constant c)) : RowMajor.LaysOut c.extents := by
  obtain ⟨f, hf⟩ := Outcome.exists_ok h
  rw [frame_constant hn] at hf
  obtain ⟨ss, hss, -⟩ := Outcome.map_eq_ok.mp hf
  exact (RowMajor.strides_eq_ok.mp hss).1

theorem Framed.laysOut_leaf {v : Variable} (h : g.Framed id)
    (hn : g.nodes[id]? = some (.leaf v)) : v.shape.LaysOut := by
  obtain ⟨f, hf⟩ := Outcome.exists_ok h
  exact (Shape.frame_eq_ok.mp ((frame_leaf hn).symm.trans hf)).1

theorem Framed.laysOut_advanced {a : AdvancedIndexing} (h : g.Framed id)
    (hn : g.nodes[id]? = some (.advanced a)) : a.shape.LaysOut := by
  obtain ⟨f, hf⟩ := Outcome.exists_ok h
  exact (Shape.frame_eq_ok.mp ((frame_advanced hn).symm.trans hf)).1

theorem Framed.source {b : BasicIndexing} (h : g.Framed id) (hn : g.nodes[id]? = some (.basic b)) :
    g.Framed b.source := by
  obtain ⟨f, hf⟩ := Outcome.exists_ok h
  rw [frame_basic hn] at hf
  obtain ⟨f', hf', -⟩ := Outcome.bind_eq_ok.mp hf
  exact .of_eq hf'

/-- An array whose frame cannot be computed overflows. -/
theorem Built.frame_eq_error (h : g.Built) (hd : g.describe id = .ok d) {f : Fault}
    (hf : g.frame id = .error f) : f = .overflow := by
  induction id using Nat.strong_induction_on generalizing d with
  | _ id ih =>
    obtain ⟨node, hn, hnd⟩ := describe_eq_ok.mp hd
    cases node with
    | constant c =>
      rw [frame_constant hn, Outcome.map_eq_error, RowMajor.strides_eq, Outcome.if_eq_error] at hf
      exact hf.2.symm
    | leaf v => exact Shape.frame_eq_error ((frame_leaf hn).symm.trans hf)
    | advanced a => exact Shape.frame_eq_error ((frame_advanced hn).symm.trans hf)
    | validation w => cases hnd
    | basic b =>
      rw [frame_basic hn] at hf
      rcases Outcome.bind_eq_error.mp hf with hsource | ⟨_, -, hf⟩
      · exact ih b.source (lt_of_basic hn) (h.promises hn).1 hsource
      · exact BasicIndexing.frame_eq_error hf

/-- The elements of a row can be counted where the array is dynamic and can be
looked at. -/
theorem Built.countRow_of_framed (h : g.Built) (hd : g.describe id = .ok d) (hf : g.Framed id)
    (hdyn : d.shape.isDynamic = true) : d.shape.countRow = .ok d.shape.rowSize := by
  obtain ⟨node, hn, hnd⟩ := describe_eq_ok.mp hd
  cases node with
  | constant c =>
    obtain rfl := Option.some.inj hnd
    cases hdyn
  | leaf v =>
    obtain rfl := Option.some.inj hnd
    rw [Variable.description_shape]
    exact Shape.countRow_eq_ok.mpr ⟨(hf.laysOut_leaf hn).1, rfl⟩
  | basic b =>
    obtain rfl := Option.some.inj hnd
    exact (h.promises hn).2.countRow
  | advanced a =>
    obtain rfl := Option.some.inj hnd
    exact Shape.countRow_eq_ok.mpr ⟨(hf.laysOut_advanced hn).1, rfl⟩
  | validation w => cases hnd

/-- A view has an extent and a stride for each axis of its array, and the frame
of the array. -/
theorem Built.frame_of_viewAt (h : g.Built) (hd : g.describe id = .ok d) {v : View}
    (hv : g.viewAt s id = .ok v) :
    g.frame id = .ok (v.offset, v.strides) ∧ v.strides.length = v.extents.length ∧
      ∃ rows, v.extents = d.shape.withRows rows := by
  induction id using Nat.strong_induction_on generalizing d v with
  | _ id ih =>
    obtain ⟨node, hn, hnd⟩ := describe_eq_ok.mp hd
    have hbuffer : ∀ {shape : Shape} {values : Array Binary64},
        bufferView shape values = .ok v → d.shape = shape → g.frame id = shape.frame →
          g.frame id = .ok (v.offset, v.strides) ∧ v.strides.length = v.extents.length ∧
            ∃ rows, v.extents = d.shape.withRows rows := by
      rintro shape values hv rfl hframe
      obtain ⟨heq, rfl⟩ := frame_of_bufferView hv
      refine ⟨hframe.trans heq, (View.ofArray_flagged values _).length_strides, ?_⟩
      cases d.shape with
      | static ns => exact ⟨0, rfl⟩
      | dynamic ns => exact ⟨_, rfl⟩
    cases node with
    | constant c =>
      obtain rfl := Option.some.inj hnd
      rw [viewAt_constant hn] at hv
      obtain ⟨hlays, rfl⟩ := View.layOut_eq_ok.mp hv
      refine ⟨?_, (View.ofArray_flagged c.values _).length_strides, 0, rfl⟩
      rw [frame_constant hn, RowMajor.strides_eq, if_pos hlays]
      rfl
    | leaf v =>
      obtain rfl := Option.some.inj hnd
      rw [viewAt_leaf hn] at hv
      obtain ⟨values, -, hv⟩ := Outcome.bind_eq_ok.mp hv
      exact hbuffer hv (Variable.description_shape id v) (frame_leaf hn)
    | advanced a =>
      obtain rfl := Option.some.inj hnd
      rw [viewAt_advanced hn] at hv
      obtain ⟨values, -, hv⟩ := Outcome.bind_eq_ok.mp hv
      exact hbuffer hv rfl (frame_advanced hn)
    | basic b =>
      obtain rfl := Option.some.inj hnd
      obtain ⟨hsource, hfits⟩ := h.promises hn
      rw [viewAt_basic hn] at hv
      obtain ⟨w, hw, hv⟩ := Outcome.bind_eq_ok.mp hv
      obtain ⟨hframe, hs, rows, hrows⟩ := ih b.source (lt_of_basic hn) hsource hw
      have hlen : b.axes.length = w.extents.length := by
        rw [hrows, Shape.length_withRows, ← hfits.axes.length_eq, Shape.length_dims]
      obtain ⟨hb, hextents, hlen'⟩ := BasicIndexing.frame_of_view hlen hs hv
      refine ⟨?_, hlen', rows, ?_⟩
      · rw [frame_basic hn, hframe]
        exact hb
      · rw [hextents, hrows]
        exact BasicIndexing.extentsFrom_withRows hfits rows
    | validation w => cases hnd

/-- What has been read has a frame, and can be counted. -/
theorem Built.readable_of_toList (h : g.Built) (hd : g.describe id = .ok d) {v : View}
    (hv : g.viewAt s id = .ok v) {xs : List Binary64} (hxs : v.toList = .ok xs) :
    g.Framed id ∧ d.shape.Counts := by
  obtain ⟨hframe, -, rows, hrows⟩ := h.frame_of_viewAt hd hv
  have hcounted := (View.count_eq_ok.mp (View.toList_eq_ok hxs).1).1
  rw [hrows] at hcounted
  refine ⟨.of_eq hframe, ?_⟩
  cases hs : d.shape with
  | static ns => rwa [hs] at hcounted
  | dynamic ns => trivial

/-! ### Graphs in words -/

/-- An array that can be looked at, and whose elements and rows can be
counted. -/
structure Plain (g : Graph) (id : NodeId) (d : Description) : Prop where
  framed : g.Framed id
  counts : d.shape.Counts
  row : d.shape.countRow = .ok d.shape.rowSize

instance (g : Graph) (id : NodeId) (d : Description) : Decidable (g.Plain id d) :=
  decidable_of_iff (g.Framed id ∧ d.shape.Counts ∧ d.shape.countRow = .ok d.shape.rowSize)
    ⟨fun ⟨hframed, hcounts, hrow⟩ => ⟨hframed, hcounts, hrow⟩,
      fun h => ⟨h.framed, h.counts, h.row⟩⟩

/-- A variable that can be counted is plain if it can be looked at. -/
theorem Framed.plain_leaf {v : Variable} (h : g.Framed id) (hn : g.nodes[id]? = some (.leaf v))
    (hc : v.Counts) : g.Plain id (v.description id) := by
  have hlays := h.laysOut_leaf hn
  refine ⟨h, ?_, ?_⟩
  · rw [Variable.description_shape]
    cases v with
    | integer v => exact (IntegerVariable.count_eq_ok.mp hc).1
    | rows v => trivial
    | list v =>
      show v.shape.Counts
      have hall : RowMajor.LaysOut (v.shape.withRows 0) := hlays.2
      by_cases hgrowing : v.growing = true
      · rw [ListVariable.shape, if_pos hgrowing]
        trivial
      · rw [ListVariable.shape, if_neg hgrowing] at hall ⊢
        exact RowMajor.countsFrom_singleton.mpr hall.size_lt
  · rw [Variable.description_shape]
    exact Shape.countRow_eq_ok.mpr ⟨hlays.1, rfl⟩

/-- An advanced selection can look at what it reads and count what it makes of
it, if there is room. -/
structure GathersAt (g : Graph) (a : AdvancedIndexing) : Prop where
  source : g.Framed a.source
  indexers : ∀ ix ∈ a.indexers, g.Framed ix.node
  broadcast : a.broadcast.Counts
  blocks : (a.blocksAt 0 (a.broadcast.sizeWith 0)).Counts

instance (g : Graph) (a : AdvancedIndexing) : Decidable (g.GathersAt a) :=
  decidable_of_iff (g.Framed a.source ∧ (∀ ix ∈ a.indexers, g.Framed ix.node) ∧
      a.broadcast.Counts ∧ (a.blocksAt 0 (a.broadcast.sizeWith 0)).Counts)
    ⟨fun ⟨hsource, hindexers, hbroadcast, hblocks⟩ => ⟨hsource, hindexers, hbroadcast, hblocks⟩,
      fun h => ⟨h.source, h.indexers, h.broadcast, h.blocks⟩⟩

/-- The advanced selections before the node `n` can be computed in words. -/
def GathersBelow (g : Graph) (n : Nat) : Prop :=
  ∀ (id : Nat) (a : AdvancedIndexing), id < n → g.nodes[id]? = some (.advanced a) → g.GathersAt a

/-- Every advanced selection can be computed in words. -/
def Gathers (g : Graph) : Prop := ∀ n, g.GathersBelow n

theorem Gathers.at (h : g.Gathers) {a : AdvancedIndexing} (hn : g.nodes[id]? = some (.advanced a)) :
    g.GathersAt a := h (id + 1) id a (Nat.lt_succ_self id) hn

theorem GathersBelow.mono {n m : Nat} (h : g.GathersBelow n) (hm : m ≤ n) : g.GathersBelow m :=
  fun id a hid hn => h id a (Nat.lt_of_lt_of_le hid hm) hn

/-- What a node computes fits into words: what a variable counts, what an advanced
selection gathers, and what a validation node compares. -/
def NodeInWords (g : Graph) : Node → Prop
  | .leaf v => v.Counts
  | .advanced a => g.GathersAt a
  | .validation w => ∀ d ∈ (g.describe w).toOption, g.Plain w d
  | _ => True

instance (g : Graph) : (node : Node) → Decidable (g.NodeInWords node)
  | .advanced a => inferInstanceAs (Decidable (g.GathersAt a))
  | .validation w => inferInstanceAs (Decidable (∀ d ∈ (g.describe w).toOption, g.Plain w d))
  | .constant _ => inferInstanceAs (Decidable True)
  | .leaf v => inferInstanceAs (Decidable v.Counts)
  | .basic _ => inferInstanceAs (Decidable True)

/-- What the nodes of a graph compute fits into words, as long as there is room
for the elements. -/
def InWords (g : Graph) : Prop :=
  ∀ (id : NodeId) (node : Node), g.nodes[id]? = some node → g.NodeInWords node

instance (g : Graph) : Decidable g.InWords :=
  decidable_of_iff (∀ i < g.size, ∀ node ∈ g.nodes[i]?, g.NodeInWords node) forall_nodes_iff

theorem InWords.gathers (h : g.InWords) : g.Gathers := fun _ id a _ hn => h id (.advanced a) hn

theorem InWords.plain (h : g.InWords) {w : NodeId} (hn : g.nodes[id]? = some (.validation w))
    (hd : g.describe w = .ok d) : g.Plain w d := by
  refine h id (.validation w) hn d ?_
  rw [hd]
  rfl

end Graph
end ArrayFlow
