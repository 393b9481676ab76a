import ArrayFlow.Graph.Basic
import ArrayFlow.Proofs.BasicIndexing
import ArrayFlow.Proofs.Binary64
import ArrayFlow.Proofs.Indexers
import ArrayFlow.Proofs.Variable

/-!
# What is known of every graph that was built

A graph is **built** by adding nodes that the constructors gave for its own
arrays.  Nodes are never taken away and a description never changes, so what
a constructor checked still holds of the finished graph (`Built.promises`).

From that follow the static facts about descriptions:

* `Built.min_le_max` — an array of whole numbers has bounds in order;
* `Built.origin` — the rows of a dynamic array are those of a variable;
* `Built.origin_not_mem` — an array outside a set that is closed under
  successors takes its rows from outside of the set.
-/

namespace ArrayFlow

namespace Constant

/-- Folding the minimum gives a number that no other value falls below. -/
theorem foldl_min_le {xs : List Binary64} {x : Binary64} (hx : x ≠ .nan) :
    xs.foldl Binary64.min x ≤ x ∧ ∀ y ∈ xs, y ≠ .nan → xs.foldl Binary64.min x ≤ y := by
  induction xs generalizing x with
  | nil => exact ⟨Binary64.le_refl hx, by simp⟩
  | cons z zs ih =>
    have hle := @Binary64.min_le_left x z hx
    have hmin := (Binary64.ne_nan_of_le hle).1
    obtain ⟨hfirst, hrest⟩ := ih hmin
    refine ⟨Binary64.le_trans hfirst hle, fun y hy hynan => ?_⟩
    rcases List.mem_cons.mp hy with rfl | hy
    · exact Binary64.le_trans hfirst (Binary64.min_le_right hynan)
    · exact hrest y hy hynan

theorem le_foldl_max {xs : List Binary64} {x : Binary64} (hx : x ≠ .nan) :
    x ≤ xs.foldl Binary64.max x ∧ ∀ y ∈ xs, y ≠ .nan → y ≤ xs.foldl Binary64.max x := by
  induction xs generalizing x with
  | nil => exact ⟨Binary64.le_refl hx, by simp⟩
  | cons z zs ih =>
    have hle := @Binary64.le_max_left x z hx
    have hmax := (Binary64.ne_nan_of_le hle).2
    obtain ⟨hfirst, hrest⟩ := ih hmax
    refine ⟨Binary64.le_trans hle hfirst, fun y hy hynan => ?_⟩
    rcases List.mem_cons.mp hy with rfl | hy
    · exact Binary64.le_trans (Binary64.le_max_right hynan) hfirst
    · exact hrest y hy hynan

/-- A value of a constant that is a number lies within its bounds. -/
theorem between (c : Constant) {x : Binary64} (hx : x ∈ c.values) (hnan : x ≠ .nan) :
    Between c.min c.max x := by
  have hne : c.values.isEmpty = false := by
    rw [Array.isEmpty_eq_false_iff]
    rintro h
    rw [h] at hx
    exact absurd hx (Array.not_mem_empty x)
  unfold Constant.min Constant.max
  rw [hne]
  simp only [Bool.false_eq_true, if_false, ← Array.foldl_toList]
  have hmem := Array.mem_toList_iff.mpr hx
  exact ⟨(@foldl_min_le c.values.toList (.infinity false) nofun).2 x hmem hnan,
    (@le_foldl_max c.values.toList (.infinity true) nofun).2 x hmem hnan⟩

theorem min_le_max (c : Constant) (h : c.integral = true) : c.min ≤ c.max := by
  cases hempty : c.values.isEmpty with
  | true =>
    unfold Constant.min Constant.max
    simp only [hempty, if_true]
    exact Binary64.le_refl Binary64.zero_ne_nan
  | false =>
    obtain ⟨x, hx⟩ := Array.exists_mem_of_ne_empty c.values (Array.isEmpty_eq_false_iff.mp hempty)
    have hwhole := Array.all_eq_true'.mp h x hx
    have hnan : x ≠ .nan := by rintro rfl; cases hwhole
    obtain ⟨hlo, hhi⟩ := c.between hx hnan
    exact Binary64.le_trans hlo hhi

/-- Folding with an operation that takes one of its arguments keeps what holds
of all of them. -/
theorem foldl_choose {P : Binary64 → Prop} {f : Binary64 → Binary64 → Binary64}
    (hf : ∀ a b, f a b = a ∨ f a b = b) {xs : List Binary64} {x : Binary64} (hx : P x)
    (h : ∀ y ∈ xs, P y) : P (xs.foldl f x) := by
  induction xs generalizing x with
  | nil => exact hx
  | cons y ys ih =>
    obtain ⟨hy, hys⟩ := List.forall_mem_cons.mp h
    refine ih ?_ hys
    rcases hf x y with heq | heq
    · rwa [heq]
    · rwa [heq]

theorem zero_le_min {c : Constant} (h : ∀ x ∈ c.values, .zero ≤ x) : .zero ≤ c.min := by
  unfold Constant.min
  split
  · exact Binary64.le_refl Binary64.zero_ne_nan
  · rw [← Array.foldl_toList]
    exact foldl_choose Binary64.min_eq_or (by decide +kernel)
      fun y hy => h y (Array.mem_toList_iff.mp hy)

theorem max_lt {c : Constant} {m : Binary64} (hm : .zero < m) (h : ∀ x ∈ c.values, x < m) :
    c.max < m := by
  have hinfinity : .infinity true < m := by
    obtain ⟨z, w, hz, hw, hzw⟩ := Binary64.lt_iff.mp hm
    obtain rfl := Option.some.inj (Binary64.place?_zero.symm.trans hz)
    have hlimit := Binary64.limit_pos
    exact Binary64.lt_iff.mpr ⟨-(Binary64.limit : Int), w, rfl, hw, by omega⟩
  unfold Constant.max
  split
  · exact hm
  · rw [← Array.foldl_toList]
    exact foldl_choose (P := (· < m)) Binary64.max_eq_or hinfinity
      fun y hy => h y (Array.mem_toList_iff.mp hy)

end Constant

/-- Whether a node is a constant with a NaN. -/
def Node.holdsNaN : Node → Bool
  | .constant c => decide (∃ x ∈ c.values.toList, x = .nan)
  | _ => false

namespace Graph

variable {g : Graph} {id : NodeId} {node : Node} {d : Description}

theorem node_eq_ok : g.node id = .ok node ↔ g.nodes[id]? = some node := by
  unfold Graph.node
  cases g.nodes[id]? with
  | none =>
    constructor
    · intro h
      cases h
    · intro h
      cases h
  | some node' =>
    constructor
    · intro h
      exact congrArg some (Except.ok.inj h)
    · intro h
      exact congrArg Except.ok (Option.some.inj h)

theorem describe_eq_ok :
    g.describe id = .ok d ↔ ∃ node, g.nodes[id]? = some node ∧ node.description? id = some d := by
  constructor
  · intro h
    obtain ⟨node, hn, h⟩ := Outcome.bind_eq_ok.mp h
    split at h
    · next d' hd =>
      obtain rfl := Except.ok.inj h
      exact ⟨node, node_eq_ok.mp hn, hd⟩
    · cases h
  · intro ⟨node, hn, hd⟩
    refine Outcome.bind_eq_ok.mpr ⟨node, node_eq_ok.mpr hn, ?_⟩
    rw [hd]
    rfl

/-- The description of a node that is known. -/
theorem description?_eq (hn : g.nodes[id]? = some node) (hd : g.describe id = .ok d) :
    node.description? id = some d := by
  obtain ⟨node', hn', hnd⟩ := describe_eq_ok.mp hd
  obtain rfl := Option.some.inj (hn.symm.trans hn')
  exact hnd

theorem lt_size (hn : g.nodes[id]? = some node) : id < g.size :=
  (Array.getElem?_eq_some_iff.mp hn).1

/-- What is asked of every node can be found out node by node. -/
theorem forall_nodes_iff {P : NodeId → Node → Prop} :
    (∀ i < g.size, ∀ node ∈ g.nodes[i]?, P i node) ↔
      ∀ (id : NodeId) (node : Node), g.nodes[id]? = some node → P id node := by
  constructor
  · intro h id node hn
    exact h id (lt_size hn) node hn
  · intro h i _ node hn
    exact h i node hn

/-- A node that a constructor gives for the arrays of a graph, or that needs
none. -/
inductive Offers (g : Graph) : Node → Prop
  | constant (c : Constant) : Offers g (.constant c)
  | leaf (v : Variable) : Offers g (.leaf v)
  | basic {source : NodeId} {selectors : List Selector} {node : Node}
      (h : g.basicIndexing source selectors = .ok node) : Offers g node
  | advanced {source : NodeId} {terms : List IndexTerm} {node : Node}
      (h : g.advancedIndexing source terms = .ok node) : Offers g node
  | validation (watched : NodeId) : Offers g (.validation watched)

/-- The graphs that can be built node by node. -/
inductive Built : Graph → Prop
  | empty (identity : Nat) : Built (.empty identity)
  | add {g g' : Graph} {node : Node} {id : NodeId} (h : Built g) (offered : g.Offers node)
      (added : Graph.add node g = .ok id g') : Built g'
  | freeze {g : Graph} (h : Built g) : Built g.freeze

/-- What a node was promised by its constructor. -/
def Promises (g : Graph) : Node → Prop
  | .basic b => g.describe b.source = .ok b.sourceDescription ∧ b.Fits
  | .advanced a => ∃ picked, a.Fits g.describe picked
  | _ => True

theorem Offers.promises (h : g.Offers node) : g.Promises node := by
  cases h with
  | constant c => trivial
  | leaf v => trivial
  | validation w => trivial
  | @basic source selectors _ h =>
    unfold basicIndexing at h
    obtain ⟨d, hd, h⟩ := Outcome.bind_eq_ok.mp h
    obtain ⟨b, hb, h⟩ := Outcome.bind_eq_ok.mp h
    obtain rfl := Except.ok.inj h
    obtain ⟨-, rfl, rfl, hfits⟩ := BasicIndexing.ofSelectors_fits hb
    exact ⟨Outcome.refusable_eq_ok.mp hd, hfits⟩
  | advanced h =>
    obtain ⟨a, ha, rfl⟩ := Outcome.map_eq_ok.mp h
    exact AdvancedIndexing.ofTerms_fits ha

/-- Promises outlast any growth that keeps the descriptions. -/
theorem Promises.mono {g' : Graph}
    (hd : ∀ i d, g.describe i = .ok d → g'.describe i = .ok d) (h : g.Promises node) :
    g'.Promises node := by
  cases node with
  | constant c => trivial
  | leaf v => trivial
  | validation w => trivial
  | basic b => exact ⟨hd _ _ h.1, h.2⟩
  | advanced a =>
    obtain ⟨picked, hfits⟩ := h
    exact ⟨picked, { hfits with
      source := hd _ _ hfits.source
      described := fun e he => hd _ _ (hfits.described e he) }⟩

/-- Adding puts the node behind the others. -/
theorem add_eq_ok {g' : Graph} (h : Graph.add node g = .ok id g') :
    id = g.size ∧ g'.nodes = g.nodes.push node ∧ g'.identity = g.identity := by
  unfold Graph.add at h
  obtain ⟨_, _, hget, h⟩ := Outcome.run_bind_eq_ok.mp h
  cases hget
  obtain ⟨-, h⟩ := Outcome.run_guard_eq_ok.mp h
  obtain ⟨-, h⟩ := Outcome.run_guard_eq_ok.mp h
  obtain ⟨c, hc, hdef⟩ : ∃ c : EStateM Refusal Graph NodeId, c g = .ok id g' ∧ c = _ := ⟨_, h, rfl⟩
  split at hdef
  · subst hdef
    cases hc
  · subst hdef
    cases hc
    exact ⟨rfl, rfl, rfl⟩

/-- The nodes that were there stay where they are. -/
theorem nodes_add {g' : Graph} (h : Graph.add node g = .ok id g') {i : NodeId} {n : Node}
    (hn : g.nodes[i]? = some n) : g'.nodes[i]? = some n := by
  have hlt := lt_size hn
  rw [(add_eq_ok h).2.1, Array.getElem?_push_lt hlt, ← hn, Array.getElem?_eq_getElem hlt]

theorem describe_add {g' : Graph} (h : Graph.add node g = .ok id g') {i : NodeId}
    (hd : g.describe i = .ok d) : g'.describe i = .ok d := by
  obtain ⟨n, hn, hnd⟩ := describe_eq_ok.mp hd
  exact describe_eq_ok.mpr ⟨n, nodes_add h hn, hnd⟩

/-- **Construction outlives itself.**  Each node of a graph that was built
has what its constructor promised. -/
theorem Built.promises (h : g.Built) (hn : g.nodes[id]? = some node) : g.Promises node := by
  induction h generalizing id node with
  | empty identity =>
    have hnone : (Graph.empty identity).nodes[id]? = none := Array.getElem?_eq_none (Nat.zero_le _)
    rw [hnone] at hn
    cases hn
  | @add g g' new i _ offered added ih =>
    rw [(add_eq_ok added).2.1, Array.getElem?_push] at hn
    split at hn
    · obtain rfl := Option.some.inj hn
      exact offered.promises.mono fun i d hd => describe_add added hd
    · exact (ih hn).mono fun i d hd => describe_add added hd
  | freeze _ ih => exact (ih hn).mono fun i d hd => hd

/-- The graph with one more node, made for it, if neither the node nor its
addition is refused. -/
def extend (g : Graph) (make : Graph → Except Failure Node) : Graph :=
  match make g with
  | .error _ => g
  | .ok node =>
    match Graph.add node g with
    | .ok _ g' => g'
    | .error _ _ => g

theorem Built.extend (h : g.Built) {make : Graph → Except Failure Node}
    (offered : ∀ n, make g = .ok n → g.Offers n) : (g.extend make).Built := by
  unfold Graph.extend
  split
  · exact h
  · next n hn =>
    split
    · next id g' added => exact h.add (offered n hn) added
    · exact h

theorem Built.extend_leaf (h : g.Built) (v : Except Failure Variable) :
    (g.extend fun _ => Node.leaf <$> v).Built := by
  refine h.extend fun n hn => ?_
  obtain ⟨v, -, rfl⟩ := Outcome.map_eq_ok.mp hn
  exact .leaf v

/-! ### Descriptions -/

/-- Whether there is an edge to the node `j` from the node `i`, which it
reads. -/
def reads (g : Graph) (j i : NodeId) : Bool := (g.dependencies.readers i).contains j

theorem reads_iff {i j : NodeId} :
    g.reads j i = true ↔ ∃ node, g.nodes[j]? = some node ∧ i ∈ node.predecessors :=
  List.contains_iff_mem.trans (g.wired i j)

/-- A set of nodes of the graph to which every node belongs that reads one of
them. -/
def Closed (g : Graph) (ids : List NodeId) : Prop :=
  (∀ i ∈ ids, i < g.size) ∧ ∀ i ∈ ids, ∀ j, g.reads j i = true → j ∈ ids

theorem Closed.not_mem_of_reads {ids : List NodeId} (h : g.Closed ids)
    (hn : g.nodes[id]? = some node) (hid : id ∉ ids) {p : NodeId} (hp : p ∈ node.predecessors) :
    p ∉ ids :=
  fun hmem => hid (h.2 p hmem id (reads_iff.mpr ⟨node, hn, hp⟩))

instance (g : Graph) (ids : List NodeId) : Decidable (g.Closed ids) :=
  decidable_of_iff
    ((∀ i ∈ ids, i < g.size) ∧ ∀ i ∈ ids, ∀ j ∈ g.dependencies.readers i, j ∈ ids)
    (and_congr_right fun _ => forall₂_congr fun _ _ => forall_congr' fun _ =>
      imp_congr_left List.contains_iff_mem.symm)

/-- Some constant of the graph holds a NaN. -/
def HoldsNaN (g : Graph) : Prop :=
  ∃ (i : NodeId) (c : Constant), g.nodes[i]? = some (.constant c) ∧ .nan ∈ c.values

instance (g : Graph) : Decidable g.HoldsNaN :=
  decidable_of_iff (¬ ∀ i < g.size, ∀ node ∈ g.nodes[i]?, node.holdsNaN = false) (by
    rw [forall_nodes_iff (P := fun _ node => node.holdsNaN = false)]
    constructor
    · intro h
      by_contra hnone
      refine h fun id node hn => ?_
      cases node with
      | constant c =>
        refine decide_eq_false ?_
        rintro ⟨x, hx, rfl⟩
        exact hnone ⟨id, c, hn, Array.mem_toList_iff.mp hx⟩
      | _ => rfl
    · rintro ⟨id, c, hn, hmem⟩ h
      exact of_decide_eq_false (h id _ hn) ⟨_, Array.mem_toList_iff.mpr hmem, rfl⟩)

theorem description_leaf {v : Variable} (hn : g.nodes[id]? = some (.leaf v))
    (hd : g.describe id = .ok d) : d = v.description id :=
  (Option.some.inj (description?_eq hn hd)).symm

theorem description_basic {b : BasicIndexing} (hn : g.nodes[id]? = some (.basic b))
    (hd : g.describe id = .ok d) : d = b.description id :=
  (Option.some.inj (description?_eq hn hd)).symm

theorem description_advanced {a : AdvancedIndexing} (hn : g.nodes[id]? = some (.advanced a))
    (hd : g.describe id = .ok d) : d = a.description id :=
  (Option.some.inj (description?_eq hn hd)).symm

theorem lt_of_basic {b : BasicIndexing} (hn : g.nodes[id]? = some (.basic b)) : b.source < id :=
  g.ordered id _ hn _ (by simp [Node.predecessors])

theorem lt_of_advanced {a : AdvancedIndexing} (hn : g.nodes[id]? = some (.advanced a)) :
    a.source < id ∧ ∀ ix ∈ a.indexers, ix.node < id :=
  ⟨g.ordered id _ hn _ (by simp [Node.predecessors, AdvancedIndexing.predecessors]),
    fun ix hix => g.ordered id _ hn _ (by
      simp only [Node.predecessors, AdvancedIndexing.predecessors, List.mem_cons, List.mem_map]
      exact .inr ⟨ix, hix, rfl⟩)⟩

theorem mem_indexers {a : AdvancedIndexing} {picked : List AdvancedIndexing.Picked}
    (hfits : a.Fits g.describe picked) {e : AdvancedIndexing.Picked} (he : e ∈ picked) :
    ⟨e.2.1, e.1.number, e.2.2.shape.rank == 0⟩ ∈ a.indexers := by
  rw [hfits.indexers]
  exact List.mem_map.mpr ⟨e, he, rfl⟩

theorem lt_of_picked {a : AdvancedIndexing} {picked : List AdvancedIndexing.Picked}
    (hn : g.nodes[id]? = some (.advanced a)) (hfits : a.Fits g.describe picked)
    {e : AdvancedIndexing.Picked} (he : e ∈ picked) : e.2.1 < id :=
  (lt_of_advanced hn).2 _ (mem_indexers hfits he)

/-- The bounds of an array of whole numbers are in order. -/
theorem Built.min_le_max (h : g.Built) (hd : g.describe id = .ok d) (hi : d.integral = true) :
    d.min ≤ d.max := by
  induction id using Nat.strong_induction_on generalizing d with
  | _ id ih =>
    obtain ⟨node, hn, hnd⟩ := describe_eq_ok.mp hd
    cases node with
    | constant c =>
      obtain rfl := Option.some.inj hnd
      exact c.min_le_max hi
    | leaf v =>
      obtain rfl := Option.some.inj hnd
      cases v with
      | integer v =>
        simp only [Variable.description, IntegerVariable.min, IntegerVariable.max]
        exact Binary64.ofInt_mono v.lower_le_upper
      | list v =>
        simp only [Variable.description, ListVariable.max]
        exact Binary64.zero_le_ofNat _
      | rows v => exact v.lower_le_upper
    | basic b =>
      obtain rfl := Option.some.inj hnd
      exact @ih b.source (lt_of_basic hn) b.sourceDescription (h.promises hn).1 hi
    | advanced a =>
      obtain rfl := Option.some.inj hnd
      obtain ⟨picked, hfits⟩ := h.promises hn
      exact @ih a.source (lt_of_advanced hn).1 a.sourceDescription hfits.source hi
    | validation w => cases hnd

theorem isDynamic_advanced {a : AdvancedIndexing} {picked : List AdvancedIndexing.Picked}
    (hfits : a.Fits g.describe picked) (hd : a.shape.isDynamic = true) :
    (a.broadcast.isDynamic = true ∧ ∃ e ∈ picked, e.2.2.shape.isDynamic = true ∧
        a.rows = some e.2.2.rows) ∨
      (a.broadcast.isDynamic = false ∧ a.sourceDescription.shape.isDynamic = true ∧
        a.rows = some a.sourceDescription.rows ∧ ∃ x ∈ a.pre, x.dim = .dynamic) := by
  cases hb : a.broadcast.isDynamic with
  | true =>
    obtain ⟨r, hr, ⟨e, he, hdyn, rfl⟩, -⟩ := hfits.rows_broadcast hb
    exact .inl ⟨rfl, e, he, hdyn, hr⟩
  | false =>
    refine .inr ⟨rfl, ?_, hfits.rows_source hb hd, ?_⟩
    all_goals
      have hmem := Shape.isDynamic_iff.mp hd
      rw [hfits.dims, List.append_assoc, List.mem_append, List.mem_append] at hmem
      rcases hmem with hpre | hbroadcast | hpost
    · obtain ⟨x, hx, hdim⟩ := List.mem_map.mp hpre
      exact Shape.isDynamic_iff.mpr (hdim ▸ hfits.pre_dims x hx)
    · exact absurd (Shape.isDynamic_iff.mpr hbroadcast) (by simp [hb])
    · obtain ⟨x, hx, hdim⟩ := List.mem_map.mp hpost
      exact absurd hdim (hfits.post_fixed x hx)
    · obtain ⟨x, hx, hdim⟩ := List.mem_map.mp hpre
      exact ⟨x, hx, hdim⟩
    · exact absurd (Shape.isDynamic_iff.mpr hbroadcast) (by simp [hb])
    · obtain ⟨x, hx, hdim⟩ := List.mem_map.mp hpost
      exact absurd hdim (hfits.post_fixed x hx)

/-- **Rows have an origin.**  A dynamic array takes its rows from a dynamic
variable, and with them their least number. -/
theorem Built.origin (h : g.Built) (hd : g.describe id = .ok d) (hdyn : d.shape.isDynamic = true) :
    ∃ v, g.nodes[d.rows.origin]? = some (.leaf v) ∧ v.shape.isDynamic = true ∧
      d.rows = (v.description d.rows.origin).rows := by
  induction id using Nat.strong_induction_on generalizing d with
  | _ id ih =>
    obtain ⟨node, hn, hnd⟩ := describe_eq_ok.mp hd
    cases node with
    | constant c =>
      obtain rfl := Option.some.inj hnd
      cases hdyn
    | leaf v =>
      obtain rfl := Option.some.inj hnd
      rw [Variable.description_shape] at hdyn
      cases v with
      | integer v => cases hdyn
      | list v => exact ⟨.list v, hn, hdyn, rfl⟩
      | rows v => exact ⟨.rows v, hn, hdyn, rfl⟩
    | basic b =>
      obtain rfl := Option.some.inj hnd
      obtain ⟨hsource, hfits⟩ := h.promises hn
      have hb : b.shape.isDynamic = true := hdyn
      have hrows : (b.description id).rows = b.sourceDescription.rows := if_pos hb
      rw [hrows]
      rw [BasicIndexing.isDynamic_shape hfits] at hb
      exact ih b.source (lt_of_basic hn) hsource hb
    | advanced a =>
      obtain rfl := Option.some.inj hnd
      obtain ⟨picked, hfits⟩ := h.promises hn
      rcases isDynamic_advanced hfits hdyn with ⟨-, e, he, hed, hrows⟩ | ⟨-, hsd, hrows, -⟩
      · have hr : (a.description id).rows = e.2.2.rows := by simp [AdvancedIndexing.description, hrows]
        rw [hr]
        exact ih e.2.1 (lt_of_picked hn hfits he) (hfits.described e he) hed
      · have hr : (a.description id).rows = a.sourceDescription.rows := by
          simp [AdvancedIndexing.description, hrows]
        rw [hr]
        exact ih a.source (lt_of_advanced hn).1 hfits.source hsd
    | validation w => cases hnd

/-- An array outside a closed set takes its rows from outside of it. -/
theorem Built.origin_not_mem (h : g.Built) {ids : List NodeId} (hc : g.Closed ids)
    (hd : g.describe id = .ok d) (hdyn : d.shape.isDynamic = true) (hid : id ∉ ids) :
    d.rows.origin ∉ ids := by
  induction id using Nat.strong_induction_on generalizing d with
  | _ id ih =>
    obtain ⟨node, hn, hnd⟩ := describe_eq_ok.mp hd
    cases node with
    | constant c =>
      obtain rfl := Option.some.inj hnd
      cases hdyn
    | leaf v =>
      obtain rfl := Option.some.inj hnd
      cases v <;> exact hid
    | basic b =>
      obtain rfl := Option.some.inj hnd
      obtain ⟨hsource, hfits⟩ := h.promises hn
      have hb : b.shape.isDynamic = true := hdyn
      have hrows : (b.description id).rows = b.sourceDescription.rows := if_pos hb
      rw [hrows]
      rw [BasicIndexing.isDynamic_shape hfits] at hb
      exact ih b.source (lt_of_basic hn) hsource hb
        (hc.not_mem_of_reads hn hid (by simp [Node.predecessors]))
    | advanced a =>
      obtain rfl := Option.some.inj hnd
      obtain ⟨picked, hfits⟩ := h.promises hn
      rcases isDynamic_advanced hfits hdyn with ⟨-, e, he, hed, hrows⟩ | ⟨-, hsd, hrows, -⟩
      · have hr : (a.description id).rows = e.2.2.rows := by simp [AdvancedIndexing.description, hrows]
        rw [hr]
        refine ih e.2.1 (lt_of_picked hn hfits he) (hfits.described e he) hed
          (hc.not_mem_of_reads hn hid ?_)
        simp only [Node.predecessors, AdvancedIndexing.predecessors, List.mem_cons, List.mem_map]
        exact .inr ⟨_, mem_indexers hfits he, rfl⟩
      · have hr : (a.description id).rows = a.sourceDescription.rows := by
          simp [AdvancedIndexing.description, hrows]
        rw [hr]
        exact ih a.source (lt_of_advanced hn).1 hfits.source hsd
          (hc.not_mem_of_reads hn hid
            (by simp [Node.predecessors, AdvancedIndexing.predecessors]))
    | validation w => cases hnd

end Graph

/-- A value that an array may hold: one within the declared bounds, without a
fraction if the array is of whole numbers; or NaN if there is any in the graph
and the array is not of whole numbers. -/
def Description.Keeps (nans : Prop) (d : Description) (x : Binary64) : Prop :=
  (x = .nan ∧ nans ∧ d.integral = false) ∨
    (Between d.min d.max x ∧ (d.integral = true → x.Entire))

namespace Description

variable {nans : Prop} {d : Description} {x y : Binary64}

/-- Equal values are kept alike. -/
theorem Keeps.congr (h : d.Keeps nans x) (heq : y.place? = x.place?) : d.Keeps nans y := by
  rcases h with ⟨rfl, hnans, hd⟩ | ⟨⟨hlo, hhi⟩, hentire⟩
  · exact .inl ⟨Binary64.place?_eq_none.mp heq, hnans, hd⟩
  · exact .inr ⟨⟨(Binary64.le_congr_right heq).mpr hlo, (Binary64.le_congr_left heq).mpr hhi⟩,
      fun hi => (hentire hi).congr heq⟩

theorem Keeps.of_integral (h : d.Keeps nans x) (hi : d.integral = true) : Between d.min d.max x := by
  rcases h with ⟨-, -, hd⟩ | h
  · rw [hi] at hd
    cases hd
  · exact h.1

theorem Keeps.entire (h : d.Keeps nans x) (hi : d.integral = true) : x.Entire := by
  rcases h with ⟨-, -, hd⟩ | h
  · rw [hi] at hd
    cases hd
  · exact h.2 hi

theorem Keeps.ne_nan (h : d.Keeps nans x) (hnans : ¬ nans) : x ≠ .nan := by
  rcases h with ⟨-, hn, -⟩ | h
  · exact absurd hn hnans
  · exact (Binary64.ne_nan_of_le h.1.1).2

end Description

/-- The values of a constant are kept. -/
theorem Graph.keeps_constant {g : Graph} {id : NodeId} {c : Constant}
    (hn : g.nodes[id]? = some (.constant c)) {x : Binary64} (hx : x ∈ c.values) :
    (⟨.static c.extents, c.min, c.max, c.integral, .ofShape id (.static c.extents)⟩ :
      Description).Keeps g.HoldsNaN x := by
  have hwhole : c.integral = true → x.isWhole = true := fun hi => Array.all_eq_true'.mp hi x hx
  by_cases hnan : x = .nan
  · refine .inl ⟨hnan, ⟨id, c, hn, hnan ▸ hx⟩, ?_⟩
    rw [← Bool.not_eq_true]
    intro hi
    have := hwhole hi
    rw [hnan] at this
    cases this
  · exact .inr ⟨c.between hx hnan, fun hi => Binary64.entire_of_isWhole (hwhole hi)⟩

end ArrayFlow
