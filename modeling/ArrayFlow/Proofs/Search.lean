import ArrayFlow.Graph.Read
import ArrayFlow.Proofs.Built
import Mathlib.Data.List.Perm.Subperm
import Mathlib.Data.List.TakeWhile
import Mathlib.Logic.Relation

/-!
# Descendants are what can be reached

What depends on some nodes is searched for along the stored edges, depth first.
The search visits each node that can be reached once, and no other, so it gives
what the name promises: exactly the nodes that can be reached.

* `Searching.drop`, `Searching.visit`, `explore_spec` — the invariant of the
  search: whatever reads a visited node is visited or waits in the stack;
* `search_spec` — what a search from several sources visits;
* `Graph.descendants_reachable` — descendants, reachability and the edges of a
  graph agree;
* `Graph.closed_closure` — what depends on some nodes is closed.
-/

namespace ArrayFlow

namespace Dependencies

/-- The second node can be reached from the first along some edges, or none. -/
abbrev Reaches (d : Dependencies) : NodeId → NodeId → Prop :=
  Relation.ReflTransGen fun i j => j ∈ d.readers i

/-- The nodes that are visited from some sources, one after the other, in the
order of the visits.  There are `n` nodes. -/
def search (d : Dependencies) (n : Nat) (sources : List NodeId) : List NodeId :=
  sources.foldl (fun reached i => d.explore n [i] reached) []

/-- What a search keeps: no node is visited twice, and what reads a visited
node is visited or waits. -/
structure Searching (d : Dependencies) (n : Nat) (stack reached : List NodeId) : Prop where
  nodup : reached.Nodup
  visited : ∀ i ∈ reached, i < n
  known : ∀ i ∈ stack, i < n
  waiting : ∀ i ∈ reached, ∀ j ∈ d.readers i, j ∈ reached ∨ j ∈ stack

variable {d : Dependencies} {n visits : Nat} {i j : NodeId} {stack reached : List NodeId}

/-- What waits is visited already, or it is left when visited nodes are taken
from the top. -/
theorem mem_dropWhile (hj : j ∈ stack) :
    j ∈ reached ∨ j ∈ stack.dropWhile (· ∈ reached) := by
  rw [← List.takeWhile_append_dropWhile (p := (· ∈ reached)) (l := stack)] at hj
  rcases List.mem_append.mp hj with hj | hj
  · have hvisited := List.mem_takeWhile_imp hj
    exact .inl (of_decide_eq_true hvisited)
  · exact .inr hj

namespace Searching

/-- Visited nodes can be taken from the top of the stack. -/
theorem drop (h : d.Searching n stack reached) :
    d.Searching n (stack.dropWhile (· ∈ reached)) reached where
  nodup := h.nodup
  visited := h.visited
  known k hk := h.known k ((List.dropWhile_suffix _).subset hk)
  waiting k hk j hj := (h.waiting k hk j hj).elim .inl mem_dropWhile

/-- A node is visited, and what reads it waits from now on. -/
theorem visit (hreaders : ∀ i, ∀ j ∈ d.readers i, j < n) (h : d.Searching n (i :: stack) reached)
    (hi : i ∉ reached) :
    d.Searching n (((d.readers i).filter (· ∉ reached ++ [i])).reverse ++ stack)
      (reached ++ [i]) where
  nodup := List.nodup_append.mpr ⟨h.nodup, List.nodup_singleton i, by
    rintro a ha b hb rfl
    exact hi (List.mem_singleton.mp hb ▸ ha)⟩
  visited := List.forall_mem_append.mpr
    ⟨h.visited, List.forall_mem_singleton.mpr (h.known i List.mem_cons_self)⟩
  known k hk := by
    rcases List.mem_append.mp hk with hk | hk
    · exact hreaders i k (List.mem_of_mem_filter (List.mem_reverse.mp hk))
    · exact h.known k (List.mem_cons_of_mem i hk)
  waiting k hk j hj := by
    by_cases hreached : j ∈ reached ++ [i]
    · exact .inl hreached
    refine .inr (List.mem_append.mpr ?_)
    rcases List.mem_append.mp hk with hk | hk
    · -- an older node: what reads it was there or waited, and it is not the one visited now
      rcases h.waiting k hk j hj with hold | hstack
      · exact absurd (List.mem_append_left _ hold) hreached
      · rcases List.mem_cons.mp hstack with rfl | hstack
        · exact absurd (List.mem_append_right _ (List.mem_singleton.mpr rfl)) hreached
        · exact .inr hstack
    · obtain rfl := List.mem_singleton.mp hk
      exact .inl (List.mem_reverse.mpr (List.mem_filter.mpr ⟨hj, decide_eq_true hreached⟩))

/-- With nothing left in the stack, what can be reached from a visited node is
visited. -/
theorem closed (h : d.Searching n [] reached) (hi : i ∈ reached) (hj : d.Reaches i j) :
    j ∈ reached := by
  induction hj with
  | refl => exact hi
  | @tail k l _ hl ih => exact (h.waiting k ih l hl).resolve_right List.not_mem_nil

/-- After `n` visits every node is visited. -/
theorem mem_of_visited (h : d.Searching n stack reached) (hn : n ≤ reached.length) (hi : i < n) :
    i ∈ reached := by
  have hsub : reached.Subperm (List.range n) :=
    h.nodup.subperm fun i hi => List.mem_range.mpr (h.visited i hi)
  have hperm := hsub.perm_of_length_le (by rwa [List.length_range])
  exact hperm.mem_iff.mpr (List.mem_range.mpr hi)

end Searching

/-- **The search ends with everything visited** that was visited before or
waited, and with nothing that cannot be reached from there.  There are enough
visits if there are as many as nodes that are not visited. -/
theorem explore_spec (hreaders : ∀ i, ∀ j ∈ d.readers i, j < n)
    (h : d.Searching n stack reached) (hvisits : n ≤ reached.length + visits) :
    d.Searching n [] (d.explore visits stack reached) ∧
      (∀ j ∈ reached, j ∈ d.explore visits stack reached) ∧
      (∀ j ∈ stack, j ∈ d.explore visits stack reached) ∧
      ∀ j ∈ d.explore visits stack reached, j ∈ reached ∨ ∃ i ∈ stack, d.Reaches i j := by
  induction visits generalizing stack reached with
  | zero =>
    have hall : ∀ j ∈ stack, j ∈ reached := fun j hj => h.mem_of_visited hvisits (h.known j hj)
    refine ⟨⟨h.nodup, h.visited, nofun, fun k hk j hj => .inl ?_⟩, fun _ => id, hall, fun _ => .inl⟩
    exact (h.waiting k hk j hj).elim id (hall j)
  | succ visits ih =>
    unfold explore
    have hdrop := h.drop
    have hsuffix := (List.dropWhile_suffix (l := stack) (· ∈ reached)).subset
    have hhead := List.head?_dropWhile_not (· ∈ reached) stack
    have hwaits := fun j => @mem_dropWhile j stack reached
    revert hdrop hsuffix hhead hwaits
    cases stack.dropWhile (· ∈ reached) with
    | nil =>
      intro hdrop _ _ hwaits
      exact ⟨hdrop, fun _ => id, fun j hj => (hwaits j hj).resolve_right List.not_mem_nil,
        fun _ => .inl⟩
    | cons i rest =>
      intro hdrop hsuffix hhead hwaits
      have hi : i ∉ reached := by simpa using hhead
      obtain ⟨hend, hold, hwaited, hreach⟩ := ih (hdrop.visit hreaders hi)
        (by rw [List.length_append]; exact Nat.le_trans hvisits (by rw [List.length_singleton]; omega))
      refine ⟨hend, fun j hj => hold j (List.mem_append_left _ hj), fun j hj => ?_, fun j hj => ?_⟩
      · rcases hwaits j hj with hreached | hrest
        · exact hold j (List.mem_append_left _ hreached)
        · rcases List.mem_cons.mp hrest with rfl | hrest
          · exact hold j (List.mem_append_right _ (List.mem_singleton.mpr rfl))
          · exact hwaited j (List.mem_append_right _ hrest)
      · obtain hreached | ⟨k, hk, hkj⟩ := hreach j hj
        · rcases List.mem_append.mp hreached with hreached | hself
          · exact .inl hreached
          · exact .inr ⟨i, hsuffix List.mem_cons_self, List.mem_singleton.mp hself ▸ .refl⟩
        · rcases List.mem_append.mp hk with hnext | hrest
          · have hk : k ∈ d.readers i := List.mem_of_mem_filter (List.mem_reverse.mp hnext)
            exact .inr ⟨i, hsuffix List.mem_cons_self, .head hk hkj⟩
          · exact .inr ⟨k, hsuffix (List.mem_cons_of_mem i hrest), hkj⟩

/-- A search from one more source visits what can be reached from it. -/
theorem explore_source (hreaders : ∀ i, ∀ j ∈ d.readers i, j < n) (h : d.Searching n [] reached)
    (hi : i < n) :
    d.Searching n [] (d.explore n [i] reached) ∧
      ∀ j, j ∈ d.explore n [i] reached ↔ j ∈ reached ∨ d.Reaches i j := by
  have hstart : d.Searching n [i] reached :=
    ⟨h.nodup, h.visited, by simpa using hi, fun k hk j hj =>
      .inl ((h.waiting k hk j hj).resolve_right List.not_mem_nil)⟩
  obtain ⟨hend, hold, hwaited, hreach⟩ := explore_spec hreaders hstart (Nat.le_add_left n _)
  refine ⟨hend, fun j => ⟨fun hj => ?_, ?_⟩⟩
  · obtain hreached | ⟨k, hk, hkj⟩ := hreach j hj
    · exact .inl hreached
    · obtain rfl := List.mem_singleton.mp hk
      exact .inr hkj
  · rintro (hj | hij)
    · exact hold j hj
    · exact hend.closed (hwaited i (List.mem_singleton.mpr rfl)) hij

/-- **A search visits each node that can be reached once**, and no other. -/
theorem search_spec (hreaders : ∀ i, ∀ j ∈ d.readers i, j < n) {sources : List NodeId}
    (hsources : ∀ i ∈ sources, i < n) :
    (d.search n sources).Nodup ∧
      ∀ j, j ∈ d.search n sources ↔ ∃ i ∈ sources, d.Reaches i j := by
  have hwalk : ∀ (sources reached : List NodeId), d.Searching n [] reached →
      (∀ i ∈ sources, i < n) →
      d.Searching n [] (sources.foldl (fun reached i => d.explore n [i] reached) reached) ∧
        ∀ j, j ∈ sources.foldl (fun reached i => d.explore n [i] reached) reached ↔
          j ∈ reached ∨ ∃ i ∈ sources, d.Reaches i j := by
    intro sources
    induction sources with
    | nil => exact fun reached h _ => ⟨h, by simp⟩
    | cons i sources ih =>
      intro reached h hknown
      obtain ⟨hi, hknown⟩ := List.forall_mem_cons.mp hknown
      obtain ⟨hnext, hmem⟩ := explore_source hreaders h hi
      obtain ⟨hend, hmem'⟩ := ih _ hnext hknown
      refine ⟨hend, fun j => ?_⟩
      rw [List.foldl_cons, hmem', hmem, or_assoc, List.exists_mem_cons_iff]
  obtain ⟨hend, hmem⟩ := hwalk sources [] ⟨List.nodup_nil, nofun, nofun, nofun⟩ hsources
  refine ⟨hend.nodup, fun j => (hmem j).trans ?_⟩
  simp

end Dependencies

/-! ### What depends on some nodes of a graph -/

namespace Graph

variable {g : Graph} {s : State} {sources : List NodeId} {i j : NodeId}

/-- The node `j` consumes the node `i`. -/
def Consumes (g : Graph) (i j : NodeId) : Prop := ∃ ps, g.predecessors j = .ok ps ∧ i ∈ ps

/-- What depends on some nodes, in the order of the ids. -/
def closure (g : Graph) (sources : List NodeId) : List NodeId :=
  Ascending.sorted (g.dependencies.search g.size sources)

theorem consumes_iff :
    g.Consumes i j ↔ ∃ node, g.nodes[j]? = some node ∧ i ∈ node.predecessors := by
  unfold Consumes predecessors Graph.node
  cases g.nodes[j]? with
  | none => exact ⟨fun ⟨_, h, _⟩ => (nomatch h), fun ⟨_, h, _⟩ => (nomatch h)⟩
  | some node =>
    constructor
    · rintro ⟨ps, hps, hi⟩
      obtain rfl := Except.ok.inj hps
      exact ⟨node, rfl, hi⟩
    · rintro ⟨node', hn, hi⟩
      obtain rfl := Option.some.inj hn
      exact ⟨_, rfl, hi⟩

/-- The edges go from each node to its consumers. -/
theorem mem_readers_iff : j ∈ g.dependencies.readers i ↔ g.Consumes i j :=
  (g.wired i j).trans consumes_iff.symm

/-- A node consumes only nodes before it. -/
theorem Consumes.lt (h : g.Consumes i j) : i < j ∧ j < g.size := by
  obtain ⟨node, hn, hi⟩ := consumes_iff.mp h
  exact ⟨g.ordered j node hn i hi, lt_size hn⟩

theorem lt_of_mem_readers (i : NodeId) : ∀ j ∈ g.dependencies.readers i, j < g.size :=
  fun _ hj => (mem_readers_iff.mp hj).lt.2

theorem reaches_iff : g.dependencies.Reaches i j ↔ Relation.ReflTransGen g.Consumes i j := by
  have heq : (fun i j => j ∈ g.dependencies.readers i) = g.Consumes := by
    funext i j
    exact propext mem_readers_iff
  unfold Dependencies.Reaches
  rw [heq]

section Known

variable (hknown : ∀ i ∈ sources, i < g.size)
include hknown

/-- **What depends on some nodes is what can be reached from them.** -/
theorem mem_closure_iff_reachable :
    j ∈ g.closure sources ↔ ∃ i ∈ sources, Relation.ReflTransGen g.Consumes i j := by
  rw [closure, Ascending.mem_sorted,
    (Dependencies.search_spec (fun i => lt_of_mem_readers i) hknown).2]
  simp only [reaches_iff]

theorem mem_closure_of_mem (hi : i ∈ sources) : i ∈ g.closure sources :=
  (mem_closure_iff_reachable hknown).mpr ⟨i, hi, .refl⟩

/-- What depends on some nodes is closed. -/
theorem closed_closure : g.Closed (g.closure sources) := by
  refine ⟨fun i hi => ?_, fun i hi j hj => ?_⟩
  · obtain ⟨k, hk, hki⟩ := (mem_closure_iff_reachable hknown).mp hi
    cases hki with
    | refl => exact hknown i hk
    | tail _ h => exact h.lt.2
  · obtain ⟨k, hk, hki⟩ := (mem_closure_iff_reachable hknown).mp hi
    have hij : g.Consumes i j := mem_readers_iff.mp (List.contains_iff_mem.mp hj)
    exact (mem_closure_iff_reachable hknown).mpr ⟨k, hk, hki.tail hij⟩

theorem descendants_of_checkState (hstate : g.checkState s = .ok ()) :
    g.descendants s sources = .ok (g.closure sources) := by
  have hwalk : ∀ reached : List NodeId,
      sources.foldlM (fun reached i =>
        if i < g.size then Except.ok (g.dependencies.explore g.size [i] reached)
        else .error (Refusal.unknownNode i)) reached =
          Except.ok (sources.foldl (fun reached i => g.dependencies.explore g.size [i] reached) reached) := by
    induction sources with
    | nil => exact fun _ => rfl
    | cons i sources ih =>
      intro reached
      obtain ⟨hi, hknown⟩ := List.forall_mem_cons.mp hknown
      rw [List.foldlM_cons, if_pos hi]
      exact ih hknown _
  refine Outcome.bind_eq_ok.mpr ⟨(), hstate, Outcome.bind_eq_ok.mpr ⟨_, hwalk [], rfl⟩⟩

end Known

/-- The successors of a node are its consumers in increasing order. -/
theorem successors_consume (hi : i < g.size) : ∃ js, g.successors i = .ok js ∧
    js.Pairwise (· < ·) ∧ ∀ j, j ∈ js ↔ g.Consumes i j :=
  ⟨_, if_pos hi, Ascending.pairwise_sorted _, fun _ => Ascending.mem_sorted.trans mem_readers_iff⟩

/-- **Descendants are exactly what can be reached.**  However often a source is
named, `descendants` gives the nodes that can be reached from the sources, from
each node to its consumers, in strictly increasing order, which is one of
computation; the search along the stored edges visits each of them once.  The
successors of a node are its consumers, in strictly increasing order as well,
and there is one edge to each of them. -/
theorem descendants_reachable (hstate : g.checkState s = .ok ())
    (hknown : ∀ i ∈ sources, i < g.size) :
    ∃ ids, g.descendants s sources = .ok ids ∧
      (ids.Pairwise (· < ·) ∧
        ∀ j, j ∈ ids ↔ ∃ i ∈ sources, Relation.ReflTransGen g.Consumes i j) ∧
      ((g.dependencies.search g.size sources).Nodup ∧
        Ascending.sorted (g.dependencies.search g.size sources) = ids) ∧
      (∀ i ∈ ids, ∀ js, g.successors i = .ok js → js ⊆ ids) ∧
      ids.Pairwise (fun i j => ¬ g.Consumes j i) ∧
      (∀ i < g.size, ∃ js, g.successors i = .ok js ∧
        (js.Pairwise (· < ·) ∧ ∀ j, j ∈ js ↔ g.Consumes i j) ∧
        (g.dependencies.readers i).Nodup ∧ Ascending.sorted (g.dependencies.readers i) = js) ∧
      ∀ i j, g.Consumes i j → i < j := by
  have hincreasing := Ascending.pairwise_sorted (g.dependencies.search g.size sources)
  obtain ⟨honce, -⟩ := Dependencies.search_spec (fun i => lt_of_mem_readers i) hknown
  have hclosed := closed_closure hknown
  refine ⟨g.closure sources, descendants_of_checkState hknown hstate,
    ⟨hincreasing, fun _ => mem_closure_iff_reachable hknown⟩, ⟨honce, rfl⟩,
    fun i hi js hjs j hj => ?_, ?_, fun i hi => ?_, fun i j hij => hij.lt.1⟩
  · obtain ⟨js', hjs', -, hconsume⟩ := successors_consume (hclosed.1 i hi)
    obtain rfl := Except.ok.inj (hjs'.symm.trans hjs)
    exact hclosed.2 i hi j
      (List.contains_iff_mem.mpr (mem_readers_iff.mpr ((hconsume j).mp hj)))
  · exact hincreasing.imp fun hij (hji : g.Consumes _ _) => Nat.lt_asymm hij hji.lt.1
  · obtain ⟨js, hjs, hconsumers⟩ := successors_consume hi
    refine ⟨js, hjs, hconsumers, g.simple i, ?_⟩
    exact Except.ok.inj ((if_pos hi).symm.trans hjs)

/-- A table of which an index array picks rows and columns alike, a check of
a node that is not there, an array that nobody reads, and the picked numbers
once more. -/
def diagonal : Graph :=
  ((((((Graph.empty 0).extend
    fun _ => Node.leaf <$> Variable.integer <$> IntegerVariable.ofBounds [2, 2] 0 9).extend
      fun _ => Node.leaf <$> Variable.integer <$> IntegerVariable.ofBounds [1] 0 1).extend
        fun g => g.advancedIndexing 0 [.indexer 1, .indexer 1]).extend
          fun _ => .ok (.validation 9)).extend
            fun _ => Node.leaf <$> Variable.integer <$> IntegerVariable.ofBounds [3] 0 9).extend
              fun g => g.basicIndexing 2 [.slice .full]

/-- The index array is named twice as a source and read twice by one node. -/
theorem diagonal_reachable :
    (diagonal.checkState diagonal.emptyState.1 = .ok () ∧
      (∀ i ∈ [2, 1, 1], i < diagonal.size) ∧ diagonal.predecessors 2 = .ok [0, 1, 1]) ∧
      (diagonal.dependencies.search diagonal.size [2, 1, 1]).Nodup ∧
      ∀ j, j ∈ [1, 2, 4] ↔ ∃ i ∈ [2, 1, 1], Relation.ReflTransGen diagonal.Consumes i j := by
  have hstate : diagonal.checkState diagonal.emptyState.1 = .ok () := by decide +kernel
  have hknown : ∀ i ∈ [2, 1, 1], i < diagonal.size := by decide +kernel
  have hpredecessors : diagonal.predecessors 2 = .ok [0, 1, 1] := by decide +kernel
  have hids : diagonal.descendants diagonal.emptyState.1 [2, 1, 1] = .ok [1, 2, 4] := by
    decide +kernel
  obtain ⟨ids, hd, ⟨-, hreach⟩, ⟨honce, -⟩, -⟩ := descendants_reachable hstate hknown
  obtain rfl := Except.ok.inj (hids.symm.trans hd)
  exact ⟨⟨hstate, hknown, hpredecessors⟩, honce, hreach⟩

end Graph
end ArrayFlow
