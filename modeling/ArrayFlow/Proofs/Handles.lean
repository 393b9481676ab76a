import ArrayFlow.Proofs.Calls
import ArrayFlow.Proofs.Refusals
import ArrayFlow.Proofs.Selection
import Mathlib.Logic.Relation

/-!
# Handles

All that happens to a graph is that nodes are added or refused and that states
are made of it (`Grows`).  A node stays where it is in all of that, so a handle
finds at every later time the node for which it was returned.

A handle is a position and a kind, and does not know its graph.  What it finds
in another graph depends on what was added there: it finds a node if and only
if that graph has returned the very same handle, and then the node for which it
was returned there.  So two graphs do not tell the handles of each other from
their own (`foreign_handle_found`).

* `Grows.nodes`, `Later.nodes` — a step of growth keeps the nodes, and so does
  any number of them;
* `Later.exists_added` — every node was added at some time;
* `resolve?_iff_returned` — a handle finds what it was returned for;
* `handle_resolves` — this for the graph of the handle and for any other one;
* `Built.add_earlier` — a node can be made long before it is added.
-/

namespace ArrayFlow
namespace Graph

variable {g g' before : Graph} {id : NodeId} {node : Node} {h : Handle} {i : Nat}

/-! ### Growth -/

/-- What can happen to a graph. -/
inductive Grows (g : Graph) : Graph → Prop
  | add {node : Node} {id : NodeId} {g' : Graph} (added : Graph.add node g = .ok id g') : Grows g g'
  | refused {node : Node} {r : Refusal} {g' : Graph} (h : Graph.add node g = .error r g') :
      Grows g g'
  | freeze : Grows g g.freeze

/-- The graph at a later time. -/
abbrev Later : Graph → Graph → Prop := Relation.ReflTransGen Grows

theorem Grows.nodes (hg : g.Grows g') (hn : g.nodes[id]? = some node) :
    g'.nodes[id]? = some node := by
  cases hg with
  | add added => exact nodes_add added hn
  | refused h =>
    rw [add_refused h]
    exact hn
  | freeze => exact hn

theorem Grows.identity (hg : g.Grows g') : g'.identity = g.identity := by
  cases hg with
  | add added => exact (add_eq_ok added).2.2
  | refused h => rw [add_refused h]
  | freeze => rfl

/-- **Nodes stay where they are.** -/
theorem Later.nodes (hg : g.Later g') (hn : g.nodes[id]? = some node) :
    g'.nodes[id]? = some node := by
  induction hg with
  | refl => exact hn
  | tail _ hstep ih => exact hstep.nodes ih

theorem Later.identity (hg : g.Later g') : g'.identity = g.identity := by
  induction hg with
  | refl => rfl
  | tail _ hstep ih => exact hstep.identity.trans ih

theorem Later.describe (hg : g.Later g') {d : Description} (hd : g.describe id = .ok d) :
    g'.describe id = .ok d := by
  obtain ⟨node, hn, hnd⟩ := describe_eq_ok.mp hd
  exact describe_eq_ok.mpr ⟨node, hg.nodes hn, hnd⟩

theorem later_extend (g : Graph) (make : Graph → Except Failure Node) : g.Later (g.extend make) := by
  unfold Graph.extend
  split
  · exact .refl
  · split
    · next added => exact .single (.add added)
    · exact .refl

/-- A node can be made long before it is added.  The graph has grown since, and
the constructor would still give the node. -/
theorem Built.add_earlier (hb : g.Built) (offered : before.Offers node) (hg : before.Later g)
    (added : Graph.add node g = .ok id g') : g'.Built :=
  hb.add (offered.mono (fun _ _ => hg.describe) hg.identity) added

/-! ### What handles find -/

/-- A handle finds the node at its position, if that is of its kind. -/
theorem resolve?_eq_some :
    g.resolve? h = some node ↔ g.nodes[h.id]? = some node ∧ node.kind = h.kind := by
  unfold resolve?
  cases hn : g.nodes[h.id]? with
  | none =>
    constructor
    · intro hnone
      cases hnone
    · rintro ⟨hnone, -⟩
      cases hnone
  | some other =>
    dsimp only
    split
    · next hk =>
      constructor
      · intro heq
        obtain rfl := Option.some.inj heq
        exact ⟨rfl, hk⟩
      · exact And.left
    · next hk =>
      constructor
      · intro hnone
        cases hnone
      · rintro ⟨heq, hkind⟩
        obtain rfl := Option.some.inj heq
        exact absurd hkind hk

/-- What a handle finds, it finds at every later time. -/
theorem Later.resolve? (hg : g.Later g') (hn : g.resolve? h = some node) :
    g'.resolve? h = some node := by
  obtain ⟨hn, hk⟩ := resolve?_eq_some.mp hn
  exact resolve?_eq_some.mpr ⟨hg.nodes hn, hk⟩

/-- The handle was returned when the node was added to the graph. -/
def Returned (g : Graph) (h : Handle) (node : Node) : Prop :=
  ∃ before after, (Graph.empty g.identity).Later before ∧
    Graph.add node before = .ok h.id after ∧ h.kind = node.kind ∧ after.Later g

theorem Returned.later_empty (returned : g.Returned h node) : (Graph.empty g.identity).Later g := by
  obtain ⟨before, after, hbefore, added, -, hafter⟩ := returned
  exact (hbefore.tail (.add added)).trans hafter

/-- **Every node was added** at some time, at its position. -/
theorem Later.exists_added (hg : (Graph.empty i).Later g) (hn : g.nodes[id]? = some node) :
    ∃ before after, (Graph.empty i).Later before ∧ Graph.add node before = .ok id after ∧
      after.Later g := by
  induction hg with
  | refl =>
    have hnone : (Graph.empty i).nodes[id]? = none := Array.getElem?_eq_none (Nat.zero_le _)
    rw [hnone] at hn
    cases hn
  | @tail g g' hbefore hstep ih =>
    have hkept : g.nodes[id]? = some node → ∃ before after, (Graph.empty i).Later before ∧
        Graph.add node before = .ok id after ∧ after.Later g' := by
      intro hn
      obtain ⟨before, after, hb, hadd, ha⟩ := ih hn
      exact ⟨before, after, hb, hadd, ha.tail hstep⟩
    cases hstep with
    | @add new newId _ added =>
      obtain ⟨rfl, hnodes, -⟩ := add_eq_ok added
      rw [hnodes, Array.getElem?_push] at hn
      split at hn
      · next heq =>
        obtain rfl := Option.some.inj hn
        subst heq
        exact ⟨g, g', hbefore, added, .refl⟩
      · exact hkept hn
    | refused h =>
      rw [add_refused h] at hn
      exact hkept hn
    | freeze => exact hkept hn

/-- **A handle finds what it was returned for**, and nothing if it was not
returned. -/
theorem resolve?_iff_returned (hg : (Graph.empty g.identity).Later g) :
    g.resolve? h = some node ↔ g.Returned h node := by
  rw [resolve?_eq_some]
  constructor
  · rintro ⟨hn, hk⟩
    obtain ⟨before, after, hb, hadd, ha⟩ := hg.exists_added hn
    exact ⟨before, after, hb, hadd, hk.symm, ha⟩
  · rintro ⟨before, after, -, hadd, hk, ha⟩
    obtain ⟨hid, hnodes, -⟩ := add_eq_ok hadd
    have hlast : after.nodes[h.id]? = some node := by
      rw [hnodes, hid]
      exact Array.getElem?_push_size
    exact ⟨ha.nodes hlast, hk.symm⟩

/-- **Handles, at home and abroad.**  A handle that was returned when a node was
added finds that node in its graph at every later time.  In any other graph it
finds nothing if and only if that graph has not returned the same handle, and
otherwise the node for which it was returned there. -/
theorem handle_resolves {other : Graph} (returned : g.Returned h node)
    (hother : (Graph.empty other.identity).Later other) :
    (∀ later, g.Later later → later.resolve? h = some node) ∧
      (other.resolve? h = none ↔ ∀ found, ¬ other.Returned h found) ∧
      ∀ found, other.resolve? h = some found ↔ other.Returned h found := by
  have hfound := fun found => @resolve?_iff_returned other found h hother
  refine ⟨fun later hlater => ?_, ?_, hfound⟩
  · exact hlater.resolve? ((resolve?_iff_returned returned.later_empty).mpr returned)
  · rw [Option.eq_none_iff_forall_ne_some]
    exact forall_congr' fun found => not_congr (hfound found)

namespace Twins

/-- An integer and a list. -/
def elder : Graph :=
  ((Graph.empty 0).extend
    fun _ => Node.leaf <$> Variable.integer <$> IntegerVariable.ofBounds [1] 0 9).extend
      fun _ => .ok (.leaf (.list (.ofCount 3)))

/-- Two integers and a check of them. -/
def younger : Graph :=
  ((Graph.empty 1).extend
    fun _ => Node.leaf <$> Variable.integer <$> IntegerVariable.ofBounds [2] 0 9).extend
      fun _ => .ok (.validation 0)

theorem later_elder : (Graph.empty elder.identity).Later elder :=
  (later_extend _ _).trans (later_extend _ _)

theorem later_younger : (Graph.empty younger.identity).Later younger :=
  (later_extend _ _).trans (later_extend _ _)

end Twins

open Twins in
/-- Two handles of the first graph, when that is frozen.  In the second graph one
finds a variable and the other one nothing. -/
theorem twin_handles_resolve :
    ∃ one many list : Node,
      (elder.Returned ⟨0, .integer⟩ one ∧ elder.Returned ⟨1, .list⟩ list ∧
        (Graph.empty younger.identity).Later younger) ∧
      elder.freeze.resolve? ⟨0, .integer⟩ = some one ∧ elder.freeze.resolve? ⟨1, .list⟩ = some list ∧
      younger.Returned ⟨0, .integer⟩ many ∧ ∀ found, ¬ younger.Returned ⟨1, .list⟩ found := by
  obtain ⟨one, hone⟩ : ∃ one, elder.resolve? ⟨0, .integer⟩ = some one := ⟨_, rfl⟩
  obtain ⟨list, hlist⟩ : ∃ list, elder.resolve? ⟨1, .list⟩ = some list := ⟨_, rfl⟩
  obtain ⟨many, hmany⟩ : ∃ many, younger.resolve? ⟨0, .integer⟩ = some many := ⟨_, rfl⟩
  have hinteger := (resolve?_iff_returned later_elder).mp hone
  have hreturned := (resolve?_iff_returned later_elder).mp hlist
  obtain ⟨hlater, -, hfound⟩ := handle_resolves hinteger later_younger
  obtain ⟨hlater', hnone, -⟩ := handle_resolves hreturned later_younger
  exact ⟨one, many, list, ⟨hinteger, hreturned, later_younger⟩, hlater _ (.single .freeze),
    hlater' _ (.single .freeze), (hfound many).mp hmany, hnone.mp rfl⟩

open Twins in
/-- **Handles of another graph are not told apart.**  The handle of a single
integer in one graph finds a pair of integers in the other one, and seeds
them. -/
theorem foreign_handle_found :
    elder.identity ≠ younger.identity ∧ (Graph.empty younger.identity).Later younger ∧
      ∃ (h : Handle) (one many : Node), elder.Returned h one ∧ younger.resolve? h = some many ∧
        Description.shape <$> elder.describe h.id = .ok (.static [1]) ∧
        Description.shape <$> younger.describe h.id = .ok (.static [2]) ∧
        ∃ s, younger.seed h [.ofInt 1, .ofInt 2] younger.emptyState.1 = .ok () s := by
  obtain ⟨one, hone⟩ : ∃ one, elder.resolve? ⟨0, .integer⟩ = some one := ⟨_, rfl⟩
  have hreturned := (resolve?_iff_returned later_elder).mp hone
  have hseed := call_eq_ok_after (g := younger) (s := younger.emptyState.1)
    (c := .seed ⟨0, .integer⟩ [.ofInt 1, .ofInt 2]) (by decide +kernel)
  exact ⟨by decide, later_younger, ⟨0, .integer⟩, one, _, hreturned, rfl, rfl, rfl, _, hseed⟩

end Graph
end ArrayFlow
