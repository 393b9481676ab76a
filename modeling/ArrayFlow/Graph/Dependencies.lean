import ArrayFlow.Fault

/-!
# Dependencies

The edges of a graph lead from each node to the nodes that read it.  They are
stored with the graph and come about with its nodes: a new node is linked to
each node that it reads, once, however often it reads it (`add`).

What depends on some nodes is found by a depth-first search along the edges.
The search keeps what it has visited from one source to the next, and it
visits no node twice, so there are never more visits than nodes.
-/

namespace ArrayFlow

/-- For each node the nodes that read it, the newest first. -/
abbrev Dependencies := Array (List NodeId)

namespace Dependencies

/-- The nodes that read a node, the newest first. -/
def readers (d : Dependencies) (i : NodeId) : List NodeId := d[i]?.getD []

/-- The edges with one from `i` to `j`, unless it is there already. -/
def link (j : NodeId) (d : Dependencies) (i : NodeId) : Dependencies :=
  if j ∈ d.readers i then d else d.setIfInBounds i (j :: d.readers i)

/-- The edges with one more node, which reads the nodes `ps`. -/
def add (d : Dependencies) (ps : List NodeId) : Dependencies :=
  ps.foldl (link d.size) (d.push [])

/-- Visits what can be reached from a stack, the top first, until nothing is
left or `visits` nodes more have been visited.  A node that is visited puts
those that read it on the stack, but none that has been visited. -/
def explore (d : Dependencies) : (visits : Nat) → (stack reached : List NodeId) → List NodeId
  | 0, _, reached => reached
  | visits + 1, stack, reached =>
    match stack.dropWhile (· ∈ reached) with
    | [] => reached
    | i :: stack =>
      let reached := reached ++ [i]
      d.explore visits (((d.readers i).filter (· ∉ reached)).reverse ++ stack) reached

variable {d : Dependencies} {i j k l : NodeId} {ps : List NodeId}

@[simp] theorem size_link : (link j d i).size = d.size := by
  unfold link
  split <;> simp

@[simp] theorem size_add : (d.add ps).size = d.size + 1 := by
  have h : ∀ (d : Dependencies) (j : NodeId), (ps.foldl (link j) d).size = d.size := by
    induction ps with
    | nil => exact fun _ _ => rfl
    | cons p ps ih => exact fun d j => (ih _ j).trans size_link
  rw [add, h, Array.size_push]

theorem readers_setIfInBounds (hi : i < d.size) (js : List NodeId) :
    readers (d.setIfInBounds i js) k = if k = i then js else d.readers k := by
  unfold readers
  by_cases hk : k = i
  · subst hk
    rw [Array.getElem?_setIfInBounds_self_of_lt hi, if_pos rfl]
    rfl
  · rw [Array.getElem?_setIfInBounds_ne (Ne.symm hk), if_neg hk]

theorem mem_readers_link (hi : i < d.size) :
    l ∈ (link j d i).readers k ↔ l ∈ d.readers k ∨ (l = j ∧ k = i) := by
  unfold link
  by_cases hj : j ∈ d.readers i
  · rw [if_pos hj]
    exact ⟨.inl, fun h => h.elim id fun ⟨hl, hk⟩ => hl ▸ hk ▸ hj⟩
  · rw [if_neg hj, readers_setIfInBounds hi]
    by_cases hk : k = i
    · rw [if_pos hk, List.mem_cons, hk, and_iff_left rfl, or_comm]
    · rw [if_neg hk, or_iff_left fun h => hk h.2]

theorem nodup_readers_link (hi : i < d.size) (h : (d.readers k).Nodup) :
    ((link j d i).readers k).Nodup := by
  unfold link
  by_cases hj : j ∈ d.readers i
  · rwa [if_pos hj]
  · rw [if_neg hj, readers_setIfInBounds hi]
    by_cases hk : k = i
    · rw [if_pos hk]
      exact List.nodup_cons.mpr ⟨hj, hk ▸ h⟩
    · rwa [if_neg hk]

theorem readers_push_nil : readers (d.push []) k = d.readers k := by
  unfold readers
  rw [Array.getElem?_push]
  split
  · next h => rw [h, Array.getElem?_eq_none (Nat.le_refl _)]; rfl
  · rfl

/-- The edges to a new node come from the nodes that it reads, and no other
edge is new. -/
theorem mem_readers_add (hps : ∀ p ∈ ps, p < d.size) :
    l ∈ (d.add ps).readers k ↔ l ∈ d.readers k ∨ (l = d.size ∧ k ∈ ps) := by
  have h : ∀ (e : Dependencies) (j : NodeId), (∀ p ∈ ps, p < e.size) →
      (l ∈ (ps.foldl (link j) e).readers k ↔ l ∈ e.readers k ∨ (l = j ∧ k ∈ ps)) := by
    clear hps
    induction ps with
    | nil => simp
    | cons p ps ih =>
      intro e j hps
      obtain ⟨hp, hps⟩ := List.forall_mem_cons.mp hps
      rw [List.foldl_cons, ih _ j (by simpa using hps), mem_readers_link hp, List.mem_cons,
        or_assoc, ← and_or_left]
  rw [add, h _ _ fun p hp => by simpa using Nat.lt_succ_of_lt (hps p hp), readers_push_nil]

theorem nodup_readers_add (hps : ∀ p ∈ ps, p < d.size) (hd : (d.readers k).Nodup) :
    ((d.add ps).readers k).Nodup := by
  have h : ∀ (e : Dependencies) (j : NodeId), (∀ p ∈ ps, p < e.size) → (e.readers k).Nodup →
      ((ps.foldl (link j) e).readers k).Nodup := by
    clear hps
    induction ps with
    | nil => exact fun _ _ _ => id
    | cons p ps ih =>
      intro e j hps he
      obtain ⟨hp, hps⟩ := List.forall_mem_cons.mp hps
      exact ih _ j (by simpa using hps) (nodup_readers_link hp he)
  refine h _ _ (fun p hp => by simpa using Nat.lt_succ_of_lt (hps p hp)) ?_
  rwa [readers_push_nil]

end Dependencies
end ArrayFlow
