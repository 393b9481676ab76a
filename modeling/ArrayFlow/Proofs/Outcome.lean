import ArrayFlow.Refusal

/-!
# Taking computations apart

A computation that gives a result gave one at each of its steps.  A request that
is checked before it is carried out leaves everything as it was where a check fails
(`Attempts`).
-/

namespace ArrayFlow
namespace Outcome

variable {ε α β : Type}

/-- Whether a computation fails with an error can be found out, whatever its
results are. -/
instance decidableEqError [DecidableEq ε] (x : Except ε α) (e : ε) : Decidable (x = .error e) :=
  match x with
  | .ok _ => isFalse nofun
  | .error _ => decidable_of_iff _ ⟨congrArg Except.error, Except.error.inj⟩

theorem ok_bind (a : α) (f : α → Except ε β) : (.ok a >>= f) = f a := rfl

/-- A sequence of two computations gives a result if both do. -/
theorem bind_eq_ok {x : Except ε α} {f : α → Except ε β} {b : β} :
    (x >>= f) = .ok b ↔ ∃ a, x = .ok a ∧ f a = .ok b := by
  cases x with
  | error e => exact ⟨nofun, nofun⟩
  | ok a =>
    constructor
    · intro h
      exact ⟨a, rfl, h⟩
    · rintro ⟨a', ha, h⟩
      obtain rfl := Except.ok.inj ha
      exact h

theorem map_eq_ok {x : Except ε α} {f : α → β} {b : β} :
    (f <$> x) = .ok b ↔ ∃ a, x = .ok a ∧ f a = b := by
  cases x with
  | error e => exact ⟨nofun, nofun⟩
  | ok a =>
    constructor
    · intro h
      exact ⟨a, rfl, Except.ok.inj h⟩
    · rintro ⟨a', ha, h⟩
      obtain rfl := Except.ok.inj ha
      exact congrArg Except.ok h

theorem map_eq_error {x : Except ε α} {f : α → β} {e : ε} :
    (f <$> x) = .error e ↔ x = .error e := by
  cases x with
  | error e' => exact ⟨fun h => congrArg _ (Except.error.inj h), fun h => congrArg _ (Except.error.inj h)⟩
  | ok a => exact ⟨nofun, nofun⟩

/-- A computation that may be refused gives a result where it is not. -/
theorem refusable_eq_ok {x : Except Refusal α} {a : α} :
    (liftM x : Except Failure α) = .ok a ↔ x = .ok a := by
  cases x with
  | error e => exact ⟨nofun, nofun⟩
  | ok b =>
    constructor
    · intro h
      exact congrArg Except.ok (Except.ok.inj h)
    · rintro h
      exact congrArg Except.ok (Except.ok.inj h)

theorem refusable_eq_refused {x : Except Refusal α} {r : Refusal} :
    (liftM x : Except Failure α) = .error (.refused r) ↔ x = .error r := by
  cases x with
  | error e =>
    constructor
    · intro h
      exact congrArg Except.error (Failure.refused.inj (Except.error.inj h))
    · rintro h
      exact congrArg (Except.error ∘ Failure.refused) (Except.error.inj h)
  | ok b => exact ⟨nofun, nofun⟩

theorem refusable_ne_fault {x : Except Refusal α} {f : Fault} :
    (liftM x : Except Failure α) ≠ .error (.fault f) := by
  cases x with
  | error e => exact nofun
  | ok b => exact nofun

/-- A computation that may run into a fault gives a result where it does
not. -/
theorem fault_eq_ok {x : Except Fault α} {a : α} :
    (liftM x : Except Failure α) = .ok a ↔ x = .ok a := by
  cases x with
  | error e => exact ⟨nofun, nofun⟩
  | ok b => exact ⟨fun h => congrArg Except.ok (Except.ok.inj h), fun h => congrArg _ (Except.ok.inj h)⟩

theorem fault_eq_error {x : Except Fault α} {e : Failure} :
    (liftM x : Except Failure α) = .error e ↔ ∃ f, x = .error f ∧ .fault f = e := by
  cases x with
  | error f =>
    constructor
    · intro h
      exact ⟨f, rfl, Except.error.inj h⟩
    · rintro ⟨f', hf, rfl⟩
      obtain rfl := Except.error.inj hf
      rfl
  | ok b => exact ⟨nofun, fun ⟨_, h, _⟩ => nomatch h⟩

/-- A check passes if its condition holds. -/
theorem check_eq_ok {p : Prop} [Decidable p] {e : ε} :
    (if p then Except.ok () else .error e) = .ok () ↔ p := by
  split
  · next hp => exact ⟨fun _ => hp, fun _ => rfl⟩
  · next hp => exact ⟨nofun, fun h => absurd h hp⟩

/-- A computation that only asks for a condition gives a result where it
holds. -/
theorem if_eq_ok {p : Prop} [Decidable p] {e : ε} {a b : α} :
    (if p then Except.ok a else .error e) = .ok b ↔ p ∧ a = b := by
  split
  · next hp => rw [Except.ok.injEq, and_iff_right hp]
  · next hp => exact ⟨nofun, fun h => absurd h.1 hp⟩

theorem if_eq_error {p : Prop} [Decidable p] {e e' : ε} {a : α} :
    (if p then Except.ok a else .error e) = .error e' ↔ ¬ p ∧ e = e' := by
  split
  · next hp => exact ⟨nofun, fun h => absurd hp h.1⟩
  · next hp => rw [Except.error.injEq, and_iff_right hp]

/-- A test before a computation was passed. -/
theorem guard_eq_ok {p : Prop} [Decidable p] {e : ε} {x : Except ε α} {a : α} :
    (if p then Except.error e else x) = .ok a ↔ ¬ p ∧ x = .ok a := by
  split
  · next hp => exact ⟨nofun, fun h => absurd hp h.1⟩
  · next hp => exact ⟨fun h => ⟨hp, h⟩, fun h => h.2⟩

/-- A sequence of two computations fails where one of them does. -/
theorem bind_eq_error {x : Except ε α} {f : α → Except ε β} {e : ε} :
    (x >>= f) = .error e ↔ x = .error e ∨ ∃ a, x = .ok a ∧ f a = .error e := by
  cases x with
  | error e' =>
    constructor
    · intro h
      exact .inl (congrArg Except.error (Except.error.inj h))
    · rintro (h | ⟨a, h, -⟩)
      · exact congrArg Except.error (Except.error.inj h)
      · cases h
  | ok a =>
    constructor
    · intro h
      exact .inr ⟨a, rfl, h⟩
    · rintro (h | ⟨a', ha, h⟩)
      · cases h
      · obtain rfl := Except.ok.inj ha
        exact h

/-- A test before a computation was not passed, or the computation failed. -/
theorem guard_eq_error {p : Prop} [Decidable p] {e e' : ε} {x : Except ε α} :
    (if p then Except.error e else x) = .error e' ↔ p ∧ e = e' ∨ ¬ p ∧ x = .error e' := by
  split
  · next hp => simp [hp]
  · next hp => simp [hp]

theorem exists_ok {x : Except ε α} (h : x.isOk = true) : ∃ a, x = .ok a := by
  cases x with
  | ok a => exact ⟨a, rfl⟩
  | error e => cases h

/-- A walk over a list gives a result if each of its steps does. -/
theorem forM_eq_ok {f : α → Except ε Unit} {xs : List α} :
    xs.forM f = .ok () ↔ ∀ x ∈ xs, f x = .ok () := by
  induction xs with
  | nil => simp [pure, Except.pure]
  | cons x xs ih =>
    show (f x >>= fun _ => xs.forM f) = .ok () ↔ _
    rw [bind_eq_ok, List.forall_mem_cons, ← ih]
    constructor
    · rintro ⟨_, hx, hxs⟩
      exact ⟨hx, hxs⟩
    · rintro ⟨hx, hxs⟩
      exact ⟨(), hx, hxs⟩

/-- A walk over a list that collects results gives one for each entry. -/
theorem mapM_eq_ok {f : α → Except ε β} {xs : List α} {ys : List β} :
    xs.mapM f = .ok ys ↔ xs.map f = ys.map .ok := by
  induction xs generalizing ys with
  | nil =>
    cases ys with
    | nil => simp [pure, Except.pure]
    | cons y ys => simp [pure, Except.pure]
  | cons x xs ih =>
    rw [List.mapM_cons, bind_eq_ok]
    simp only [bind_eq_ok]
    constructor
    · rintro ⟨y, hy, zs, hzs, h⟩
      cases h
      rw [List.map_cons, List.map_cons, hy, ih.mp hzs]
    · intro h
      cases ys with
      | nil => cases h
      | cons y ys =>
        obtain ⟨hy, hys⟩ := List.cons.inj h
        exact ⟨y, hy, ys, ih.mpr hys, rfl⟩

/-- What holds of the value that is handed along a walk, if each entry keeps
it. -/
theorem foldlM_induction {ε α β : Type} {P : β → Prop} {f : β → α → Except ε β}
    (hf : ∀ b a b', P b → f b a = .ok b' → P b') {xs : List α} {b b' : β}
    (h : xs.foldlM f b = .ok b') (hb : P b) : P b' := by
  induction xs generalizing b with
  | nil =>
    obtain rfl := Except.ok.inj h
    exact hb
  | cons x xs ih =>
    rw [List.foldlM_cons] at h
    obtain ⟨c, hc, h⟩ := bind_eq_ok.mp h
    exact ih h (hf b x c hb hc)

/-- Each result of a walk is the result of one of its steps. -/
theorem exists_of_mem_mapM {f : α → Except ε β} {xs : List α} {ys : List β} {y : β}
    (h : xs.mapM f = .ok ys) (hy : y ∈ ys) : ∃ x ∈ xs, f x = .ok y := by
  have hmem : (Except.ok y : Except ε β) ∈ ys.map .ok := List.mem_map_of_mem hy
  rw [← mapM_eq_ok.mp h] at hmem
  exact List.mem_map.mp hmem

/-- A walk gives a result only if each of its steps does. -/
theorem exists_of_mapM_eq_ok {f : α → Except ε β} {xs : List α} {ys : List β} {x : α}
    (h : xs.mapM f = .ok ys) (hx : x ∈ xs) : ∃ y, f x = .ok y := by
  have hmem := List.mem_map_of_mem (f := f) hx
  rw [mapM_eq_ok.mp h] at hmem
  obtain ⟨y, -, hy⟩ := List.mem_map.mp hmem
  exact ⟨y, hy.symm⟩

theorem mapM_congr {ε α β : Type} {xs : List α} {f f' : α → Except ε β}
    (h : ∀ x ∈ xs, f x = f' x) : xs.mapM f = xs.mapM f' := by
  induction xs with
  | nil => rfl
  | cons x xs ih =>
    rw [List.mapM_cons, List.mapM_cons, h x List.mem_cons_self,
      ih fun y hy => h y (List.mem_cons_of_mem _ hy)]

theorem toOption_eq_some {x : Except ε α} {a : α} : x.toOption = some a ↔ x = .ok a := by
  cases x with
  | error e => exact ⟨nofun, nofun⟩
  | ok b => exact ⟨fun h => congrArg _ (Option.some.inj h), fun h => congrArg _ (Except.ok.inj h)⟩

theorem toOption_eq_none {x : Except ε α} (h : ∀ a, x ≠ .ok a) : x.toOption = none := by
  cases x with
  | error e => rfl
  | ok a => exact absurd rfl (h a)

theorem toOption_bind (x : Except ε α) (f : α → Except ε β) :
    (x >>= f).toOption = x.toOption.bind fun a => (f a).toOption := by
  cases x <;> rfl

/-- Steps that give the same results, where they give any, give the same
results together. -/
theorem toOption_mapM_congr {xs : List α} {f f' : α → Except ε β}
    (h : ∀ x ∈ xs, (f x).toOption = (f' x).toOption) :
    (xs.mapM f).toOption = (xs.mapM f').toOption := by
  induction xs with
  | nil => rfl
  | cons x xs ih =>
    have hxs := ih fun y hy => h y (List.mem_cons_of_mem _ hy)
    rw [List.mapM_cons, List.mapM_cons, toOption_bind, toOption_bind, h x List.mem_cons_self]
    refine congrArg _ (funext fun y => ?_)
    rw [toOption_bind, toOption_bind, hxs]

section State

variable {σ : Type} {s s' : σ}

/-- A sequence of two computations with a state gives a result if both do. -/
theorem run_bind_eq_ok {x : EStateM ε σ α} {f : α → EStateM ε σ β} {b : β} :
    (x >>= f) s = .ok b s' ↔ ∃ a t, x s = .ok a t ∧ f a t = .ok b s' := by
  show EStateM.bind x f s = .ok b s' ↔ _
  unfold EStateM.bind
  cases x s with
  | error e t => exact ⟨nofun, nofun⟩
  | ok a t =>
    constructor
    · intro h
      exact ⟨a, t, rfl, h⟩
    · rintro ⟨a', t', ha, h⟩
      cases ha
      exact h

theorem run_bind_of_ok {x : EStateM ε σ α} {f : α → EStateM ε σ β} {a : α}
    (h : x s = .ok a s') : (x >>= f) s = f a s' := by
  show EStateM.bind x f s = f a s'
  unfold EStateM.bind
  rw [h]

/-- A sequence of two computations with a state fails where one of them
does. -/
theorem run_bind_eq_error {x : EStateM ε σ α} {f : α → EStateM ε σ β} {e : ε} :
    (x >>= f) s = .error e s' ↔ x s = .error e s' ∨ ∃ a t, x s = .ok a t ∧ f a t = .error e s' := by
  show EStateM.bind x f s = .error e s' ↔ _
  unfold EStateM.bind
  cases x s with
  | error e' t =>
    constructor
    · intro h
      cases h
      exact .inl rfl
    · rintro (h | ⟨a, u, h, -⟩)
      · cases h
        rfl
      · cases h
  | ok a t =>
    constructor
    · intro h
      exact .inr ⟨a, t, rfl, h⟩
    · rintro (h | ⟨a', t', ha, h⟩)
      · cases h
      · cases ha
        exact h

/-- A test before a computation with a state was passed. -/
theorem run_guard_eq_ok {p : Prop} [Decidable p] {e : ε} {x : PUnit → EStateM ε σ α} {a : α} :
    (if p then (do let r ← throw e; x r) else x ⟨⟩ : EStateM ε σ α) s = .ok a s' ↔
      ¬ p ∧ x ⟨⟩ s = .ok a s' := by
  split
  · next hp =>
    constructor
    · intro h
      cases h
    · intro h
      exact absurd hp h.1
  · next hp => exact ⟨fun h => ⟨hp, h⟩, fun h => h.2⟩

/-- A run behind a test failed: at the test, or behind it. -/
theorem run_guard_eq_error {p : Prop} [Decidable p] {e r : ε} {x : PUnit → EStateM ε σ α} :
    (if p then (do let r ← throw e; x r) else x ⟨⟩ : EStateM ε σ α) s = .error r s' ↔
      (p ∧ e = r ∧ s = s') ∨ (¬ p ∧ x ⟨⟩ s = .error r s') := by
  split
  · next hp =>
    constructor
    · intro h
      cases h
      exact .inl ⟨hp, rfl, rfl⟩
    · rintro (⟨-, rfl, rfl⟩ | ⟨hnot, -⟩)
      · rfl
      · exact absurd hp hnot
  · next hp => exact ⟨fun h => .inr ⟨hp, h⟩, fun h => h.elim (absurd ·.1 hp) (·.2)⟩

/-! A computation without a state is run in one. -/

@[simp] theorem lift_fault_ok (a : α) :
    (liftM (.ok a : Except Fault α) : EStateM Failure σ α) = pure a := rfl

@[simp] theorem lift_fault_error (f : Fault) :
    (liftM (.error f : Except Fault α) : EStateM Failure σ α) = throw (.fault f) := rfl

@[simp] theorem lift_refusal_ok (a : α) :
    (liftM (.ok a : Except Refusal α) : EStateM Failure σ α) = pure a := rfl

@[simp] theorem lift_refusal_error (r : Refusal) :
    (liftM (.error r : Except Refusal α) : EStateM Failure σ α) = throw (.refused r) := rfl

@[simp] theorem lift_failure_ok (a : α) :
    (liftM (.ok a : Except Failure α) : EStateM Failure σ α) = pure a := rfl

@[simp] theorem lift_failure_error (f : Failure) :
    (liftM (.error f : Except Failure α) : EStateM Failure σ α) = throw f := rfl

@[simp] theorem throw_bind (e : ε) (f : α → EStateM ε σ β) :
    (throw e >>= f : EStateM ε σ β) = throw e := rfl

@[simp] theorem run_pure (a : α) : (pure a : EStateM ε σ α) s = .ok a s := rfl

@[simp] theorem run_throw (e : ε) : (throw e : EStateM ε σ α) s = .error e s := rfl

@[simp] theorem run_modify (f : σ → σ) : (modify f : EStateM ε σ PUnit) s = .ok () (f s) := rfl

@[simp] theorem run_get_bind (f : σ → EStateM ε σ β) :
    ((get : EStateM ε σ σ) >>= f) s = f s s := rfl

@[simp] theorem run_modify_bind (f : σ → σ) (k : PUnit → EStateM ε σ β) :
    ((modify f : EStateM ε σ PUnit) >>= k) s = k ⟨⟩ (f s) := rfl

theorem run_fault_eq_ok {a : α} {x : Except Fault α} :
    (liftM x : EStateM Failure σ α) s = .ok a s' ↔ x = .ok a ∧ s = s' := by
  cases x with
  | error e =>
    constructor
    · intro h
      cases h
    · intro h
      cases h.1
  | ok b =>
    constructor
    · intro h
      cases h
      exact ⟨rfl, rfl⟩
    · rintro ⟨hb, rfl⟩
      obtain rfl := Except.ok.inj hb
      rfl

theorem run_fault_eq_error {x : Except Fault α} {e : Failure} :
    (liftM x : EStateM Failure σ α) s = .error e s' ↔ ∃ f, x = .error f ∧ e = .fault f ∧ s = s' := by
  cases x with
  | error f =>
    constructor
    · intro h
      cases h
      exact ⟨f, rfl, rfl, rfl⟩
    · rintro ⟨f', hf, rfl, rfl⟩
      obtain rfl := Except.error.inj hf
      rfl
  | ok b =>
    constructor
    · intro h
      cases h
    · rintro ⟨f, h, -⟩
      cases h

theorem run_refusal_eq_ok {a : α} {x : Except Refusal α} :
    (liftM x : EStateM Failure σ α) s = .ok a s' ↔ x = .ok a ∧ s = s' := by
  cases x with
  | error e =>
    constructor
    · intro h
      cases h
    · intro h
      cases h.1
  | ok b =>
    constructor
    · intro h
      cases h
      exact ⟨rfl, rfl⟩
    · rintro ⟨hb, rfl⟩
      obtain rfl := Except.ok.inj hb
      rfl

/-- A computation on a part has a result if it is put into the whole. -/
theorem putBack_eq_ok {τ : Type} {put : σ → τ} {r : EStateM.Result ε σ α} {a : α} {t : τ} :
    putBack put r = .ok a t ↔ ∃ part, r = .ok a part ∧ t = put part := by
  constructor
  · intro h
    cases r with
    | ok b part =>
      cases h
      exact ⟨part, rfl, rfl⟩
    | error e part => cases h
  · rintro ⟨part, rfl, rfl⟩
    rfl

/-- A run is carried out and ends in a state with `P`, or it fails before it has
changed anything.  Where `rules` are kept, it fails by refusing. -/
def Attempts (rules : Prop) (P : σ → Prop) (x : EStateM Failure σ Unit) (s : σ) : Prop :=
  (∃ s', x s = .ok () s' ∧ P s') ∨ ∃ e, x s = .error e s ∧ (rules → ∃ r, e = .refused r)

namespace Attempts

variable {rules : Prop} {P : σ → Prop}

theorem done {x : EStateM Failure σ Unit} (h : x s = .ok () s') (hs : P s') :
    Attempts rules P x s := .inl ⟨s', h, hs⟩

theorem get {k : σ → EStateM Failure σ Unit} (h : Attempts rules P (k s) s) :
    Attempts rules P ((MonadState.get : EStateM Failure σ σ) >>= k) s := h

theorem check {x : Except Refusal α} {k : α → EStateM Failure σ Unit}
    (h : ∀ a, x = .ok a → Attempts rules P (k a) s) : Attempts rules P (liftM x >>= k) s := by
  cases x with
  | error r => exact .inr ⟨.refused r, rfl, fun _ => ⟨r, rfl⟩⟩
  | ok a => exact h a rfl

theorem compute {x : Except Fault α} {k : α → EStateM Failure σ Unit}
    (hfault : ∀ f, x = .error f → ¬ rules) (h : ∀ a, x = .ok a → Attempts rules P (k a) s) :
    Attempts rules P (liftM x >>= k) s := by
  cases x with
  | error f => exact .inr ⟨.fault f, rfl, fun hrules => absurd hrules (hfault f rfl)⟩
  | ok a => exact h a rfl

theorem ask {x : Except Failure α} {k : α → EStateM Failure σ Unit}
    (hfailure : ∀ e, x = .error e → rules → ∃ r, e = .refused r)
    (h : ∀ a, x = .ok a → Attempts rules P (k a) s) : Attempts rules P (liftM x >>= k) s := by
  cases x with
  | error e => exact .inr ⟨e, rfl, hfailure e rfl⟩
  | ok a => exact h a rfl

theorem guard {p : Prop} [Decidable p] {r : Refusal} {k : PUnit → EStateM Failure σ Unit}
    (h : ¬ p → Attempts rules P (k ⟨⟩) s) :
    Attempts rules P (if p then (do let u ← throw (.refused r); k u) else k ⟨⟩) s := by
  split
  · exact .inr ⟨.refused r, rfl, fun _ => ⟨r, rfl⟩⟩
  · next hp => exact h hp

end Attempts

/-- Whether a run gave a result. -/
def succeeds : EStateM.Result ε σ α → Bool
  | .ok _ _ => true
  | .error _ _ => false

/-- The state that a run ends in. -/
def final : EStateM.Result ε σ α → σ
  | .ok _ s => s
  | .error _ s => s

/-- A run that can be evaluated gave a result, and the state after it. -/
theorem eq_ok_of_succeeds {r : EStateM.Result ε σ Unit} (h : succeeds r = true) :
    r = .ok () (final r) := by
  cases r with
  | ok a s => rfl
  | error e s => cases h

end State

end Outcome
end ArrayFlow
