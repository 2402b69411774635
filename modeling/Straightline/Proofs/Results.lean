import Mathlib.Data.List.Forall2

/-! When a computation with errors succeeds, step by step. -/
namespace Straightline

variable {ε σ α β : Type} {x : EStateM ε σ α} {s u : σ} {a : α} {b : β}

theorem bind_eq_ok {f : α → EStateM ε σ β} :
    (x >>= f) s = .ok b u ↔ ∃ a t, x s = .ok a t ∧ f a t = .ok b u := by
  change EStateM.bind x f s = _ ↔ _
  unfold EStateM.bind
  cases x s with
  | ok a t =>
    constructor
    · intro h
      exact ⟨a, t, rfl, h⟩
    · rintro ⟨_, _, h, h'⟩
      cases h
      exact h'
  | error e t => simp

theorem seq_eq_ok {x : EStateM ε σ Unit} {f : Unit → EStateM ε σ β} :
    (x >>= f) s = .ok b u ↔ ∃ t, x s = .ok () t ∧ f () t = .ok b u := by
  rw [bind_eq_ok]
  exact ⟨fun ⟨_, h⟩ => h, fun h => ⟨(), h⟩⟩

theorem map_eq_ok {f : α → β} : (f <$> x) s = .ok b u ↔ ∃ a, x s = .ok a u ∧ f a = b := by
  change EStateM.map f x s = _ ↔ _
  unfold EStateM.map
  cases x s with
  | ok a t =>
    constructor
    · intro h
      cases h
      exact ⟨a, rfl, rfl⟩
    · rintro ⟨_, h, rfl⟩
      cases h
      rfl
  | error e t => simp

theorem bind_eq_error {f : α → EStateM ε σ β} {e : ε} :
    (x >>= f) s = .error e u ↔ x s = .error e u ∨ ∃ a t, x s = .ok a t ∧ f a t = .error e u := by
  change EStateM.bind x f s = _ ↔ _
  unfold EStateM.bind
  cases x s with
  | ok a t =>
    constructor
    · intro h
      exact .inr ⟨a, t, rfl, h⟩
    · rintro (h | ⟨_, _, h, h'⟩)
      · cases h
      · cases h
        exact h'
  | error e' t => simp

theorem map_eq_error {f : α → β} {e : ε} : (f <$> x) s = .error e u ↔ x s = .error e u := by
  change EStateM.map f x s = _ ↔ _
  unfold EStateM.map
  cases x s <;> simp

theorem pure_eq_ok {a b : α} : (pure a : EStateM ε σ α) s = .ok b u ↔ a = b ∧ s = u := by
  change EStateM.Result.ok a s = _ ↔ _
  simp

theorem throw_eq_ok {e : ε} : (throw e : EStateM ε σ α) s = .ok a u ↔ False := by
  change EStateM.Result.error e s = _ ↔ _
  simp

theorem get_eq_ok {t : σ} : (get : EStateM ε σ σ) s = .ok t u ↔ s = t ∧ s = u := pure_eq_ok

theorem modify_eq_ok {f : σ → σ} {a : PUnit} :
    (modify f : EStateM ε σ PUnit) s = .ok a u ↔ f s = u := by
  change EStateM.Result.ok PUnit.unit (f s) = _ ↔ _
  simp

theorem mapM_eq_some_iff {f : α → Option β} {xs : List α} {ys : List β} :
    xs.mapM f = some ys ↔ List.Forall₂ (fun x y => f x = some y) xs ys := by
  induction xs generalizing ys with
  | nil => cases ys <;> simp
  | cons x xs ih =>
    cases ys with
    | nil => simp [Option.bind_eq_some_iff]
    | cons y ys => simp [Option.bind_eq_some_iff, ih]

theorem except_bind_eq_ok {x : Except ε α} {f : α → Except ε β} :
    (x >>= f) = .ok b ↔ ∃ a, x = .ok a ∧ f a = .ok b := by
  cases x with
  | ok a =>
    constructor
    · intro h
      exact ⟨a, rfl, h⟩
    · rintro ⟨_, h, h'⟩
      cases h
      exact h'
  | error e =>
    constructor
    · intro h
      cases h
    · rintro ⟨_, h, -⟩
      cases h

theorem except_bind_eq_error {x : Except ε α} {f : α → Except ε β} {e : ε} :
    (x >>= f) = .error e ↔ x = .error e ∨ ∃ a, x = .ok a ∧ f a = .error e := by
  cases x with
  | ok a =>
    constructor
    · intro h
      exact .inr ⟨a, rfl, h⟩
    · rintro (h | ⟨_, h, h'⟩)
      · cases h
      · cases h
        exact h'
  | error e' =>
    constructor
    · intro h
      cases h
      exact .inl rfl
    · rintro (h | ⟨_, h, -⟩)
      · cases h
        rfl
      · cases h

theorem exists_ok_of_toOption {x : Except ε α} {f : α → β} (h : x.toOption.map f = some b) :
    ∃ a, x = .ok a ∧ f a = b := by
  cases x with
  | ok a => exact ⟨a, rfl, Option.some.inj h⟩
  | error e => cases h

theorem mapM_eq_ok_iff {f : α → Except ε β} {xs : List α} {ys : List β} :
    xs.mapM f = .ok ys ↔ List.Forall₂ (fun x y => f x = .ok y) xs ys := by
  induction xs generalizing ys with
  | nil => simp [pure, Except.pure, eq_comm (b := ys)]
  | cons x xs ih =>
    simp only [List.mapM_cons, except_bind_eq_ok, ih]
    constructor
    · rintro ⟨y, hy, zs, hzs, h⟩
      obtain rfl := Except.ok.inj h
      exact .cons hy hzs
    · rintro (_ | ⟨hy, hzs⟩)
      exact ⟨_, hy, _, hzs, rfl⟩

/-- A member of the one list has its partner at the same place of the other. -/
theorem forall₂_split {R : α → β → Prop} {xs : List α} {ys : List β} (h : List.Forall₂ R xs ys)
    (ha : a ∈ xs) : ∃ pre post b pre' post', xs = pre ++ a :: post ∧ ys = pre' ++ b :: post' ∧
      List.Forall₂ R pre pre' ∧ R a b ∧ List.Forall₂ R post post' := by
  induction h with
  | nil => cases ha
  | @cons x y xs ys hxy hrest ih =>
    rcases List.mem_cons.1 ha with rfl | ha
    · exact ⟨[], xs, y, [], ys, rfl, rfl, .nil, hxy, hrest⟩
    · obtain ⟨pre, post, b, pre', post', rfl, rfl, hpre, hab, hpost⟩ := ih ha
      exact ⟨x :: pre, post, b, y :: pre', post', rfl, rfl, .cons hxy hpre, hab, hpost⟩

end Straightline
