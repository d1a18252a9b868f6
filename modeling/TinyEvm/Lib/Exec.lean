import Mathlib.Logic.Basic

/-!
# Computations with a state and a fault

`EStateM ε σ` runs a command from a state to either a value and a new state or
a fault `ε` and the state it struck in: the state survives the fault, so that
what a command had done before it went wrong can be talked about. This file has
the rules the proofs about such commands use:

* how a sequence runs (`bind_ok`, `bind_error`, `get_bind`, `bind_eq_ok`);
* `Keeps π x`: the command `x` leaves the part `π` of the state alone, whether
  it succeeds or faults;
* `Raises E x s` and `Never E x`: which faults a command can end in.
-/

namespace TinyEvm.Lib.Exec

variable {ε σ τ : Type} {α β : Type}

/-- The state a run leaves behind, also when it faults. -/
def after : EStateM.Result ε σ α → σ
  | .ok _ s => s
  | .error _ s => s

@[simp] theorem after_ok (a : α) (s : σ) : after (.ok a s : EStateM.Result ε σ α) = s := rfl

@[simp] theorem after_error (e : ε) (s : σ) :
    after (.error e s : EStateM.Result ε σ α) = s := rfl

/-! ## Running a sequence -/

theorem bind_ok {x : EStateM ε σ α} {s s' : σ} {a : α} (h : x s = .ok a s')
    (f : α → EStateM ε σ β) : (x >>= f) s = f a s' := by
  show EStateM.bind x f s = f a s'
  rw [EStateM.bind, h]

theorem bind_error {x : EStateM ε σ α} {s s' : σ} {e : ε} (h : x s = .error e s')
    (f : α → EStateM ε σ β) : (x >>= f) s = .error e s' := by
  show EStateM.bind x f s = .error e s'
  rw [EStateM.bind, h]

/-- Reading the state hands it on. -/
theorem get_bind (f : σ → EStateM ε σ β) (s : σ) : ((get : EStateM ε σ σ) >>= f) s = f s s := rfl

theorem modify_bind (g : σ → σ) (f : PUnit → EStateM ε σ β) (s : σ) :
    ((modify g : EStateM ε σ PUnit) >>= f) s = f ⟨⟩ (g s) := rfl

/-- Sequences whose first parts run alike run alike. -/
theorem bind_run {x y : EStateM ε σ α} {s t : σ} (h : x s = y t) (f : α → EStateM ε σ β) :
    (x >>= f) s = (y >>= f) t := by
  show EStateM.bind x f s = EStateM.bind y f t
  rw [EStateM.bind, EStateM.bind, h]

/-- A sequence succeeds exactly when both of its parts do. -/
theorem bind_eq_ok {x : EStateM ε σ α} {f : α → EStateM ε σ β} {s s'' : σ} {b : β} :
    (x >>= f) s = .ok b s'' ↔ ∃ a s', x s = .ok a s' ∧ f a s' = .ok b s'' := by
  cases h : x s with
  | ok a s' =>
    rw [bind_ok h]
    refine ⟨?_, ?_⟩
    · intro hf
      exact ⟨a, s', rfl, hf⟩
    · intro hboth
      obtain ⟨a', s₁, heq, hf⟩ := hboth
      obtain ⟨rfl, rfl⟩ := EStateM.Result.ok.injEq .. ▸ heq
      exact hf
  | error e s' =>
    rw [bind_error h]
    refine ⟨?_, ?_⟩
    · intro hf
      cases hf
    · intro hboth
      obtain ⟨a', s₁, heq, -⟩ := hboth
      cases heq

/-! ## Parts of the state a command leaves alone -/

/-- `x` does not change the part `π` of the state. -/
def Keeps (π : σ → τ) (x : EStateM ε σ α) : Prop := ∀ s, π (after (x s)) = π s

theorem Keeps.pure (π : σ → τ) (a : α) : Keeps π (Pure.pure a : EStateM ε σ α) :=
  fun _ => rfl

theorem Keeps.throw (π : σ → τ) (e : ε) : Keeps π (MonadExcept.throw e : EStateM ε σ α) :=
  fun _ => rfl

theorem Keeps.get (π : σ → τ) : Keeps π (MonadState.get : EStateM ε σ σ) := fun _ => rfl

theorem Keeps.update {π : σ → τ} {f : σ → σ} (h : ∀ s, π (f s) = π s) :
    Keeps π (modify f : EStateM ε σ PUnit) := h

theorem Keeps.bind {π : σ → τ} {x : EStateM ε σ α} {f : α → EStateM ε σ β}
    (hx : Keeps π x) (hf : ∀ a, Keeps π (f a)) : Keeps π (x >>= f) := by
  intro s
  have h := hx s
  cases hr : x s with
  | ok a s' =>
    rw [bind_ok hr, hf a s']
    rw [hr] at h
    exact h
  | error e s' =>
    rw [bind_error hr]
    rw [hr] at h
    exact h

theorem Keeps.ite {π : σ → τ} {c : Prop} [Decidable c] {x y : EStateM ε σ α}
    (hx : Keeps π x) (hy : Keeps π y) : Keeps π (if c then x else y) := by
  split
  · exact hx
  · exact hy

/-- The kept part of the state after a successful run. -/
theorem Keeps.ok {π : σ → τ} {x : EStateM ε σ α} (h : Keeps π x) {s s' : σ} {a : α}
    (hr : x s = .ok a s') : π s' = π s := by
  have hs := h s
  rw [hr] at hs
  exact hs

/-! ## Faults a command can raise -/

/-- From `s`, `x` ends in a fault of the kind `E`. -/
def Raises (E : ε → Prop) (x : EStateM ε σ α) (s : σ) : Prop := ∃ e s', x s = .error e s' ∧ E e

/-- `x` never ends in a fault of the kind `E`. -/
def Never (E : ε → Prop) (x : EStateM ε σ α) : Prop := ∀ s, ¬Raises E x s

theorem Raises.mono {E F : ε → Prop} {x : EStateM ε σ α} {s : σ} (hEF : ∀ e, E e → F e)
    (h : Raises E x s) : Raises F x s := by
  obtain ⟨e, s', hrun, he⟩ := h
  exact ⟨e, s', hrun, hEF e he⟩

theorem raises_of_ok {E : ε → Prop} {x : EStateM ε σ α} {s s' : σ} {a : α} (h : x s = .ok a s') :
    ¬Raises E x s := by
  intro hraises
  obtain ⟨e, s₁, herror, -⟩ := hraises
  rw [h] at herror
  cases herror

theorem raises_bind_ok {E : ε → Prop} {x : EStateM ε σ α} {s s' : σ} {a : α} (h : x s = .ok a s')
    (f : α → EStateM ε σ β) : Raises E (x >>= f) s ↔ Raises E (f a) s' := by
  unfold Raises
  rw [bind_ok h]

theorem raises_modify {E : ε → Prop} {g : σ → σ} {f : PUnit → EStateM ε σ β} {s : σ} :
    Raises E ((modify g : EStateM ε σ PUnit) >>= f) s ↔ Raises E (f ⟨⟩) (g s) :=
  raises_bind_ok rfl f

theorem raises_bind_error {E : ε → Prop} {x : EStateM ε σ α} {s s' : σ} {e : ε}
    (h : x s = .error e s') (f : α → EStateM ε σ β) : Raises E (x >>= f) s ↔ E e := by
  unfold Raises
  rw [bind_error h]
  refine ⟨?_, fun he => ⟨e, s', rfl, he⟩⟩
  intro hraises
  obtain ⟨e', s₁, heq, he⟩ := hraises
  cases heq
  exact he

namespace Never

variable {E : ε → Prop}

theorem pure (a : α) : Never E (Pure.pure a : EStateM ε σ α) := fun _ => raises_of_ok rfl

theorem get : Never E (MonadState.get : EStateM ε σ σ) := fun _ => raises_of_ok rfl

theorem update (f : σ → σ) : Never E (modify f : EStateM ε σ PUnit) := fun _ => raises_of_ok rfl

theorem throw {e : ε} (h : ¬E e) : Never E (MonadExcept.throw e : EStateM ε σ α) := by
  intro s hraises
  obtain ⟨e', s', heq, he⟩ := hraises
  cases heq
  exact h he

theorem bind {x : EStateM ε σ α} {f : α → EStateM ε σ β} (hx : Never E x) (hf : ∀ a, Never E (f a)) :
    Never E (x >>= f) := by
  intro s hraises
  cases hr : x s with
  | ok a s' => exact hf a s' ((raises_bind_ok hr f).mp hraises)
  | error e s' => exact hx s ⟨e, s', hr, (raises_bind_error hr f).mp hraises⟩

theorem ite {c : Prop} [Decidable c] {x y : EStateM ε σ α} (hx : Never E x) (hy : Never E y) :
    Never E (if c then x else y) := by
  split
  · exact hx
  · exact hy

end Never

/-- Only the first part of a sequence can raise what the second never does. -/
theorem raises_bind_never {E : ε → Prop} {x : EStateM ε σ α} {f : α → EStateM ε σ β}
    (hf : ∀ a, Never E (f a)) {s : σ} : Raises E (x >>= f) s ↔ Raises E x s := by
  cases hr : x s with
  | ok a s' =>
    rw [raises_bind_ok hr]
    exact ⟨fun h => absurd h (hf a s'), fun h => absurd h (raises_of_ok hr)⟩
  | error e s' =>
    rw [raises_bind_error hr]
    refine ⟨fun he => ⟨e, s', hr, he⟩, ?_⟩
    intro h
    obtain ⟨e', s₁, heq, he⟩ := h
    rw [hr] at heq
    cases heq
    exact he

end TinyEvm.Lib.Exec
