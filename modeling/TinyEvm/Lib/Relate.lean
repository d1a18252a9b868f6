import TinyEvm.Lib.Loop

/-!
# Two runs of one command

A command run twice, from two states, ends alike (`Same R E`) when both runs
return the same value in states related by `R`, or both stop with the same fault
in states related by `E`. The second relation is the weaker one: what a fault
leaves behind is looked at by nobody but the final observer.

`Coupled R E ok x` is that for every pair of `R`-related states, as far as the
first run is `ok`: `ok` is a property of states that no command can restore once
it is lost, so that a sequence that ends `ok` was `ok` at every point on its way.
Sequences and branches inherit it, and `runLoop` carries a relation between loop
heads to the end of the loop.
-/

namespace TinyEvm.Lib.Relate

open TinyEvm.Lib.Exec TinyEvm.Lib.Loop

variable {ε σ ρ : Type} {α β : Type} {R R' E : σ → σ → Prop} {ok : σ → Prop}

/-- Two results that agree: one value and `R`, or one fault and `E`. -/
inductive Same (R E : σ → σ → Prop) : EStateM.Result ε σ α → EStateM.Result ε σ α → Prop
  | ok {a : α} {s t : σ} (h : R s t) : Same R E (.ok a s) (.ok a t)
  | error {e : ε} {s t : σ} (h : E s t) : Same R E (.error e s) (.error e t)

namespace Same

theorem mono {r r' : EStateM.Result ε σ α} (h : Same R E r r') (hR : ∀ s t, R s t → R' s t) :
    Same R' E r r' := by
  cases h with
  | ok h => exact ok (hR _ _ h)
  | error h => exact error h

theorem symm {r r' : EStateM.Result ε σ α} (h : Same R E r r') (hR : ∀ s t, R s t → R t s)
    (hE : ∀ s t, E s t → E t s) : Same R E r' r := by
  cases h with
  | ok h => exact ok (hR _ _ h)
  | error h => exact error (hE _ _ h)

theorem trans {r r' r'' : EStateM.Result ε σ α} (h : Same R E r r') (h' : Same R E r' r'')
    (hR : ∀ s t u, R s t → R t u → R s u) (hE : ∀ s t u, E s t → E t u → E s u) :
    Same R E r r'' := by
  cases h with
  | ok h =>
    cases h' with
    | ok h' => exact ok (hR _ _ _ h h')
  | error h =>
    cases h' with
    | error h' => exact error (hE _ _ _ h h')

/-- What is observed of the two results. -/
theorem after {r r' : EStateM.Result ε σ α} (h : Same R E r r') (hR : ∀ s t, R s t → E s t) :
    E (Exec.after r) (Exec.after r') := by
  cases h with
  | ok h => exact hR _ _ h
  | error h => exact h

/-- Sequences that agree on their first part agree if they do so behind it. -/
theorem bind {x : EStateM ε σ α} {f : α → EStateM ε σ β} {s t : σ} (hx : Same R E (x s) (x t))
    (hf : ∀ a s' t', x s = .ok a s' → R s' t' → Same R' E (f a s') (f a t')) :
    Same R' E ((x >>= f) s) ((x >>= f) t) := by
  generalize hs : x s = r at hx
  generalize ht : x t = r' at hx
  cases hx with
  | ok h =>
    rw [bind_ok hs, bind_ok ht]
    exact hf _ _ _ hs h
  | error h =>
    rw [bind_error hs, bind_error ht]
    exact error h

theorem ite {c : Prop} [Decidable c] {x y : EStateM ε σ α} {s t : σ}
    (hx : c → Same R E (x s) (x t)) (hy : ¬c → Same R E (y s) (y t)) :
    Same R E ((if c then x else y) s) ((if c then x else y) t) := by
  split
  next hc => exact hx hc
  next hc => exact hy hc

end Same

/-- From related states a command ends alike, as far as the first run is `ok`. -/
structure Coupled (R E : σ → σ → Prop) (ok : σ → Prop) (x : EStateM ε σ α) : Prop where
  back : ∀ s, ok (after (x s)) → ok s
  same : ∀ s t, R s t → ok (after (x s)) → Same R E (x s) (x t)

namespace Coupled

theorem pure (a : α) : Coupled R E ok (Pure.pure a : EStateM ε σ α) :=
  ⟨fun _ h => h, fun _ _ h _ => .ok h⟩

theorem throw (hE : ∀ s t, R s t → E s t) (e : ε) :
    Coupled R E ok (MonadExcept.throw e : EStateM ε σ α) :=
  ⟨fun _ h => h, fun s t h _ => .error (hE s t h)⟩

theorem update {f : σ → σ} (hback : ∀ s, ok (f s) → ok s) (h : ∀ s t, R s t → R (f s) (f t)) :
    Coupled R E ok (modify f : EStateM ε σ PUnit) :=
  ⟨hback, fun s t hst _ => .ok (h s t hst)⟩

/-- Whatever is read of the state is the same in related states. -/
theorem read {τ : Type} {π : σ → τ} (hπ : ∀ s t, R s t → π s = π t) {f : τ → EStateM ε σ β}
    (hf : ∀ a, Coupled R E ok (f a)) :
    Coupled R E ok ((get : EStateM ε σ σ) >>= fun s => f (π s)) := by
  refine ⟨fun s h => (hf (π s)).back s h, ?_⟩
  intro s t hst hok
  show Same R E (f (π s) s) (f (π t) t)
  rw [← hπ s t hst]
  exact (hf (π s)).same s t hst hok

/-- A sequence that ends `ok` was so between its parts. -/
theorem back_bind {x : EStateM ε σ α} {f : α → EStateM ε σ β}
    (hf : ∀ a s, ok (after (f a s)) → ok s) {s : σ} (h : ok (after ((x >>= f) s))) :
    ok (after (x s)) := by
  cases hs : x s with
  | ok a s' =>
    rw [bind_ok hs] at h
    exact hf a s' h
  | error e s' =>
    rw [bind_error hs] at h
    exact h

/-- A sequence at two given states. -/
theorem same_bind {x : EStateM ε σ α} {f : α → EStateM ε σ β} {s t : σ}
    (hx : ok (after (x s)) → Same R E (x s) (x t)) (hf : ∀ a, Coupled R' E ok (f a))
    (hR : ∀ s t, R s t → R' s t) (hok : ok (after ((x >>= f) s))) :
    Same R' E ((x >>= f) s) ((x >>= f) t) := by
  refine (hx (back_bind (fun a => (hf a).back) hok)).bind ?_
  intro a s' t' hs hst
  rw [bind_ok hs] at hok
  exact (hf a).same s' t' (hR s' t' hst) hok

theorem bind {x : EStateM ε σ α} {f : α → EStateM ε σ β} (hx : Coupled R E ok x)
    (hf : ∀ a, Coupled R E ok (f a)) : Coupled R E ok (x >>= f) := by
  refine ⟨fun s h => hx.back s (back_bind (fun a => (hf a).back) h), ?_⟩
  intro s t hst hok
  exact same_bind (fun h => hx.same s t hst h) hf (fun _ _ h => h) hok

end Coupled

/-! ## Commands that have nothing to do with the state -/

/-- One value or one fault, from every state and without a trace. -/
def Fixed (x : EStateM ε σ α) : Prop := (∃ a, x = Pure.pure a) ∨ ∃ e, x = MonadExcept.throw e

theorem Fixed.bind {x : EStateM ε σ α} {f : α → EStateM ε σ β} (hx : Fixed x)
    (hf : ∀ a, Fixed (f a)) : Fixed (x >>= f) := by
  rcases hx with ⟨a, rfl⟩ | ⟨e, rfl⟩
  · rw [pure_bind]
    exact hf a
  · exact Or.inr ⟨e, rfl⟩

theorem Fixed.same_bind {x : EStateM ε σ α} {f : α → EStateM ε σ β} {s t : σ} (hx : Fixed x)
    (hst : E s t) (hf : ∀ a, Same R E (f a s) (f a t)) : Same R E ((x >>= f) s) ((x >>= f) t) := by
  rcases hx with ⟨a, rfl⟩ | ⟨e, rfl⟩
  · rw [pure_bind]
    exact hf a
  · exact .error hst

/-- **Loops.** If related heads go through a round alike, and two rounds that both go
on lead to related heads, the loops end alike after any number of rounds. -/
theorem Same.runLoop {body : EStateM ε σ (Option ρ)} (hE : ∀ s t, R s t → E s t)
    (hround : ∀ s t, R s t → Same E E (body s) (body t))
    (hagain : ∀ s t s' t', R s t → Again body s s' → Again body t t' → R s' t') :
    ∀ (n : Nat) {s t : σ}, R s t → Same E E (runLoop body n s) (runLoop body n t) := by
  intro n
  induction n with
  | zero =>
    intro s t hst
    exact .ok (hE s t hst)
  | succ n ih =>
    intro s t hst
    have hbody := hround s t hst
    generalize hs : body s = r at hbody
    generalize ht : body t = r' at hbody
    cases hbody with
    | error h =>
      rw [Loop.runLoop, bind_error hs, bind_error ht]
      exact .error h
    | @ok answer s' t' h =>
      cases answer with
      | some r =>
        rw [runLoop_leave hs, runLoop_leave ht]
        exact .ok h
      | none =>
        rw [runLoop_again hs, runLoop_again ht]
        exact ih (hagain s t s' t' hst hs ht)

end TinyEvm.Lib.Relate
