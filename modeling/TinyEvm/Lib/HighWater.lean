import TinyEvm.Lib.Loop

/-!
# High-water marks

A loop that keeps a high-water mark should, at every point of a run, have it at or above
everything the run has put out so far. `out s` is what the round from `s` puts out and
`outputs` what the rounds of a run do. If no round lowers the mark, a run keeps up with its
outputs exactly when every round does (`covers_iff`): a round that leaves one of its own
outputs above the mark is seen at once, at the end of that round.
-/

namespace TinyEvm.Lib.HighWater

open TinyEvm.Lib.Exec TinyEvm.Lib.Loop

variable {ε σ ρ α : Type} {body : EStateM ε σ (Option ρ)} {out : σ → List α}

/-- What at most `n` rounds put out, the oldest first. -/
def outputs (out : σ → List α) (body : EStateM ε σ (Option ρ)) : Nat → σ → List α
  | 0, _ => []
  | n + 1, s => out s ++ match body s with
    | .ok none s' => outputs out body n s'
    | _ => []

theorem outputs_again {s s' : σ} (h : Again body s s') (n : Nat) :
    outputs out body (n + 1) s = out s ++ outputs out body n s' := by
  rw [outputs, show body s = .ok none s' from h]

theorem after_again {s s' : σ} (h : Again body s s') : after (body s) = s' := by
  rw [show body s = .ok none s' from h, after_ok]

/-- The run is over after its first round, or goes on behind it. -/
theorem run_cases (out : σ → List α) (body : EStateM ε σ (Option ρ)) (n : Nat) (s : σ) :
    (∃ s', Again body s s') ∨
      after (runLoop body (n + 1) s) = after (body s) ∧ outputs out body (n + 1) s = out s := by
  cases hbody : body s with
  | ok answer s' =>
    cases answer with
    | none => exact Or.inl ⟨s', hbody⟩
    | some r =>
      refine Or.inr ⟨?_, ?_⟩
      · rw [runLoop_leave hbody]
      · rw [outputs, hbody, List.append_nil]
  | error e s' =>
    refine Or.inr ⟨?_, ?_⟩
    · rw [runLoop, bind_error hbody]
    · rw [outputs, hbody, List.append_nil]

theorem run_one (out : σ → List α) (body : EStateM ε σ (Option ρ)) (s : σ) :
    after (runLoop body 1 s) = after (body s) ∧ outputs out body 1 s = out s := by
  rcases run_cases out body 0 s with ⟨s', hagain⟩ | hend
  · rw [runLoop_again hagain, outputs_again hagain, after_again hagain]
    exact ⟨rfl, List.append_nil _⟩
  · exact hend

/-- A view of the state that every round folds its outputs into has them all folded in
when the run leaves. -/
theorem run_foldl {τ : Type} {view : σ → τ} {f : τ → α → τ}
    (hround : ∀ s r s', body s = .ok r s' → view s' = (out s).foldl f (view s)) : ∀ (n : Nat)
    {s s' : σ} {r : ρ}, runLoop body n s = .ok (some r) s' →
      view s' = (outputs out body n s).foldl f (view s) := by
  intro n
  induction n with
  | zero =>
    intro s s' r hrun
    cases hrun
  | succ n ih =>
    intro s s' r hrun
    rcases runLoop_cases hrun with hleave | ⟨s₁, hagain, hrest⟩
    · rw [outputs, hleave, List.append_nil]
      exact hround s _ s' hleave
    · rw [outputs_again hagain, List.foldl_append, ← hround s _ s₁ hagain]
      exact ih hrest

section

variable [Preorder α] {mark : σ → α}

/-- The mark of a run covers what it puts out, and is not below where it began. -/
def Covers (mark : σ → α) (out : σ → List α) (body : EStateM ε σ (Option ρ)) (n : Nat)
    (s : σ) : Prop :=
  mark s ≤ mark (after (runLoop body n s)) ∧
    ∀ a ∈ outputs out body n s, a ≤ mark (after (runLoop body n s))

variable (hmono : ∀ s, mark s ≤ mark (after (body s)))

include hmono

theorem mark_le_run : ∀ (n : Nat) (s : σ), mark s ≤ mark (after (runLoop body n s)) := by
  intro n
  induction n with
  | zero =>
    intro s
    exact le_refl _
  | succ n ih =>
    intro s
    have hround := hmono s
    rcases run_cases (fun _ : σ => ([] : List α)) body n s with ⟨s', hagain⟩ | ⟨hend, -⟩
    · rw [runLoop_again hagain]
      rw [after_again hagain] at hround
      exact le_trans hround (ih s')
    · rw [hend]
      exact hround

/-- Rounds that each cover their own outputs. -/
theorem covers_of_rounds : ∀ (n : Nat) {s : σ},
    (∀ s', Reaches body s s' → ∀ a ∈ out s', a ≤ mark (after (body s'))) →
    Covers mark out body n s := by
  intro n
  induction n with
  | zero =>
    intro s _
    exact ⟨le_refl _, fun a ha => absurd ha List.not_mem_nil⟩
  | succ n ih =>
    intro s hrounds
    have hown := hrounds s Relation.ReflTransGen.refl
    refine ⟨mark_le_run hmono (n + 1) s, ?_⟩
    rcases run_cases out body n s with ⟨s', hagain⟩ | ⟨hend, hout⟩
    · have hrest := ih fun s₁ hreach => hrounds s₁ (Relation.ReflTransGen.head hagain hreach)
      rw [after_again hagain] at hown
      rw [runLoop_again hagain, outputs_again hagain]
      intro a ha
      rcases List.mem_append.mp ha with ha | ha
      · exact le_trans (hown a ha) hrest.1
      · exact hrest.2 a ha
    · rw [hend, hout]
      exact hown

/-- A run that covers its outputs at every length does so behind its first round. -/
theorem covers_tail {s s' : σ} (hagain : Again body s s')
    (h : ∀ n, Covers mark out body n s) (n : Nat) : Covers mark out body n s' := by
  refine ⟨mark_le_run hmono n s', ?_⟩
  intro a ha
  have hall := (h (n + 1)).2
  rw [runLoop_again hagain, outputs_again hagain] at hall
  exact hall a (List.mem_append_right _ ha)

/-- **Runs cover what they put out exactly when every round does.** -/
theorem covers_iff (s : σ) : (∀ n, Covers mark out body n s) ↔
    ∀ s', Reaches body s s' → ∀ a ∈ out s', a ≤ mark (after (body s')) := by
  refine ⟨?_, ?_⟩
  · intro h s' hreach
    induction hreach using Relation.ReflTransGen.head_induction_on with
    | refl =>
      have hone := (h 1).2
      rw [(run_one out body _).1, (run_one out body _).2] at hone
      exact hone
    | head hagain _ ih => exact ih (covers_tail hmono hagain h)
  · intro hrounds n
    exact covers_of_rounds hmono n hrounds

end

end TinyEvm.Lib.HighWater
