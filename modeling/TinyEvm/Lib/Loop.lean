import TinyEvm.Lib.Exec
import Mathlib.Data.Fintype.Pigeonhole
import Mathlib.Logic.Relation
import Mathlib.Order.Lattice.Nat

/-!
# Loops over a state and a fault

A loop is a command `body` that runs one round and answers `none` to go on or
`some r` to leave with the reason `r`. `runLoop body n` runs at most `n` rounds;
`Again body s s'` says that a round leads from the loop head `s` to the loop
head `s'`; `Reaches body` is its closure and `Endless body s` an infinite
sequence of rounds from `s`.

`Visits C body s₀` are the states of a run whose rounds all start where `C`
holds: the loop heads and the state each round leaves behind, by whichever exit.
A property every such round preserves holds at all of them (`visits_invariant`).
-/

namespace TinyEvm.Lib.Loop

open TinyEvm.Lib.Exec

variable {ε σ ρ : Type} {body : EStateM ε σ (Option ρ)}

/-- At most `n` rounds; `none` when all of them went on. -/
def runLoop (body : EStateM ε σ (Option ρ)) : Nat → EStateM ε σ (Option ρ)
  | 0 => pure none
  | n + 1 => do
    match ← body with
    | some r => return some r
    | none => runLoop body n

/-- One round from loop head to loop head. -/
def Again (body : EStateM ε σ (Option ρ)) (s s' : σ) : Prop := body s = .ok none s'

/-- The loop heads reachable from a loop head. -/
def Reaches (body : EStateM ε σ (Option ρ)) : σ → σ → Prop :=
  Relation.ReflTransGen (Again body)

/-- Rounds without end. -/
def Endless (body : EStateM ε σ (Option ρ)) (s : σ) : Prop :=
  ∃ head : Nat → σ, head 0 = s ∧ ∀ n, Again body (head n) (head (n + 1))

/-- The loop heads reached by rounds that each start where `C` holds. -/
def ReachesWhile (C : σ → Prop) (body : EStateM ε σ (Option ρ)) : σ → σ → Prop :=
  Relation.ReflTransGen fun s s' => C s ∧ Again body s s'

/-- The states of a run whose rounds each start where `C` holds. -/
inductive Visits (C : σ → Prop) (body : EStateM ε σ (Option ρ)) (s₀ : σ) : σ → Prop
  | head {s : σ} : ReachesWhile C body s₀ s → Visits C body s₀ s
  | round {s : σ} : ReachesWhile C body s₀ s → C s → Visits C body s₀ (after (body s))

/-! ## Running rounds -/

theorem runLoop_again {s s' : σ} (h : Again body s s') (n : Nat) :
    runLoop body (n + 1) s = runLoop body n s' := by
  rw [runLoop, bind_ok h]

theorem runLoop_leave {s s' : σ} {r : ρ} (h : body s = .ok (some r) s') (n : Nat) :
    runLoop body (n + 1) s = .ok (some r) s' := by
  rw [runLoop, bind_ok h]
  rfl

/-- A loop that leaves does so in its first round or in a later one. -/
theorem runLoop_cases {n : Nat} {s s' : σ} {r : ρ} (h : runLoop body (n + 1) s = .ok (some r) s') :
    body s = .ok (some r) s' ∨ ∃ s₁, Again body s s₁ ∧ runLoop body n s₁ = .ok (some r) s' := by
  rw [runLoop] at h
  obtain ⟨answer, s₁, hbody, hrest⟩ := bind_eq_ok.mp h
  cases answer with
  | some r' =>
    cases hrest
    exact Or.inl hbody
  | none => exact Or.inr ⟨s₁, hbody, hrest⟩

/-- A property of loop heads that every round from a `C` head preserves holds at all
of them. -/
theorem reachesWhile_invariant {C I : σ → Prop} (hstep : ∀ s s', C s → Again body s s' → I s → I s')
    {s s' : σ} (h : ReachesWhile C body s s') (hs : I s) : I s' := by
  induction h with
  | refl => exact hs
  | tail _ hlast ih => exact hstep _ _ hlast.1 hlast.2 ih

/-- A property that survives every round from a `C` head holds at every state of
the run, also where it faults. -/
theorem visits_invariant {C I : σ → Prop} (hstep : ∀ s, C s → I s → I (after (body s)))
    {s₀ s : σ} (h : Visits C body s₀ s) (hs : I s₀) : I s := by
  have hhead : ∀ s, ReachesWhile C body s₀ s → I s := by
    intro s hreach
    refine reachesWhile_invariant ?_ hreach hs
    intro s₁ s₂ hC hagain hI
    have hI' := hstep s₁ hC hI
    rw [show body s₁ = .ok none s₂ from hagain, after_ok] at hI'
    exact hI'
  cases h with
  | head hreach => exact hhead _ hreach
  | round hreach hC => exact hstep _ hC (hhead _ hreach)

/-! ## Runs that can be computed -/

/-- The state after `n` rounds, whatever they answer. -/
def afterRounds (body : EStateM ε σ (Option ρ)) : Nat → σ → σ
  | 0, s => s
  | n + 1, s => afterRounds body n (after (body s))

/-- Whether each of the next `n` rounds goes on. -/
def goesOn (body : EStateM ε σ (Option ρ)) : Nat → σ → Bool
  | 0, _ => true
  | n + 1, s => match body s with
    | .ok none s' => goesOn body n s'
    | _ => false

theorem reaches_of_goesOn : ∀ (n : Nat) {s : σ}, goesOn body n s = true →
    Reaches body s (afterRounds body n s) := by
  intro n
  induction n with
  | zero =>
    intro s _
    exact Relation.ReflTransGen.refl
  | succ n ih =>
    intro s h
    rw [goesOn] at h
    split at h
    next s' hbody =>
      rw [afterRounds, hbody, after_ok]
      exact Relation.ReflTransGen.head hbody (ih h)
    next => cases h

/-- Every head that is reached is computed by some number of rounds that go on. -/
theorem goesOn_of_reaches {s s' : σ} (h : Reaches body s s') :
    ∃ n, goesOn body n s = true ∧ s' = afterRounds body n s := by
  induction h using Relation.ReflTransGen.head_induction_on with
  | refl => exact ⟨0, rfl, rfl⟩
  | head hagain _ ih =>
    obtain ⟨n, hgo, heq⟩ := ih
    refine ⟨n + 1, ?_, ?_⟩
    · rw [goesOn, show body _ = _ from hagain]
      exact hgo
    · rw [afterRounds, show body _ = _ from hagain]
      exact heq

theorem goesOn_of_le : ∀ {k n : Nat} {s : σ}, k ≤ n → goesOn body n s = true → goesOn body k s = true := by
  intro k
  induction k with
  | zero =>
    intro n s _ _
    rfl
  | succ k ih =>
    intro n s hle hgo
    obtain ⟨m, rfl⟩ := Nat.exists_eq_add_of_le' hle
    rw [← Nat.add_assoc, goesOn] at hgo
    rw [goesOn]
    split at hgo
    next s' hbody => exact ih (by omega) hgo
    next => cases hgo

/-- Whether the next round leaves with `r`. -/
def leavesWith [DecidableEq ρ] (body : EStateM ε σ (Option ρ)) (r : ρ) (s : σ) : Bool :=
  match body s with
  | .ok (some r') _ => decide (r' = r)
  | _ => false

theorem leave_of_leavesWith [DecidableEq ρ] {r : ρ} {s : σ} (h : leavesWith body r s = true) :
    body s = .ok (some r) (after (body s)) := by
  unfold leavesWith at h
  split at h
  next r' s' hbody =>
    rw [hbody, of_decide_eq_true h]
    rfl
  next => cases h

/-- `n` rounds that go on and one that leaves. -/
theorem runLoop_of_goesOn [DecidableEq ρ] {r : ρ} : ∀ (n : Nat) {s : σ}, goesOn body n s = true →
    leavesWith body r (afterRounds body n s) = true →
    runLoop body (n + 1) s = .ok (some r) (after (body (afterRounds body n s))) := by
  intro n
  induction n with
  | zero =>
    intro s _ hleave
    exact runLoop_leave (leave_of_leavesWith hleave) 0
  | succ n ih =>
    intro s hgo hleave
    rw [goesOn] at hgo
    split at hgo
    next s' hbody =>
      rw [afterRounds, hbody, after_ok] at hleave ⊢
      exact (runLoop_again hbody (n + 1)).trans (ih hgo hleave)
    next => cases hgo

/-! ## Endless runs -/

/-- A set of heads from which every round goes on inside the set is never left. -/
theorem endless_of_invariant {I : σ → Prop} (hstep : ∀ s, I s → ∃ s', Again body s s' ∧ I s')
    {s : σ} (hs : I s) : Endless body s := by
  choose next hagain hI using hstep
  let head : Nat → { s // I s } := fun n => Nat.rec ⟨s, hs⟩ (fun _ h => ⟨next h.1 h.2, hI h.1 h.2⟩) n
  exact ⟨fun n => (head n).1, rfl, fun n => hagain (head n).1 (head n).2⟩

/-- What is endless from a reachable head is endless from the start. -/
theorem Endless.of_reaches {s s' : σ} (hreach : Reaches body s s') (h : Endless body s') :
    Endless body s := by
  induction hreach using Relation.ReflTransGen.head_induction_on with
  | refl => exact h
  | @head s₁ s₂ hfirst _ ih =>
    obtain ⟨head, hzero, hrun⟩ := ih
    refine ⟨fun n => Nat.casesOn n s₁ head, rfl, ?_⟩
    intro n
    cases n with
    | zero =>
      show Again body _ (head 0)
      rw [hzero]
      exact hfirst
    | succ n => exact hrun n

theorem reaches_head {head : Nat → σ} (hrun : ∀ n, Again body (head n) (head (n + 1))) :
    ∀ n, Reaches body (head 0) (head n) := by
  intro n
  induction n with
  | zero => exact Relation.ReflTransGen.refl
  | succ n ih => exact ih.tail (hrun n)

/-- A bounded meter that never falls stands still from some point on. -/
theorem eventually_still {meter : Nat → Nat} {m : Nat} (hmono : Monotone meter)
    (hbound : ∀ n, meter n ≤ m) : ∃ N, ∀ n, N ≤ n → meter n = meter N := by
  have hbdd : BddAbove (Set.range meter) := by
    refine ⟨m, ?_⟩
    rintro _ ⟨n, rfl⟩
    exact hbound n
  obtain ⟨N, hN⟩ := Nat.sSup_mem (Set.range_nonempty meter) hbdd
  refine ⟨N, fun n hn => ?_⟩
  have hle : meter n ≤ meter N := by
    rw [hN]
    exact le_csSup hbdd ⟨n, rfl⟩
  exact Nat.le_antisymm hle (hmono hn)

/-- With finitely many positions an endless chain comes back to one of them. -/
theorem exists_return {R : σ → σ → Prop} {π : Type} [Finite π] (pos : σ → π) {head : Nat → σ}
    (hrun : ∀ n, R (head n) (head (n + 1))) :
    ∃ i j, Relation.TransGen R (head i) (head j) ∧ pos (head i) = pos (head j) := by
  have hchain : ∀ i d, Relation.TransGen R (head i) (head (i + d + 1)) := by
    intro i d
    induction d with
    | zero => exact Relation.TransGen.single (hrun i)
    | succ d ih => exact ih.tail (hrun (i + d + 1))
  have hlt : ∀ i j, i < j → Relation.TransGen R (head i) (head j) := by
    intro i j hij
    have h := hchain i (j - i - 1)
    rw [show i + (j - i - 1) + 1 = j by omega] at h
    exact h
  obtain ⟨i, j, hne, heq⟩ := Finite.exists_ne_map_eq_of_infinite fun i => pos (head i)
  rcases Nat.lt_or_gt_of_ne hne with h | h
  · exact ⟨i, j, hlt i j h, heq⟩
  · exact ⟨j, i, hlt j i h, heq.symm⟩

end TinyEvm.Lib.Loop
