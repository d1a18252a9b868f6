import Mathlib.Algebra.Order.Ring.Nat
import Mathlib.Data.Nat.Bitwise
import Mathlib.Tactic.Ring

/-!
# Division by shifting and subtracting

The schoolbook division of `l` by `r` in base two keeps the divisor shifted to
`r * 2 ^ k`, the bit `2 ^ k` that goes with it, the quotient found so far and the
remainder. A round subtracts the shifted divisor where it can, sets the bit, and
moves on to `k - 1`; the loop ends as soon as the remainder is below `r`, which may
be long before `k` has reached zero.

`Inv l r k` is what holds between two rounds. The bound `rem < 2 * shifted` makes one
subtraction a round enough, and the divisibility of the quotient by `2 ^ (k + 1)` makes
setting the bit an addition. A round takes `Inv l r (k + 1)` to `Inv l r k`
(`Inv.step`) and ends the loop from `Inv l r 0` (`Inv.last`), so `k + 1` rounds are
enough (`loop_of_inv`). With `r = 0` the loop never ends (`loop_zero`).
-/

namespace TinyEvm.Lib.ShiftSubtract

/-- The numbers of the loop: the shifted divisor, its bit, quotient and remainder. -/
structure State where
  shifted : Nat
  bit : Nat
  quot : Nat
  rem : Nat

/-- One round. -/
def step (s : State) : State :=
  if s.shifted ≤ s.rem then
    ⟨s.shifted / 2, s.bit / 2, s.quot ||| s.bit, s.rem - s.shifted⟩
  else ⟨s.shifted / 2, s.bit / 2, s.quot, s.rem⟩

/-- Rounds while the remainder is not below the divisor, at most `rounds` of them. -/
def loop (r : Nat) : Nat → State → Option State
  | 0, s => if r ≤ s.rem then none else some s
  | rounds + 1, s => if r ≤ s.rem then loop r rounds (step s) else some s

/-- Quotient and remainder add up to the dividend. -/
def Sound (l r : Nat) (s : State) : Prop := s.quot * r + s.rem = l

/-- Between two rounds: the divisor is shifted by `k`, and the bits above are settled. -/
structure Inv (l r k : Nat) (s : State) : Prop where
  shifted : s.shifted = r * 2 ^ k
  bit : s.bit = 2 ^ k
  rem_lt : s.rem < 2 * s.shifted
  settled : 2 ^ (k + 1) ∣ s.quot
  sound : Sound l r s

theorem or_two_pow {q k : Nat} (h : 2 ^ (k + 1) ∣ q) : q ||| 2 ^ k = q + 2 ^ k := by
  obtain ⟨a, rfl⟩ := h
  exact (Nat.two_pow_add_eq_or_of_lt (Nat.pow_lt_pow_right (by omega) (by omega)) a).symm

/-- What a round does to quotient and remainder, whatever `k` is. -/
theorem Inv.round {l r k : Nat} {s : State} (h : Inv l r k s) :
    (step s).rem < r * 2 ^ k ∧ 2 ^ k ∣ (step s).quot ∧ Sound l r (step s) := by
  have hlt := h.rem_lt
  have hsound : s.quot * r + s.rem = l := h.sound
  have hdvd : 2 ^ k ∣ s.quot := Dvd.dvd.trans (Nat.pow_dvd_pow 2 (by omega)) h.settled
  rw [← h.shifted]
  unfold step
  split
  next hle =>
    refine ⟨by dsimp only; omega, ?_, ?_⟩
    · show 2 ^ k ∣ s.quot ||| s.bit
      rw [h.bit, or_two_pow h.settled]
      exact Nat.dvd_add hdvd (Nat.dvd_refl _)
    · show (s.quot ||| s.bit) * r + (s.rem - s.shifted) = l
      have hbit : 2 ^ k * r = s.shifted := by rw [h.shifted, Nat.mul_comm]
      rw [h.bit, or_two_pow h.settled, Nat.add_mul, hbit]
      omega
  next hgt => exact ⟨by dsimp only; omega, hdvd, hsound⟩

/-- A round with bits left. -/
theorem Inv.step {l r k : Nat} {s : State} (h : Inv l r (k + 1) s) : Inv l r k (step s) := by
  obtain ⟨hrem, hdvd, hsound⟩ := h.round
  have hshifted : (ShiftSubtract.step s).shifted = r * 2 ^ k := by
    have hhalf : (ShiftSubtract.step s).shifted = s.shifted / 2 := by
      unfold ShiftSubtract.step
      split <;> rfl
    rw [hhalf, h.shifted, Nat.pow_succ, ← Nat.mul_assoc, Nat.mul_div_cancel _ (by omega)]
  have hbit : (ShiftSubtract.step s).bit = 2 ^ k := by
    have hhalf : (ShiftSubtract.step s).bit = s.bit / 2 := by
      unfold ShiftSubtract.step
      split <;> rfl
    rw [hhalf, h.bit, Nat.pow_succ, Nat.mul_div_cancel _ (by omega)]
  refine ⟨hshifted, hbit, ?_, hdvd, hsound⟩
  rw [hshifted]
  calc (ShiftSubtract.step s).rem < r * 2 ^ (k + 1) := hrem
    _ = 2 * (r * 2 ^ k) := by ring

/-- The round at the last bit leaves a remainder below the divisor. -/
theorem Inv.last {l r : Nat} {s : State} (h : Inv l r 0 s) :
    (ShiftSubtract.step s).rem < r ∧ Sound l r (ShiftSubtract.step s) := by
  obtain ⟨hrem, -, hsound⟩ := h.round
  rw [Nat.pow_zero, Nat.mul_one] at hrem
  exact ⟨hrem, hsound⟩

theorem loop_of_lt {r : Nat} {s : State} (h : s.rem < r) (rounds : Nat) :
    loop r rounds s = some s := by
  cases rounds with
  | zero => exact if_neg (by omega)
  | succ rounds => exact if_neg (by omega)

/-- **The loop divides**: with `k` bits to go, `k + 1` rounds are enough, and quotient
and remainder are those of the division. -/
theorem loop_of_inv {l r : Nat} : ∀ {k rounds : Nat} {s : State}, Inv l r k s → k < rounds →
    ∃ s', loop r rounds s = some s' ∧ Sound l r s' ∧ s'.rem < r := by
  intro k
  induction k with
  | zero =>
    intro rounds s h hk
    obtain ⟨rounds, rfl⟩ := Nat.exists_eq_add_of_lt hk
    rw [Nat.zero_add, loop]
    split
    next hge =>
      obtain ⟨hrem, hsound⟩ := h.last
      exact ⟨_, loop_of_lt hrem rounds, hsound, hrem⟩
    next hlt => exact ⟨s, rfl, h.sound, by omega⟩
  | succ k ih =>
    intro rounds s h hk
    obtain ⟨rounds, rfl⟩ := Nat.exists_eq_succ_of_ne_zero (show rounds ≠ 0 by omega)
    rw [Nat.succ_eq_add_one, loop]
    split
    next hge => exact ih h.step (by omega)
    next hlt => exact ⟨s, rfl, h.sound, by omega⟩

/-- Nothing is below zero: the loop does not end. -/
theorem loop_zero : ∀ (rounds : Nat) (s : State), loop 0 rounds s = none := by
  intro rounds
  induction rounds with
  | zero =>
    intro s
    exact if_pos (Nat.zero_le _)
  | succ rounds ih =>
    intro s
    rw [loop, if_pos (Nat.zero_le _)]
    exact ih _

end TinyEvm.Lib.ShiftSubtract
