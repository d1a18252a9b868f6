import Mathlib.Data.Nat.ModEq
import Mathlib.Tactic.Ring

/-!
# Shift amounts kept modulo `M`

A word of `w` bits shifted by `w` places or more is zero, so a shift takes an amount of any
size. Machine code that keeps the amount in a narrower integer shifts by the amount modulo
`M`. With `w ≤ M` every amount below `M` arrives as it is; an amount from `M` on should
clear the word and is brought back below `M` instead, where it may be small again.
`shl_narrow_iff` and `shr_narrow_iff` say for which words that makes no difference.

`field` is the other use of a shift: it brings one of the `c` fields of `u` bits of a word
down to the lowest place. Counted from the most significant field, the amount is a
difference, and in wrapping arithmetic a field number beyond `c` gives an amount beyond the
word, unless the number comes back below `c` too (`field_narrow_iff`).
-/

namespace TinyEvm.Lib.ShiftAmount

variable {w M n v : Nat}

/-- A shift by the width or more leaves nothing below it. -/
theorem mul_pow_mod_of_le (v : Nat) (h : w ≤ n) : v * 2 ^ n % 2 ^ w = 0 :=
  Nat.mod_eq_zero_of_dvd (Dvd.dvd.mul_left (Nat.pow_dvd_pow 2 h) v)

theorem div_pow_of_le (hv : v < 2 ^ w) (h : w ≤ n) : v / 2 ^ n = 0 :=
  Nat.div_eq_of_lt (Nat.lt_of_lt_of_le hv (Nat.pow_le_pow_right (by omega) h))

/-- What a left shift clears: a multiple of what the places left over can hold. -/
theorem mul_pow_mod_eq_zero_iff (w n v : Nat) :
    v * 2 ^ n % 2 ^ w = 0 ↔ 2 ^ (w - n) ∣ v := by
  rw [← Nat.dvd_iff_mod_eq_zero]
  rcases Nat.le_total w n with hle | hle
  · rw [Nat.sub_eq_zero_of_le hle, Nat.pow_zero]
    exact iff_of_true (Dvd.dvd.mul_left (Nat.pow_dvd_pow 2 hle) v) (Nat.one_dvd v)
  · have hsplit : 2 ^ w = 2 ^ (w - n) * 2 ^ n := by rw [← Nat.pow_add, Nat.sub_add_cancel hle]
    rw [hsplit]
    exact Nat.mul_dvd_mul_iff_right (Nat.two_pow_pos n)

theorem shl_narrow_iff (hM : w ≤ M) :
    v * 2 ^ (n % M) % 2 ^ w = v * 2 ^ n % 2 ^ w ↔ n < M ∨ 2 ^ (w - n % M) ∣ v := by
  rcases Nat.lt_or_ge n M with hn | hn
  · rw [Nat.mod_eq_of_lt hn]
    exact iff_of_true rfl (Or.inl hn)
  · rw [mul_pow_mod_of_le v (Nat.le_trans hM hn), mul_pow_mod_eq_zero_iff,
      or_iff_right (Nat.not_lt.mpr hn)]

theorem shr_narrow_iff (hv : v < 2 ^ w) (hM : w ≤ M) :
    v / 2 ^ (n % M) = v / 2 ^ n ↔ n < M ∨ v < 2 ^ (n % M) := by
  rcases Nat.lt_or_ge n M with hn | hn
  · rw [Nat.mod_eq_of_lt hn]
    exact iff_of_true rfl (Or.inl hn)
  · rw [div_pow_of_le hv (Nat.le_trans hM hn), Nat.div_eq_zero_iff_lt (Nat.two_pow_pos _),
      or_iff_right (Nat.not_lt.mpr hn)]

/-! ## Fields -/

variable {u c N i : Nat}

/-- Field `i` of the `c` fields of `u` bits of a word, counted from the most significant;
there is nothing beyond the last one. -/
def field (u c v i : Nat) : Nat := if i < c then v / 2 ^ (u * (c - 1) - u * i) % 2 ^ u else 0

/-- The amount for field `i` in arithmetic modulo `u * N`. -/
def fieldAmount (u c N i : Nat) : Nat := (u * N - u * i % (u * N) + u * (c - 1)) % (u * N)

theorem fieldAmount_of_lt (hc : c ≤ N) (hi : i % N < c) :
    fieldAmount u c N i = u * (c - 1) - u * (i % N) := by
  have hle : u * (i % N) ≤ u * (c - 1) := Nat.mul_le_mul_left u (by omega)
  unfold fieldAmount
  rw [Nat.mul_mod_mul_left, ← Nat.mul_sub, ← Nat.mul_add, Nat.mul_mod_mul_left, ← Nat.mul_sub]
  congr 1
  rw [show N - i % N + (c - 1) = N + (c - 1 - i % N) by omega, Nat.add_mod_left]
  exact Nat.mod_eq_of_lt (by omega)

/-- A field number that stays beyond the last field gives an amount beyond the word. -/
theorem fieldAmount_of_ge (hN : 0 < N) (hc : 0 < c) (hi : c ≤ i % N) :
    u * c ≤ fieldAmount u c N i := by
  have hlt : i % N < N := Nat.mod_lt i hN
  unfold fieldAmount
  rw [Nat.mul_mod_mul_left, ← Nat.mul_sub, ← Nat.mul_add, Nat.mul_mod_mul_left,
    Nat.mod_eq_of_lt (by omega)]
  exact Nat.mul_le_mul_left u (by omega)

theorem field_narrow_iff (hv : v < 2 ^ (u * c)) (hc : 0 < c) (hN : c ≤ N) :
    v / 2 ^ fieldAmount u c N i % 2 ^ u = field u c v i ↔
      i < c ∨ c ≤ i % N ∨ v / 2 ^ (u * (c - 1) - u * (i % N)) % 2 ^ u = 0 := by
  unfold field
  rcases Nat.lt_or_ge i c with hi | hi
  · have hself : i % N = i := Nat.mod_eq_of_lt (Nat.lt_of_lt_of_le hi hN)
    rw [fieldAmount_of_lt hN (by rw [hself]; exact hi), hself, if_pos hi]
    exact iff_of_true rfl (Or.inl hi)
  · rw [if_neg (Nat.not_lt.mpr hi), or_iff_right (Nat.not_lt.mpr hi)]
    rcases Nat.lt_or_ge (i % N) c with hback | hout
    · rw [fieldAmount_of_lt hN hback, or_iff_right (Nat.not_le.mpr hback)]
    · rw [div_pow_of_le hv (fieldAmount_of_ge (by omega) hc hout), Nat.zero_mod]
      exact iff_of_true rfl (Or.inl hout)

end TinyEvm.Lib.ShiftAmount
