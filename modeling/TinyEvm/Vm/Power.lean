import Mathlib.NumberTheory.Multiplicity
import Mathlib.NumberTheory.Padics.PadicVal.Basic
import TinyEvm.Vm.Arithmetic

/-!
# `EXP`

The loop of `EXP` multiplies an accumulator by the base, once for every unit of the
exponent's lowest limb. The accumulator starts at zero, so it stays zero
(`expWord_eq`): the result is one when the lowest limb of the exponent is zero, and zero
otherwise, whatever the base.

That is the right power in two kinds of cases only. Zero is right when `2^256` divides
`a^x`, which is a matter of how often two divides `a` (`pow_mod_eq_zero_iff`). One is
right for the exponent zero, and else, since the exponent is then even, for the odd bases
that lifting the exponent admits (`pow_mod_eq_one_iff`).
-/

namespace TinyEvm

/-! ## What the loop computes -/

/-- The accumulator is stuck at zero. -/
theorem mul256_clear256 (base : Uint256) : mul256 base clear256 = clear256 := by
  have hcarry : mulCarry base clear256 = 0 := by
    unfold mulCarry mulColumn
    simp [clear256, clear128]
  apply Uint256.val_inj
  rw [mul256_val, hcarry, clear256_val]
  simp

theorem expWord_eq (base exponent : Uint256) :
    expWord base exponent = if exponent.val % 2 ^ 64 = 0 then lowWord 1 else clear256 := by
  unfold expWord
  rw [Function.iterate_fixed (mul256_clear256 base)]
  by_cases hlow : exponent.lower.lower = 0
  · rw [if_pos hlow, if_pos (exponent.lowest_eq_zero_iff.mp hlow)]
  · rw [if_neg hlow, if_neg (fun h => hlow (exponent.lowest_eq_zero_iff.mpr h))]

/-! ## When zero and one are right -/

theorem pow_mod_eq_zero_iff {a x : Nat} (hx : x ≠ 0) (k : Nat) :
    a ^ x % 2 ^ k = 0 ↔ a = 0 ∨ k ≤ padicValNat 2 a * x := by
  rw [← Nat.dvd_iff_mod_eq_zero]
  by_cases ha : a = 0
  · rw [ha, Nat.zero_pow (Nat.pos_of_ne_zero hx)]
    simp
  · rw [padicValNat_dvd_iff_le (pow_ne_zero x ha), padicValNat.pow, Nat.mul_comm, or_iff_right ha]

/-- Powers of two in `a^x - 1`, for an odd base and an even exponent. -/
theorem two_pow_dvd_pow_sub_one_iff {a x : Nat} (ha : a % 2 = 1) (hx : Even x) (k : Nat) :
    2 ^ k ∣ a ^ x - 1 ↔ 2 ^ (k + 1) ∣ (a ^ 2 - 1) * x := by
  have hlift := Int.two_pow_sub_pow (x := a) (y := 1) (n := x) (by omega) (by omega) hx
  rw [one_pow, ← emultiplicity_mul Int.prime_two, ← emultiplicity_mul Int.prime_two] at hlift
  have hpow : 1 ≤ a ^ x := Nat.one_le_pow _ _ (by omega)
  have hsq : 1 ≤ a ^ 2 := Nat.one_le_pow _ _ (by omega)
  have hfactor : (((a ^ 2 - 1) * x : Nat) : Int) = (a + 1) * (a - 1) * x := by
    rw [Nat.cast_mul, Nat.cast_sub hsq]
    push_cast
    ring
  have hminus : ((a ^ x - 1 : Nat) : Int) = (a : Int) ^ x - 1 := by
    rw [Nat.cast_sub hpow]
    push_cast
    rfl
  rw [← Int.natCast_dvd_natCast, ← Int.natCast_dvd_natCast, hfactor, hminus, Nat.cast_pow,
    Nat.cast_pow, Nat.cast_two, pow_dvd_iff_le_emultiplicity, pow_dvd_iff_le_emultiplicity, ← hlift,
    Nat.cast_succ, ENat.add_le_add_iff_right ENat.one_ne_top]

theorem pow_mod_eq_one_iff {a x : Nat} (hx : Even x) {k : Nat} (hk : 0 < k) :
    a ^ x % 2 ^ k = 1 ↔ x = 0 ∨ a % 2 = 1 ∧ 2 ^ (k + 1) ∣ (a ^ 2 - 1) * x := by
  have hone : 1 % 2 ^ k = 1 := Nat.mod_eq_of_lt (Nat.one_lt_two_pow (by omega))
  by_cases hzero : x = 0
  · rw [hzero, pow_zero, hone]
    simp
  rw [or_iff_right hzero]
  rcases Nat.mod_two_eq_zero_or_one a with heven | hodd
  · -- an even base keeps every power even
    refine iff_of_false ?_ (by omega)
    intro h
    have hpow : 2 ∣ a ^ x := dvd_pow (Nat.dvd_of_mod_eq_zero heven) hzero
    have hdvd : 2 ∣ a ^ x % 2 ^ k := (Nat.dvd_mod_iff (dvd_pow_self 2 (by omega))).mpr hpow
    rw [h] at hdvd
    omega
  · have hpow : 1 ≤ a ^ x := Nat.one_le_pow _ _ (by omega)
    rw [← two_pow_dvd_pow_sub_one_iff hodd hx, ← Nat.modEq_iff_dvd' hpow, Nat.ModEq, hone, eq_comm]
    simp [hodd]

/-! ## `EXP` -/

/-- The bases `a` and exponents `x` for which the one or the zero that the loop ends with is
`a^x` mod `2^256`. -/
def ExpRight (a x : Nat) : Prop :=
  if x % 2 ^ 64 = 0 then x = 0 ∨ a % 2 = 1 ∧ 2 ^ 257 ∣ (a ^ 2 - 1) * x
  else a = 0 ∨ 256 ≤ padicValNat 2 a * x

theorem expWord_val_iff (base exponent : Uint256) :
    (expWord base exponent).val = base.val ^ exponent.val % 2 ^ 256
      ↔ ExpRight base.val exponent.val := by
  rw [expWord_eq]
  unfold ExpRight
  split
  next hlow =>
    have heven : Even exponent.val := ⟨exponent.val / 2, by omega⟩
    rw [← pow_mod_eq_one_iff heven (show 0 < 256 by omega), eq_comm]
    rfl
  next hlow =>
    have hne : exponent.val ≠ 0 := by
      intro h
      rw [h] at hlow
      exact hlow rfl
    rw [← pow_mod_eq_zero_iff hne, eq_comm]
    rfl

/-- **When `EXP` is right.** -/
theorem exp_meets_iff (sContract : Code) (s : Vm) (h1 : 2 ≤ s.sp) (h2 : s.sp < stackSpace) :
    Leaves 0x0a sContract s ((s.slot s.sp).val ^ (s.slot (s.sp - 1)).val % 2 ^ 256)
      ↔ ExpRight (s.slot s.sp).val (s.slot (s.sp - 1)).val := by
  rw [leaves_binary_iff (f := expWord) rfl rfl h1 h2]
  exact expWord_val_iff _ _

/-- `7^0`. -/
theorem exp_meets_zeroth : Leaves 0x0a ⟨[0x0a], by decide⟩ (stacked [lowWord 7, clear256])
    ((lowWord 7).val ^ clear256.val % 2 ^ 256) := by
  have hright : ExpRight (lowWord 7).val clear256.val := by
    unfold ExpRight
    rw [if_pos (show clear256.val % 2 ^ 64 = 0 from rfl)]
    exact Or.inl rfl
  exact (exp_meets_iff _ (stacked [lowWord 7, clear256]) (by decide) (by decide)).mpr hright

/-- `EXP(0x100, 1)`, the shift of a packed storage field, comes out as zero. -/
theorem exp_packed_fails : ¬Leaves 0x0a ⟨[0x0a], by decide⟩ (stacked [lowWord 0x100, lowWord 1])
    ((lowWord 0x100).val ^ (lowWord 1).val % 2 ^ 256) := by
  rw [leaves_binary_iff (f := expWord) rfl rfl (by decide) (by decide)]
  show ¬(expWord (lowWord 0x100) (lowWord 1)).val = _
  rw [expWord_eq]
  decide

end TinyEvm
