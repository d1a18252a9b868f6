import TinyEvm.Lib.ShiftAmount
import TinyEvm.Uint256.Arith

/-!
# Shifts

`shiftl128` and its three siblings test the amount against half the width and then
move whole digits, or split every digit in two and put the parts together with an
addition. The addition never carries, because what a digit hands over fits under what
the shift leaves of its neighbour: `Lib.Radix` has that once, for an arbitrary digit,
and it is used here at `2^64` and at `2^128`.

Amounts from the full width on clear the word, so the four theorems hold for every
`uint32_t`.
-/

namespace TinyEvm

open Lib (Radix.shifted_lt Radix.pair_shl Radix.pair_shr Radix.pair_shl_digit
  Radix.pair_shr_digit)
open Lib.ShiftAmount (mul_pow_mod_of_le div_pow_of_le)

/-! ## Limbs -/

theorem shl64_toNat (x : UInt64) {v : UInt32} (h : v.toNat < 64) :
    (x <<< v.toUInt64).toNat = x.toNat * 2 ^ v.toNat % 2 ^ 64 := by
  rw [UInt64.toNat_shiftLeft, UInt32.toNat_toUInt64, Nat.mod_eq_of_lt h, Nat.shiftLeft_eq]

theorem shr64_toNat (x : UInt64) {v : UInt32} (h : v.toNat < 64) :
    (x >>> v.toUInt64).toNat = x.toNat / 2 ^ v.toNat := by
  rw [UInt64.toNat_shiftRight, UInt32.toNat_toUInt64, Nat.mod_eq_of_lt h,
    Nat.shiftRight_eq_div_pow]

/-- `k - value` for an amount up to `k`. -/
theorem sub_toNat {k v : UInt32} (h : v.toNat ≤ k.toNat) : (k - v).toNat = k.toNat - v.toNat :=
  UInt32.toNat_sub_of_le k v (UInt32.le_iff_toNat_le.mpr h)

/-! ## 128 bits -/

/-- The two parts of a digit. -/
theorem pow_split {w n : Nat} (h : n ≤ w) : (2 : Nat) ^ w = 2 ^ n * 2 ^ (w - n) := by
  rw [← Nat.pow_add, Nat.add_sub_cancel' h]

theorem shiftl128_val (x : Uint128) (value : UInt32) :
    (shiftl128 x value).val = x.val * 2 ^ value.toNat % 2 ^ 128 := by
  have h64 : (64 : UInt32).toNat = 64 := rfl
  have h128 : (128 : UInt32).toNat = 128 := rfl
  have hzero : (0 : UInt32).toNat = 0 := rfl
  unfold shiftl128
  simp only [ge_iff_le, gt_iff_lt, UInt32.le_iff_toNat_le, UInt32.lt_iff_toNat_lt,
    ← UInt32.toNat_inj, h64, h128, hzero]
  split
  next hbig => rw [mul_pow_mod_of_le _ hbig, clear128_val]
  split
  next hdigit =>
    have hlow := x.lower.toNat_lt
    rw [hdigit]
    show x.lower.toNat * 2 ^ 64 + 0 = (x.upper.toNat * 2 ^ 64 + x.lower.toNat) * 2 ^ 64 % 2 ^ 128
    omega
  split
  next hnone =>
    rw [hnone, Nat.pow_zero, Nat.mul_one, Nat.mod_eq_of_lt x.val_lt]
  split
  next hsmall =>
    have hback : (64 - value).toNat = 64 - value.toNat := sub_toNat (by rw [h64]; omega)
    have hfits := Radix.shifted_lt (pow_split (Nat.le_of_lt hsmall)) x.upper.toNat x.lower.toNat_lt
    rw [Uint128.val, UInt64.toNat_add, shl64_toNat _ hsmall, shl64_toNat _ hsmall,
      shr64_toNat _ (by omega), hback, Nat.mod_eq_of_lt hfits]
    exact Radix.pair_shl (pow_split (Nat.le_of_lt hsmall)) (by norm_num) x.lower.toNat_lt
  next hlarge =>
    have hback : (value - 64).toNat = value.toNat - 64 := sub_toNat (by rw [h64]; omega)
    rw [if_pos (by omega), Uint128.val, shl64_toNat _ (by omega), hback, UInt64.toNat_zero,
      Nat.add_zero, pow_split (show 64 ≤ value.toNat by omega)]
    exact Radix.pair_shl_digit _ _ _ (by norm_num)

theorem shiftr128_val (x : Uint128) (value : UInt32) :
    (shiftr128 x value).val = x.val / 2 ^ value.toNat := by
  have h64 : (64 : UInt32).toNat = 64 := rfl
  have h128 : (128 : UInt32).toNat = 128 := rfl
  have hzero : (0 : UInt32).toNat = 0 := rfl
  unfold shiftr128
  simp only [ge_iff_le, gt_iff_lt, UInt32.le_iff_toNat_le, UInt32.lt_iff_toNat_lt,
    ← UInt32.toNat_inj, h64, h128, hzero]
  split
  next hbig => rw [div_pow_of_le x.val_lt hbig, clear128_val]
  split
  next hdigit =>
    have hlow := x.lower.toNat_lt
    rw [hdigit, Uint128.val_low, Uint128.val]
    omega
  split
  next hnone => rw [hnone, Nat.pow_zero, Nat.div_one]
  split
  next hsmall =>
    have hback : (64 - value).toNat = 64 - value.toNat := sub_toNat (by rw [h64]; omega)
    have hsplit : 2 ^ 64 = 2 ^ (64 - value.toNat) * 2 ^ value.toNat := by
      rw [Nat.mul_comm]
      exact pow_split (Nat.le_of_lt hsmall)
    have hfits := Radix.shifted_lt hsplit x.upper.toNat x.lower.toNat_lt
    rw [Uint128.val, UInt64.toNat_add, shr64_toNat _ hsmall, shr64_toNat _ hsmall,
      shl64_toNat _ (by omega), hback, Nat.mod_eq_of_lt hfits]
    exact Radix.pair_shr (pow_split (Nat.le_of_lt hsmall)) (Nat.two_pow_pos _)
  next hlarge =>
    have hback : (value - 64).toNat = value.toNat - 64 := sub_toNat (by rw [h64]; omega)
    rw [if_pos (by omega), Uint128.val_low, shr64_toNat _ (by omega), hback,
      pow_split (show 64 ≤ value.toNat by omega)]
    exact Radix.pair_shr_digit _ _ x.lower.toNat_lt

/-! ## 256 bits -/

theorem shiftl256_val (w : Uint256) (value : UInt32) :
    (shiftl256 w value).val = w.val * 2 ^ value.toNat % 2 ^ 256 := by
  have h128 : (128 : UInt32).toNat = 128 := rfl
  have h256 : (256 : UInt32).toNat = 256 := rfl
  have hzero : (0 : UInt32).toNat = 0 := rfl
  unfold shiftl256
  simp only [ge_iff_le, gt_iff_lt, UInt32.le_iff_toNat_le, UInt32.lt_iff_toNat_lt,
    ← UInt32.toNat_inj, h128, h256, hzero]
  split
  next hbig => rw [mul_pow_mod_of_le _ hbig, clear256_val]
  split
  next hdigit =>
    have hlow := w.lower.val_lt
    rw [hdigit, Uint256.val_high, Uint256.val]
    omega
  split
  next hnone =>
    rw [hnone, Nat.pow_zero, Nat.mul_one, Nat.mod_eq_of_lt w.val_lt]
  split
  next hsmall =>
    have hback : (128 - value).toNat = 128 - value.toNat := sub_toNat (by rw [h128]; omega)
    have hfits := Radix.shifted_lt (pow_split (Nat.le_of_lt hsmall)) w.upper.val w.lower.val_lt
    rw [Uint256.val, add128_val, shiftl128_val, shiftl128_val, shiftr128_val, hback,
      Nat.mod_eq_of_lt hfits]
    exact Radix.pair_shl (pow_split (Nat.le_of_lt hsmall)) (by norm_num) w.lower.val_lt
  next hlarge =>
    have hback : (value - 128).toNat = value.toNat - 128 := sub_toNat (by rw [h128]; omega)
    rw [if_pos (by omega), Uint256.val_high, shiftl128_val, hback,
      pow_split (show 128 ≤ value.toNat by omega)]
    exact Radix.pair_shl_digit _ _ _ (by norm_num)

theorem shiftr256_val (w : Uint256) (value : UInt32) :
    (shiftr256 w value).val = w.val / 2 ^ value.toNat := by
  have h128 : (128 : UInt32).toNat = 128 := rfl
  have h256 : (256 : UInt32).toNat = 256 := rfl
  have hzero : (0 : UInt32).toNat = 0 := rfl
  unfold shiftr256
  simp only [ge_iff_le, gt_iff_lt, UInt32.le_iff_toNat_le, UInt32.lt_iff_toNat_lt,
    ← UInt32.toNat_inj, h128, h256, hzero]
  split
  next hbig => rw [div_pow_of_le w.val_lt hbig, clear256_val]
  split
  next hdigit =>
    have hlow := w.lower.val_lt
    rw [hdigit, Uint256.val_low, Uint256.val]
    omega
  split
  next hnone => rw [hnone, Nat.pow_zero, Nat.div_one]
  split
  next hsmall =>
    have hback : (128 - value).toNat = 128 - value.toNat := sub_toNat (by rw [h128]; omega)
    have hsplit : 2 ^ 128 = 2 ^ (128 - value.toNat) * 2 ^ value.toNat := by
      rw [Nat.mul_comm]
      exact pow_split (Nat.le_of_lt hsmall)
    have hfits := Radix.shifted_lt hsplit w.upper.val w.lower.val_lt
    rw [Uint256.val, add128_val, shiftr128_val, shiftr128_val, shiftl128_val, hback,
      Nat.add_comm (w.lower.val / _), Nat.mod_eq_of_lt hfits]
    exact Radix.pair_shr (pow_split (Nat.le_of_lt hsmall)) (Nat.two_pow_pos _)
  next hlarge =>
    have hback : (value - 128).toNat = value.toNat - 128 := sub_toNat (by rw [h128]; omega)
    rw [if_pos (by omega), Uint256.val_low, shiftr128_val, hback,
      pow_split (show 128 ≤ value.toNat by omega)]
    exact Radix.pair_shr_digit _ _ w.lower.val_lt

/-- **The shifts of the library.** Each multiplies or divides by a power of two, at its
width, for every amount a `uint32_t` can hold. -/
theorem shifts_val (w : Uint256) (x : Uint128) (value : UInt32) :
    (shiftl256 w value).val = w.val * 2 ^ value.toNat % 2 ^ 256 ∧
    (shiftr256 w value).val = w.val / 2 ^ value.toNat ∧
    (shiftl128 x value).val = x.val * 2 ^ value.toNat % 2 ^ 128 ∧
    (shiftr128 x value).val = x.val / 2 ^ value.toNat :=
  ⟨shiftl256_val w value, shiftr256_val w value, shiftl128_val x value, shiftr128_val x value⟩

end TinyEvm
