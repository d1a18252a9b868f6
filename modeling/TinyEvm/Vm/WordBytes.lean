import TinyEvm.Uint256.Bytes
import TinyEvm.Vm.Decode
import Mathlib.Tactic.IntervalCases

/-!
# The bytes of a word in memory

A word is copied to `MEM` as a struct: its limbs stand most significant first,
the bytes of each limb least significant first. Against the big-endian image of
the word the bytes of every limb are therefore reversed in place. `mirror` is
that permutation of `0, …, 31`; it is its own inverse, and both the copy out of
memory and the `swapLong` pass of `SHA3` apply it once more.
-/

namespace TinyEvm

open Lib.BigEndian

/-- Byte `k` of the 32-byte big-endian image of a word. -/
def beByte (w : Uint256) (k : Nat) : UInt8 := UInt8.ofNat (w.val / 256 ^ (31 - k))

/-- The address of byte `k` when the bytes of every limb are reversed. -/
def mirror (k : Nat) : Nat := 8 * (k / 8) + (7 - k % 8)

theorem mirror_mirror (k : Nat) : mirror (mirror k) = k := by
  unfold mirror
  omega

theorem mirror_lt {k : Nat} (h : k < 32) : mirror k < 32 := by
  unfold mirror
  omega

/-- Byte `k` of a limb of `v`. -/
theorem storeLE64_limb (v i : Nat) {k : Nat} (hk : k < 8) :
    storeLE64 (limb v i) k = UInt8.ofNat (v / 256 ^ (8 * i + k)) := by
  have hpow : ∀ n, (256 : Nat) ^ n = 2 ^ (8 * n) := by
    intro n
    rw [Nat.pow_mul]
  have hshift : (8 * k).toUInt64.toNat % 64 = 8 * k := by
    show (UInt64.ofNat (8 * k)).toNat % 64 = 8 * k
    rw [UInt64.toNat_ofNat']
    omega
  apply UInt8.toNat_inj.mp
  unfold storeLE64
  rw [UInt64.toNat_toUInt8, UInt64.toNat_shiftRight, hshift, limb_toNat, UInt8.toNat_ofNat',
    Nat.shiftRight_eq_div_pow, hpow]
  -- the reduction of the limb keeps the eight bits above `8 * k`
  have hsplit : (2 : Nat) ^ 64 = 2 ^ (8 * k) * 2 ^ (64 - 8 * k) := by
    rw [← Nat.pow_add]
    congr 1
    omega
  rw [hsplit, Nat.mod_mul_right_div_self, Nat.mod_mod_of_dvd _ (Nat.pow_dvd_pow 2 (by omega)),
    Nat.div_div_eq_div_mul, ← Nat.pow_add]
  congr 3
  omega

/-- **The native image of a word is its big-endian image with the bytes of every
limb reversed.** -/
theorem storeWord_mirror (w : Uint256) {k : Nat} (hk : k < 32) :
    storeWord w (mirror k) = beByte w k := by
  obtain ⟨h3, h2, h1, h0⟩ := limbs_of_val w
  have hm : mirror k = 8 * (k / 8) + (7 - k % 8) := rfl
  unfold storeWord beByte
  rw [← h3, ← h2, ← h1, ← h0]
  by_cases hk3 : k < 8
  · rw [if_pos (by omega), storeLE64_limb _ _ (by omega)]
    congr 3
    omega
  by_cases hk2 : k < 16
  · rw [if_neg (by omega), if_pos (by omega), storeLE64_limb _ _ (by omega)]
    congr 3
    omega
  by_cases hk1 : k < 24
  · rw [if_neg (by omega), if_neg (by omega), if_pos (by omega), storeLE64_limb _ _ (by omega)]
    congr 3
    omega
  · rw [if_neg (by omega), if_neg (by omega), if_neg (by omega), storeLE64_limb _ _ (by omega)]
    congr 3
    omega

/-- A little-endian read is the big-endian read of the bytes in reverse. -/
theorem loadLE64_eq (bytes : Nat → UInt8) :
    loadLE64 bytes = readUint64BE fun k => bytes (7 - k) := by
  unfold loadLE64 readUint64BE
  simp only [UInt64.or_assoc, UInt64.or_comm, Nat.reduceSub]

/-- What `MLOAD` reads is the big-endian number of the mirrored bytes. -/
theorem loadWord_val (bytes : Nat → UInt8) :
    (loadWord bytes).val = beNat (fun k => bytes (mirror k)) 32 := by
  have hword : loadWord bytes = readu256BE fun k => bytes (mirror k) := by
    unfold loadWord readu256BE readu128BE
    simp only [loadLE64_eq]
    rfl
  rw [hword, readu256BE_val]

/-! ## `swapLong` -/

/-- A limb read from memory has the bytes it was read from. -/
theorem storeLE64_loadLE64 (bytes : Nat → UInt8) {k : Nat} (hk : k < 8) :
    storeLE64 (loadLE64 bytes) k = bytes k := by
  have hlimb : loadLE64 bytes = limb (beNat (fun i => bytes (7 - i)) 8) 0 := by
    apply UInt64.toNat_inj.mp
    have hlt := beNat_lt (fun i => bytes (7 - i)) 8
    rw [loadLE64_eq, readUint64BE_toNat, limb_toNat, Nat.mul_zero, Nat.pow_zero, Nat.div_one]
    exact (Nat.mod_eq_of_lt hlt).symm
  obtain ⟨j, hj⟩ : ∃ j, 8 = j + 1 + k := ⟨7 - k, by omega⟩
  have hb := (bytes (7 - j)).toNat_lt
  rw [hlimb, storeLE64_limb _ _ hk, Nat.mul_zero, Nat.zero_add, hj, beNat_div, beNat]
  apply UInt8.toNat_inj.mp
  rw [UInt8.toNat_ofNat', show k = 7 - j by omega]
  omega

/-- `swapLong` reverses the bytes of a limb: three exchanges, bit by bit. -/
theorem storeLE64_swapLong (x : UInt64) {k : Nat} (hk : k < 8) :
    storeLE64 (swapLong x) k = storeLE64 x (7 - k) := by
  apply UInt8.toBitVec_inj.mp
  apply BitVec.eq_of_getLsbD_eq
  intro i hi
  unfold storeLE64 swapLong
  interval_cases k <;> interval_cases i <;> simp

/-- A limb is the read of its own bytes. -/
theorem loadLE64_storeLE64 (x : UInt64) : loadLE64 (storeLE64 x) = x := by
  have hlimb : limb x.toNat 0 = x := by
    unfold limb
    rw [Nat.mul_zero, Nat.pow_zero, Nat.div_one, UInt64.ofNat_toNat]
  have hbyte : ∀ k, k < 8 → (storeLE64 x (7 - k)).toNat = x.toNat / 256 ^ (8 - 1 - k) % 256 := by
    intro k hk
    rw [← hlimb, storeLE64_limb _ _ (by omega), hlimb, Nat.mul_zero, Nat.zero_add, UInt8.toNat_ofNat']
  apply UInt64.toNat_inj.mp
  rw [loadLE64_eq, readUint64BE_toNat, beNat_digits hbyte 8 (Nat.le_refl 8), Nat.sub_self, Nat.pow_zero,
    Nat.div_one]
  exact Nat.mod_eq_of_lt x.toNat_lt

/-- A limb read from memory and swapped is the big-endian read of the same bytes. -/
theorem swapLong_loadLE64 (bytes : Nat → UInt8) : swapLong (loadLE64 bytes) = readUint64BE bytes := by
  rw [← loadLE64_storeLE64 (swapLong (loadLE64 bytes)), loadLE64_eq]
  apply UInt64.toNat_inj.mp
  rw [readUint64BE_toNat, readUint64BE_toNat]
  refine beNat_congr fun k hk => ?_
  rw [storeLE64_swapLong _ (by omega), storeLE64_loadLE64 _ (by omega)]
  congr 1
  omega

/-- A big-endian read stored to memory comes out in reverse. -/
theorem storeLE64_readUint64BE (bytes : Nat → UInt8) {k : Nat} (hk : k < 8) :
    storeLE64 (readUint64BE bytes) k = bytes (7 - k) := by
  rw [← swapLong_loadLE64, storeLE64_swapLong _ hk, storeLE64_loadLE64 _ (by omega)]

/-- The `swapLong` pass of `SHA3` turns the native image back into the mirrored
one. -/
theorem swapLimbs_eq (data : Nat → UInt8) {k : Nat} (hk : k < 32) :
    swapLimbs data k = data (mirror k) := by
  unfold swapLimbs mirror
  rw [if_pos hk, storeLE64_swapLong _ (by omega), storeLE64_loadLE64 _ (by omega)]

end TinyEvm
