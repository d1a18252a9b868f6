import TinyEvm.Lib.BigEndian
import TinyEvm.Uint256.Arith

/-!
# Words and their bytes

`readu256BE` reads the big-endian number in 32 bytes, and `limb` cuts a number
into the 64-bit limbs of a word: the value of a word and its four limbs
determine each other.
-/

namespace TinyEvm

open Lib.BigEndian

/-- Limb `i` of a number, `i = 0` the least significant. -/
def limb (v i : Nat) : UInt64 := UInt64.ofNat (v / 2 ^ (64 * i))

theorem limb_toNat (v i : Nat) : (limb v i).toNat = v / 2 ^ (64 * i) % 2 ^ 64 :=
  UInt64.toNat_ofNat'

/-- A number below `2^256` is the value of the word of its limbs. -/
theorem val_of_limbs {v : Nat} (h : v < 2 ^ 256) :
    (⟨⟨limb v 3, limb v 2⟩, ⟨limb v 1, limb v 0⟩⟩ : Uint256).val = v := by
  rw [Uint256.val_limbs]
  simp only [limb_toNat]
  omega

/-- The limbs of the value of a word are the word's own. -/
theorem limbs_of_val (w : Uint256) :
    limb w.val 3 = w.upper.upper ∧ limb w.val 2 = w.upper.lower ∧
      limb w.val 1 = w.lower.upper ∧ limb w.val 0 = w.lower.lower := by
  have hw : (⟨⟨limb w.val 3, limb w.val 2⟩, ⟨limb w.val 1, limb w.val 0⟩⟩ : Uint256) = w :=
    Uint256.val_inj (val_of_limbs w.val_lt)
  refine ⟨?_, ?_, ?_, ?_⟩
  · exact congrArg (fun w : Uint256 => w.upper.upper) hw
  · exact congrArg (fun w : Uint256 => w.upper.lower) hw
  · exact congrArg (fun w : Uint256 => w.lower.upper) hw
  · exact congrArg (fun w : Uint256 => w.lower.lower) hw

/-! ## `readUint64BE` and `readu256BE` -/

/-- A byte at the foot of a number that was shifted to make room for it. -/
private theorem shl_or_shl (n k : Nat) (b : UInt8) :
    n <<< (k + 8) ||| b.toNat <<< k = (n * 256 + b.toNat) <<< k := by
  have hb := b.toNat_lt
  rw [Nat.add_comm k 8, Nat.shiftLeft_add, ← Nat.shiftLeft_or_distrib,
    ← Nat.shiftLeft_add_eq_or_of_lt (show b.toNat < 2 ^ 8 by omega), Nat.shiftLeft_eq n 8]

private theorem byte_shl (b : UInt8) {k : UInt64} {j : Nat} (hk : k.toNat = j) (hj : j ≤ 56) :
    (b.toUInt64 <<< k).toNat = b.toNat <<< j := by
  have hb := b.toNat_lt
  rw [UInt64.toNat_shiftLeft, hk, UInt8.toNat_toUInt64, Nat.mod_eq_of_lt (by omega : j < 64),
    Nat.shiftLeft_eq]
  refine Nat.mod_eq_of_lt ?_
  calc b.toNat * 2 ^ j ≤ b.toNat * 2 ^ 56 := Nat.mul_le_mul_left _ (Nat.pow_le_pow_right (by omega) hj)
    _ < 2 ^ 64 := by omega

theorem readUint64BE_toNat (f : Nat → UInt8) : (readUint64BE f).toNat = beNat f 8 := by
  have h0 : (f 0).toNat <<< 56 = ((beNat f 0 * 256) + (f 0).toNat) <<< (48 + 8) := by
    rw [beNat, Nat.zero_mul, Nat.zero_add]
  have h7 : (f 7).toNat = (f 7).toNat <<< 0 := Nat.shiftLeft_zero.symm
  unfold readUint64BE
  simp only [UInt64.toNat_or]
  rw [byte_shl (f 0) (show (56 : UInt64).toNat = 56 from rfl) (by omega),
    byte_shl (f 1) (show (48 : UInt64).toNat = 48 from rfl) (by omega),
    byte_shl (f 2) (show (40 : UInt64).toNat = 40 from rfl) (by omega),
    byte_shl (f 3) (show (32 : UInt64).toNat = 32 from rfl) (by omega),
    byte_shl (f 4) (show (24 : UInt64).toNat = 24 from rfl) (by omega),
    byte_shl (f 5) (show (16 : UInt64).toNat = 16 from rfl) (by omega),
    byte_shl (f 6) (show (8 : UInt64).toNat = 8 from rfl) (by omega),
    UInt8.toNat_toUInt64, h0, shl_or_shl _ 48, shl_or_shl _ 40, shl_or_shl _ 32, shl_or_shl _ 24,
    shl_or_shl _ 16, shl_or_shl _ 8, h7, shl_or_shl _ 0, Nat.shiftLeft_zero]
  rfl

theorem readu256BE_val (f : Nat → UInt8) : (readu256BE f).val = beNat f 32 := by
  have hcut : ∀ j, beNat f (j + 8) = beNat f j * 256 ^ 8 + beNat (fun i => f (i + j)) 8 := by
    intro j
    rw [beNat_add]
    simp only [Nat.add_comm j]
  have h24 := hcut 24
  have h16 := hcut 16
  have h8 := hcut 8
  rw [Uint256.val_limbs]
  unfold readu256BE readu128BE
  simp only [readUint64BE_toNat, Nat.add_assoc, Nat.reduceAdd]
  simp only [Nat.reduceAdd] at h24 h16 h8
  omega

/-- Words read from different bytes differ. -/
theorem readu256BE_inj {f g : Nat → UInt8} :
    readu256BE f = readu256BE g ↔ ∀ k, k < 32 → f k = g k := by
  rw [← beNat_eq_iff, ← readu256BE_val, ← readu256BE_val]
  exact ⟨congrArg Uint256.val, Uint256.val_inj⟩

end TinyEvm
