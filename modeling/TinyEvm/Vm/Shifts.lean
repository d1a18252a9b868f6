import TinyEvm.Lib.ShiftAmount
import TinyEvm.Uint256.Shift
import TinyEvm.Vm.Arithmetic

/-!
# `SHL`, `SHR` and `BYTE`

The three opcodes take their amount from the lowest limb of the top word, narrowed to
`uint32_t`, and hand it to a shift of the limb library that is right for every `uint32_t`.
So they are right for every amount below `2^32`, and beyond it `Lib.ShiftAmount` says for
which values the narrowed amount gives the same word: `SHL` and `SHR` bring an amount of
`2^32` back to zero, and `BYTE`, which multiplies the index by eight first, an index of
`2^29`.
-/

namespace TinyEvm

open Lib.ShiftAmount

/-- A word has fewer places than there are narrowed amounts. -/
theorem width_le : 256 ≤ 2 ^ 32 := by norm_num

section

variable {sContract : Code} {s : Vm}

theorem shl_iff (h1 : 2 ≤ s.sp) (h2 : s.sp < stackSpace) :
    Leaves 0x1b sContract s ((s.slot (s.sp - 1)).val * 2 ^ (s.slot s.sp).val % 2 ^ 256)
      ↔ (s.slot s.sp).val < 2 ^ 32 ∨
        2 ^ (256 - (s.slot s.sp).val % 2 ^ 32) ∣ (s.slot (s.sp - 1)).val := by
  rw [leaves_binary_iff (f := fun shift value => shiftl256 value shift.lower.lower.toUInt32) rfl rfl
    h1 h2, shiftl256_val, Uint256.lowest_toUInt32]
  exact shl_narrow_iff width_le

theorem shr_iff (h1 : 2 ≤ s.sp) (h2 : s.sp < stackSpace) :
    Leaves 0x1c sContract s ((s.slot (s.sp - 1)).val / 2 ^ (s.slot s.sp).val)
      ↔ (s.slot s.sp).val < 2 ^ 32 ∨
        (s.slot (s.sp - 1)).val < 2 ^ ((s.slot s.sp).val % 2 ^ 32) := by
  rw [leaves_binary_iff (f := fun shift value => shiftr256 value shift.lower.lower.toUInt32) rfl rfl
    h1 h2, shiftr256_val, Uint256.lowest_toUInt32]
  exact shr_narrow_iff (Uint256.val_lt _) width_le

end

/-- **When `SHL` and `SHR` are right.** For every amount below `2^32`, and for a larger one
only where the value shifted by the amount modulo `2^32` is zero too. -/
theorem shl_shr_meet_iff (sContract : Code) (s : Vm) (h1 : 2 ≤ s.sp) (h2 : s.sp < stackSpace) :
    (Leaves 0x1b sContract s ((s.slot (s.sp - 1)).val * 2 ^ (s.slot s.sp).val % 2 ^ 256)
      ↔ (s.slot s.sp).val < 2 ^ 32 ∨
        2 ^ (256 - (s.slot s.sp).val % 2 ^ 32) ∣ (s.slot (s.sp - 1)).val) ∧
    (Leaves 0x1c sContract s ((s.slot (s.sp - 1)).val / 2 ^ (s.slot s.sp).val)
      ↔ (s.slot s.sp).val < 2 ^ 32 ∨
        (s.slot (s.sp - 1)).val < 2 ^ ((s.slot s.sp).val % 2 ^ 32)) :=
  ⟨shl_iff h1 h2, shr_iff h1 h2⟩

/-- An amount of 256 clears the word. -/
theorem shl_shr_meet_width :
    Leaves 0x1b ⟨[0x1b], by decide⟩ (stacked [lowWord 256, lowWord 1])
      ((lowWord 1).val * 2 ^ (lowWord 256).val % 2 ^ 256) ∧
    Leaves 0x1c ⟨[0x1c], by decide⟩ (stacked [lowWord 256, lowWord 1])
      ((lowWord 1).val / 2 ^ (lowWord 256).val) := by
  have hmeet := fun c => shl_shr_meet_iff c (stacked [lowWord 256, lowWord 1]) (by decide) (by decide)
  exact ⟨(hmeet _).1.mpr (Or.inl (by decide)), (hmeet _).2.mpr (Or.inl (by decide))⟩

/-- Two operands whose amount is `2^32`. -/
def shiftedFar : Vm := stacked [lowWord 0x100000000, lowWord 1]

/-- An amount of `2^32` shifts nothing. -/
theorem shl_shr_far_fails :
    ¬Leaves 0x1b ⟨[0x1b], by decide⟩ shiftedFar
      ((shiftedFar.slot (shiftedFar.sp - 1)).val * 2 ^ (shiftedFar.slot shiftedFar.sp).val % 2 ^ 256) ∧
    ¬Leaves 0x1c ⟨[0x1c], by decide⟩ shiftedFar
      ((shiftedFar.slot (shiftedFar.sp - 1)).val / 2 ^ (shiftedFar.slot shiftedFar.sp).val) := by
  refine ⟨?_, ?_⟩
  · rw [shl_iff (by decide) (by decide)]
    decide
  · rw [shr_iff (by decide) (by decide)]
    decide

/-! ## `BYTE` -/

/-- Byte `i` of a number below `2^256`, counted from the most significant. -/
def byteAt (v i : Nat) : Nat := if i < 32 then v / 2 ^ (248 - 8 * i) % 256 else 0

/-- `shift_value = 248 - shift_value * 8`, in wrapping arithmetic. -/
theorem byteAmount (i : Uint256) :
    (248 - i.lower.lower.toUInt32 * 8).toNat = fieldAmount 8 32 (2 ^ 29) i.val := by
  have hlow := Uint256.lowest_toUInt32 i
  unfold fieldAmount
  rw [UInt32.toNat_sub, UInt32.toNat_mul, hlow]
  show (2 ^ 32 - i.val % 2 ^ 32 * 8 % 2 ^ 32 + 248) % 2 ^ 32 = (2 ^ 32 - 8 * i.val % 2 ^ 32 + 248) % 2 ^ 32
  omega

theorem byteWord_val (i x : Uint256) :
    (byteWord i x).val = x.val / 2 ^ fieldAmount 8 32 (2 ^ 29) i.val % 2 ^ 8 := by
  rw [byteWord, ← Uint256.toNat_toBitVec, and256_toBitVec, BitVec.toNat_and,
    Uint256.toNat_toBitVec, Uint256.toNat_toBitVec, shiftr256_val, byteAmount]
  exact Nat.and_two_pow_sub_one_eq_mod _ 8

/-- **When `BYTE` is right.** For every index below 32, and for a larger one only where the
index modulo `2^29` is at least 32 as well, or the byte it then names is zero. -/
theorem byte_meets_iff (sContract : Code) (s : Vm) (h1 : 2 ≤ s.sp) (h2 : s.sp < stackSpace) :
    Leaves 0x1a sContract s (byteAt (s.slot (s.sp - 1)).val (s.slot s.sp).val)
      ↔ (s.slot s.sp).val < 32 ∨ 32 ≤ (s.slot s.sp).val % 2 ^ 29 ∨
        (s.slot (s.sp - 1)).val / 2 ^ (248 - 8 * ((s.slot s.sp).val % 2 ^ 29)) % 256 = 0 := by
  rw [leaves_binary_iff (f := byteWord) rfl rfl h1 h2, byteWord_val]
  exact field_narrow_iff (u := 8) (c := 32) (Uint256.val_lt _) (by norm_num) (by norm_num)

/-- An index of 32: the wrapped amount is beyond the word. -/
theorem byte_meets_outside :
    Leaves 0x1a ⟨[0x1a], by decide⟩ (stacked [lowWord 32, not256 clear256])
      (byteAt (not256 clear256).val (lowWord 32).val) :=
  (byte_meets_iff ⟨[0x1a], by decide⟩ (stacked [lowWord 32, not256 clear256]) (by decide)
    (by decide)).mpr (Or.inr (Or.inl (by decide)))

/-- An index of `2^29` names the most significant byte again. -/
theorem byte_far_fails :
    ¬Leaves 0x1a ⟨[0x1a], by decide⟩ (stacked [lowWord 0x20000000, not256 clear256])
      (byteAt (not256 clear256).val (lowWord 0x20000000).val) := by
  rw [leaves_binary_iff (b := 0x1a) (f := byteWord) (s := stacked [lowWord 0x20000000,
    not256 clear256]) rfl rfl (by decide) (by decide)]
  decide

end TinyEvm
