import TinyEvm.Lib.TwosComplement
import TinyEvm.Vm.Division

/-!
# The signed opcodes

`SLT`, `SGT`, `SDIV`, `SMOD` and `SAR` have the bodies of `LT`, `GT`, `DIV`, `MOD` and
`SHR`: the comments of the source speak of two's complement, the limb library has no notion
of a sign. `Lib.TwosComplement` says for which operands an unsigned operation is the signed
one; here the opcodes are reduced to it. `SAR` also narrows its shift amount to 32 bits,
so that an amount of `2^32` shifts nothing.
-/

namespace TinyEvm

open Lib Lib.TwosComplement

/-- The two's complement reading of a word. -/
def Uint256.sval (w : Uint256) : Int := TwosComplement.sval (2 ^ 255) w.val

/-- The word of an integer, as a number below `2^256`. -/
def signedWord (z : Int) : Nat := TwosComplement.word (2 ^ 255) z

theorem Uint256.val_lt_two_mul (w : Uint256) : w.val < 2 * 2 ^ 255 := w.val_lt

/-! ## Comparisons -/

theorem boolWord_val (b : Bool) : (boolWord b).val = if b then 1 else 0 := by
  cases b <;> rfl

theorem ite_one_zero_eq_iff {p q : Prop} [Decidable p] [Decidable q] :
    (if p then 1 else 0 : Nat) = (if q then 1 else 0) ↔ (p ↔ q) := by
  by_cases hp : p <;> by_cases hq : q <;> simp [hp, hq]

theorem slt_iff {sContract : Code} {s : Vm} (h1 : 2 ≤ s.sp) (h2 : s.sp < stackSpace) :
    Leaves 0x12 sContract s (if (s.slot s.sp).sval < (s.slot (s.sp - 1)).sval then 1 else 0)
      ↔ ((s.slot s.sp).val < 2 ^ 255 ↔ (s.slot (s.sp - 1)).val < 2 ^ 255) := by
  rw [leaves_binary_iff (f := fun top bot => boolWord (gt256 bot top)) rfl rfl h1 h2, boolWord_val,
    ite_one_zero_eq_iff, gt256_iff]
  exact lt_iff_sval_lt_iff (Uint256.val_lt_two_mul _) (Uint256.val_lt_two_mul _)

theorem sgt_iff {sContract : Code} {s : Vm} (h1 : 2 ≤ s.sp) (h2 : s.sp < stackSpace) :
    Leaves 0x13 sContract s (if (s.slot s.sp).sval > (s.slot (s.sp - 1)).sval then 1 else 0)
      ↔ ((s.slot s.sp).val < 2 ^ 255 ↔ (s.slot (s.sp - 1)).val < 2 ^ 255) := by
  rw [leaves_binary_iff (f := fun top bot => boolWord (gt256 top bot)) rfl rfl h1 h2, boolWord_val,
    ite_one_zero_eq_iff, gt256_iff, Iff.comm (a := (s.slot s.sp).val < 2 ^ 255)]
  exact lt_iff_sval_lt_iff (Uint256.val_lt_two_mul _) (Uint256.val_lt_two_mul _)

/-! ## Division and shift -/

theorem sdiv_iff {sContract : Code} {s : Vm} (h1 : 2 ≤ s.sp) (h2 : s.sp < stackSpace)
    (hr : (s.slot (s.sp - 1)).val ≠ 0) :
    Leaves 0x05 sContract s
        (signedWord (Int.tdiv (s.slot s.sp).sval (s.slot (s.sp - 1)).sval))
      ↔ DivAgrees (2 ^ 255) (s.slot s.sp).val (s.slot (s.sp - 1)).val := by
  obtain ⟨q, m, hq, -, hleaves⟩ := leaves_dividing_iff (b := 0x05) rfl rfl h1 h2 hr
  rw [hleaves, hq]
  exact div_eq_word_tdiv_iff (by norm_num) (Uint256.val_lt_two_mul _) (Uint256.val_lt_two_mul _) hr

theorem smod_iff {sContract : Code} {s : Vm} (h1 : 2 ≤ s.sp) (h2 : s.sp < stackSpace)
    (hr : (s.slot (s.sp - 1)).val ≠ 0) :
    Leaves 0x07 sContract s
        (signedWord (Int.tmod (s.slot s.sp).sval (s.slot (s.sp - 1)).sval))
      ↔ ModAgrees (2 ^ 255) (s.slot s.sp).val (s.slot (s.sp - 1)).val := by
  obtain ⟨q, m, -, hm, hleaves⟩ := leaves_dividing_iff (b := 0x07) rfl rfl h1 h2 hr
  rw [hleaves, hm]
  exact mod_eq_word_tmod_iff (Uint256.val_lt_two_mul _) (Uint256.val_lt_two_mul _) hr

theorem sar_iff {sContract : Code} {s : Vm} (h1 : 2 ≤ s.sp) (h2 : s.sp < stackSpace) :
    Leaves 0x1d sContract s (signedWord ((s.slot (s.sp - 1)).sval >>> (s.slot s.sp).val))
      ↔ ShiftAgrees (2 ^ 255) (2 ^ 32) (s.slot (s.sp - 1)).val (s.slot s.sp).val := by
  have hwidth : 2 * 2 ^ 255 ≤ 2 ^ 2 ^ 32 := by
    rw [← Nat.pow_succ']
    exact Nat.pow_le_pow_right Nat.two_pos (by norm_num)
  rw [leaves_binary_iff (f := fun shift value => shiftr256 value shift.lower.lower.toUInt32) rfl rfl
    h1 h2, shiftr256_val, Uint256.lowest_toUInt32]
  exact div_eq_word_shiftRight_iff (Uint256.val_lt_two_mul _) hwidth

/-- **When the signed opcodes are right.** `SLT` and `SGT` for operands of one sign; `SDIV`,
`SMOD` and `SAR` where the unsigned operation happens to agree. -/
theorem signed_meets_iff (sContract : Code) (s : Vm) (h1 : 2 ≤ s.sp) (h2 : s.sp < stackSpace) :
    (Leaves 0x12 sContract s (if (s.slot s.sp).sval < (s.slot (s.sp - 1)).sval then 1 else 0)
      ↔ ((s.slot s.sp).val < 2 ^ 255 ↔ (s.slot (s.sp - 1)).val < 2 ^ 255)) ∧
    (Leaves 0x13 sContract s (if (s.slot s.sp).sval > (s.slot (s.sp - 1)).sval then 1 else 0)
      ↔ ((s.slot s.sp).val < 2 ^ 255 ↔ (s.slot (s.sp - 1)).val < 2 ^ 255)) ∧
    ((s.slot (s.sp - 1)).val ≠ 0 →
      (Leaves 0x05 sContract s
          (signedWord (Int.tdiv (s.slot s.sp).sval (s.slot (s.sp - 1)).sval))
        ↔ DivAgrees (2 ^ 255) (s.slot s.sp).val (s.slot (s.sp - 1)).val) ∧
      (Leaves 0x07 sContract s
          (signedWord (Int.tmod (s.slot s.sp).sval (s.slot (s.sp - 1)).sval))
        ↔ ModAgrees (2 ^ 255) (s.slot s.sp).val (s.slot (s.sp - 1)).val)) ∧
    (Leaves 0x1d sContract s (signedWord ((s.slot (s.sp - 1)).sval >>> (s.slot s.sp).val))
      ↔ ShiftAgrees (2 ^ 255) (2 ^ 32) (s.slot (s.sp - 1)).val (s.slot s.sp).val) := by
  refine ⟨slt_iff h1 h2, sgt_iff h1 h2, ?_, sar_iff h1 h2⟩
  intro hr
  exact ⟨sdiv_iff h1 h2 hr, smod_iff h1 h2 hr⟩

/-- `7` and `2`: nonnegative operands are right. -/
theorem signed_meets_seven :
    Leaves 0x12 ⟨[0x12], by decide⟩ (stacked [lowWord 7, lowWord 2])
      (if (lowWord 7).sval < (lowWord 2).sval then 1 else 0) ∧
    Leaves 0x05 ⟨[0x05], by decide⟩ (stacked [lowWord 7, lowWord 2])
      (signedWord (Int.tdiv (lowWord 7).sval (lowWord 2).sval)) := by
  have hmeets := fun c => signed_meets_iff c (stacked [lowWord 7, lowWord 2]) (by decide) (by decide)
  refine ⟨(hmeets _).1.mpr (by decide), ((hmeets _).2.2.1 (by decide)).1.mpr (Or.inl ?_)⟩
  decide

/-- The word of `-1`. -/
def minusOne : Uint256 := not256 clear256

/-- `-1 < 1` comes out false, `-1 / 2` is not zero, and `-1` shifted right is not `-1`. -/
theorem signed_minusOne_fails :
    ¬Leaves 0x12 ⟨[0x12], by decide⟩ (stacked [minusOne, lowWord 1])
      (if minusOne.sval < (lowWord 1).sval then 1 else 0) ∧
    ¬Leaves 0x05 ⟨[0x05], by decide⟩ (stacked [minusOne, lowWord 2])
      (signedWord (Int.tdiv minusOne.sval (lowWord 2).sval)) ∧
    ¬Leaves 0x1d ⟨[0x1d], by decide⟩ (stacked [lowWord 1, minusOne])
      (signedWord (minusOne.sval >>> (lowWord 1).val)) := by
  refine ⟨?_, ?_, ?_⟩
  · intro hleaves
    have hcond := (slt_iff (s := stacked [minusOne, lowWord 1]) (by decide) (by decide)).mp hleaves
    exact absurd hcond (by decide)
  · intro hleaves
    have hcond := (sdiv_iff (s := stacked [minusOne, lowWord 2]) (by decide) (by decide)
      (by decide)).mp hleaves
    exact absurd hcond (by unfold DivAgrees; decide)
  · intro hleaves
    have hcond := (sar_iff (s := stacked [lowWord 1, minusOne]) (by decide) (by decide)).mp hleaves
    exact absurd hcond (by unfold ShiftAgrees; decide)

end TinyEvm
