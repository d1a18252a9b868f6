import TinyEvm.Uint256.Mul
import TinyEvm.Vm.Stack

/-!
# Arithmetic opcodes on the stack

`Leaves` is what a result on the stack is, for this module and the modules on division,
powers, shifts and signed opcodes.

`ADD` and `SUB` wrap modulo `2^256` for all operands (`add_sub_meet`). `MUL` pops its operands, multiplies them with `mul256` and pushes the product.
The stack handling is right for every machine with two live elements; the
product is right exactly when the column of weight `2^64` does not carry,
because `mul256` adds that carry to the limb of weight `2^192`.
-/

namespace TinyEvm

open Lib.Exec

/-! ## Results

An opcode of arity `n` is right when it ends with status zero and one word in place of
its `n` operands; `Leaves` says which number that word is. What a run pushes decides it
(`leaves_pushed_iff`), and a run that stops short leaves nothing. -/

/-- The opcode `b` takes its operands and leaves one word of value `v` in their place. -/
def Leaves (b : UInt8) (sContract : Code) (s : Vm) (v : Nat) : Prop :=
  ∃ s', decodeInstruction b sContract s = .ok 0 s' ∧
    s'.sp = s.sp - (OpCode.ofByte b).arity + 1 ∧ (s'.slot s'.sp).val = v

theorem leaves_pushed_iff {b : UInt8} {sContract : Code} {s t : Vm} {w : Uint256} {gas : UInt32}
    {v : Nat} (hrun : decodeInstruction b sContract s = .ok 0 { t.pushed w with gasCharge := gas })
    (hsp : t.sp = s.sp - (OpCode.ofByte b).arity) (hin : InStack (t.sp + 1)) :
    Leaves b sContract s v ↔ w.val = v := by
  have htop : (t.pushed w).slot (t.sp + 1) = w := Vm.slot_pushed_same w hin rfl
  refine ⟨?_, ?_⟩
  · intro hleaves
    obtain ⟨s', hrun', -, hval⟩ := hleaves
    rw [hrun] at hrun'
    cases hrun'
    rw [← hval]
    exact congrArg Uint256.val htop.symm
  · intro hval
    refine ⟨_, hrun, ?_, ?_⟩
    · show t.sp + 1 = _
      rw [hsp]
    · rw [← hval]
      exact congrArg Uint256.val htop

theorem not_leaves_of_error {b : UInt8} {sContract : Code} {s s' : Vm} {e : Fault} {v : Nat}
    (hrun : decodeInstruction b sContract s = .error e s') : ¬Leaves b sContract s v := by
  intro hleaves
  obtain ⟨s'', hrun', -, -⟩ := hleaves
  rw [hrun] at hrun'
  cases hrun'

/-- A word pushed in place of two operands. -/
theorem leaves_two_iff {b : UInt8} {sContract : Code} {s : Vm} {w : Uint256} {gas : UInt32} {v : Nat}
    (hrun : decodeInstruction b sContract s
      = .ok 0 { s.popped.popped.pushed w with gasCharge := gas })
    (harity : (OpCode.ofByte b).arity = 2) (h1 : 2 ≤ s.sp) (h2 : s.sp < stackSpace) :
    Leaves b sContract s v ↔ w.val = v := by
  refine leaves_pushed_iff hrun ?_ (Vm.room_popped₂ (by omega) h2)
  rw [harity]
  show s.sp - 1 - 1 = s.sp - 2
  omega

/-- The opcodes of the family `binary`. -/
theorem leaves_binary_iff {b : UInt8} {f : Uint256 → Uint256 → Uint256} {gas : UInt32}
    {sContract : Code} {s : Vm} {v : Nat} (hb : decodeInstruction b sContract = binary f gas)
    (harity : (OpCode.ofByte b).arity = 2) (h1 : 2 ≤ s.sp) (h2 : s.sp < stackSpace) :
    Leaves b sContract s v ↔ (f (s.slot s.sp) (s.slot (s.sp - 1))).val = v :=
  leaves_two_iff ((congrFun hb s).trans (binary_ok (show 1 ≤ s.sp by omega) h2)) harity h1 h2

/-- A machine with the given words on its stack, the top first. -/
def stacked (words : List Uint256) : Vm :=
  { Vm.zeroed with sp := words.length, stack := fun i => words.getD (words.length - i) clear256 }

/-! ## `ADD` and `SUB` -/

section

variable {sContract : Code} {s : Vm}

theorem add_leaves_iff (h1 : 2 ≤ s.sp) (h2 : s.sp < stackSpace) {v : Nat} :
    Leaves 0x01 sContract s v ↔ ((s.slot s.sp).val + (s.slot (s.sp - 1)).val) % 2 ^ 256 = v := by
  rw [leaves_binary_iff (b := 0x01) rfl rfl h1 h2, add256_val]

theorem sub_leaves_iff (h1 : 2 ≤ s.sp) (h2 : s.sp < stackSpace) {v : Nat} :
    Leaves 0x03 sContract s v
      ↔ (2 ^ 256 - (s.slot (s.sp - 1)).val + (s.slot s.sp).val) % 2 ^ 256 = v := by
  have hrun : decodeInstruction 0x03 sContract s = .ok 0 { s.popped.popped.pushed
      (minus256 (s.slot s.sp) (s.slot (s.sp - 1))) with gasCharge := s.gasCharge } :=
    opSub_ok (by omega) h2
  rw [leaves_two_iff hrun rfl h1 h2, minus256_val]

/-- The wrapping difference of naturals is the difference of integers modulo `2^256`. -/
theorem sub_mod_toNat {a b : Nat} (hb : b < 2 ^ 256) :
    (((a : Int) - b) % 2 ^ 256).toNat = (2 ^ 256 - b + a) % 2 ^ 256 := by
  omega

/-- What was added is taken away again. -/
theorem sub_add_mod {a b : Nat} (ha : a < 2 ^ 256) (hb : b < 2 ^ 256) :
    (2 ^ 256 - b + (a + b) % 2 ^ 256) % 2 ^ 256 = a := by
  omega

end

/-- **`ADD` and `SUB` are the EVM's**, modulo `2^256` and for all operands; and where `ADD`
has left its sum, `SUB` of the second operand from it leaves the first. -/
theorem add_sub_meet (sContract : Code) (s : Vm) (h1 : 2 ≤ s.sp) (h2 : s.sp < stackSpace) :
    Leaves 0x01 sContract s (((s.slot s.sp).val + (s.slot (s.sp - 1)).val) % 2 ^ 256) ∧
    Leaves 0x03 sContract s
      ((((s.slot s.sp).val : Int) - (s.slot (s.sp - 1)).val) % 2 ^ 256).toNat ∧
    ∀ s', decodeInstruction 0x01 sContract s = .ok 0 s' →
      ∀ t : Vm, 2 ≤ t.sp → t.sp < stackSpace → t.slot t.sp = s'.slot s'.sp →
        t.slot (t.sp - 1) = s.slot (s.sp - 1) → Leaves 0x03 sContract t (s.slot s.sp).val := by
  have hadd : Leaves 0x01 sContract s (((s.slot s.sp).val + (s.slot (s.sp - 1)).val) % 2 ^ 256) :=
    (add_leaves_iff h1 h2).mpr rfl
  refine ⟨hadd, ?_, ?_⟩
  · rw [sub_leaves_iff h1 h2, sub_mod_toNat (Uint256.val_lt _)]
  · intro s' hrun t ht1 ht2 htop hbelow
    obtain ⟨s₁, hrun₁, -, hsum⟩ := hadd
    obtain rfl : s₁ = s' := by
      rw [hrun₁] at hrun
      cases hrun
      rfl
    rw [sub_leaves_iff ht1 ht2, htop, hbelow, hsum]
    exact sub_add_mod (Uint256.val_lt _) (Uint256.val_lt _)

/-- A carry through every limb, and the borrow back. -/
theorem add_sub_meet_ones :
    Leaves 0x01 ⟨[0x01], by decide⟩ (stacked [not256 clear256, lowWord 1])
      (((not256 clear256).val + (lowWord 1).val) % 2 ^ 256) ∧
    Leaves 0x03 ⟨[0x01], by decide⟩ (stacked [clear256, lowWord 1]) (not256 clear256).val := by
  have hmeets := add_sub_meet ⟨[0x01], by decide⟩ (stacked [not256 clear256, lowWord 1]) (by decide)
    (by decide)
  exact ⟨hmeets.1, hmeets.2.2 _ rfl (stacked [clear256, lowWord 1]) (by decide) (by decide) rfl rfl⟩

/-! ## `MUL` -/

/-- `MUL` behaves as the EVM's: status zero, one element less, and the wrapping
product of the two operands on top. -/
def MulMeets (sContract : Code) (s : Vm) : Prop :=
  ∃ s', decodeInstruction 0x02 sContract s = .ok 0 s' ∧ s'.sp = s.sp - 1 ∧
    (s'.slot s'.sp).val = (s.slot s.sp).val * (s.slot (s.sp - 1)).val % 2 ^ 256

theorem mulMeets_iff_val {sContract : Code} {s : Vm} (h1 : 2 ≤ s.sp) (h2 : s.sp < stackSpace) :
    MulMeets sContract s ↔ (mul256 (s.slot s.sp) (s.slot (s.sp - 1))).val
      = (s.slot s.sp).val * (s.slot (s.sp - 1)).val % 2 ^ 256 := by
  have hsp : s.sp - ((OpCode.ofByte 0x02).arity : Int) + 1 = s.sp - 1 := by
    show s.sp - 2 + 1 = s.sp - 1
    omega
  rw [← leaves_binary_iff (b := 0x02) rfl rfl h1 h2]
  unfold MulMeets Leaves
  rw [hsp]

/-- **`MUL` is right exactly when the `2^64` column of the operands does not
carry.** -/
theorem mulMeets_iff (sContract : Code) (s : Vm) (h1 : 2 ≤ s.sp) (h2 : s.sp < stackSpace) :
    MulMeets sContract s ↔ mulColumn (s.slot s.sp) (s.slot (s.sp - 1)) < 2 ^ 64 := by
  rw [mulMeets_iff_val h1 h2]
  exact mul256_val_eq_iff _ _

/-- A machine with two equal words on its stack. -/
def twice (w : Uint256) : Vm := { Vm.zeroed with sp := 2, stack := fun _ => w }

/-- `5 * 5`: the column of weight `2^64` is zero. -/
theorem mulMeets_five : MulMeets ⟨[0x02], by decide⟩ (twice ⟨clear128, ⟨0, 5⟩⟩) :=
  (mulMeets_iff ⟨[0x02], by decide⟩ (twice ⟨clear128, ⟨0, 5⟩⟩) (by decide) (by decide)).mpr
    (by decide)

/-- The word `2^128 - 1`. -/
def lowOnes : Uint256 := ⟨clear128, ⟨0xFFFFFFFFFFFFFFFF, 0xFFFFFFFFFFFFFFFF⟩⟩

/-- The square of `2^128 - 1` comes out wrong. -/
theorem mul_lowOnes_wrong : 2 ≤ (twice lowOnes).sp ∧ (twice lowOnes).sp < stackSpace ∧
    ¬MulMeets ⟨[0x02], by decide⟩ (twice lowOnes) := by
  refine ⟨by decide, by decide, ?_⟩
  rw [mulMeets_iff_val (by decide) (by decide)]
  show ¬(mul256 lowOnes lowOnes).val = lowOnes.val * lowOnes.val % 2 ^ 256
  rw [mul256_val_eq_iff]
  decide

end TinyEvm
