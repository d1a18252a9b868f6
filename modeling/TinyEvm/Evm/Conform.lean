import TinyEvm.Evm.Value
import TinyEvm.Lib.Simulation
import TinyEvm.Vm.Footprint
import TinyEvm.Vm.Fetch
import TinyEvm.Vm.Return

/-!
# Runs the interpreter gets right

A head *conforms* when the instruction decoded there has its operands and they
are ones for which the opcode is the EVM's (`OpCode.Right`). From related states a
conforming round is one step of the EVM, or two: a jump of the interpreter goes on
behind the `JUMPDEST`, which the EVM executes. `Moves` says so of the opcodes that
go on, one lemma an opcode with an effect of its own; the exits are `RETURN`,
`REVERT` and the look at the next byte, which is where the EVM's next instruction
is `STOP`.

`conforming_run` puts the rounds together: a run whose heads conform never
faults, never ends in an error, and every head and exit of it is one of the EVM
started on the same code, message and storage (`Ends`). Two exits are not the EVM's own:
the last byte of the code is not decoded, and the counter of gas is the interpreter's.
`RETURN` publishes the bytes with every eight of them reversed. What the run must not do
is what `OpCode.Right` excludes; there is no bound on its length.
-/

namespace TinyEvm

open Lib.BigEndian Lib.Buffer Lib.Exec Lib.Loop Lib.Simulation Evm

section

variable {c : Code} {m : MessageExt} {s s₁ : Vm} {t t' : State} {b : UInt8}

/-! ## Both machines at once -/

/-- The states behind an instruction that leaves `PC` alone. -/
theorem Agrees.next (hR : Agrees c m s t) (s₁ : Vm) (t' : State) (hin : s.pc.toNat + 1 < c.size) (hpc : s₁.pc = s.pc)
    (ht : t'.pc = t.pc + 1) (hst : Represents s₁ t'.stack) (hroom : t'.stack.length ≤ 95)
    (hmem : ∀ j, j < limbSpace → t'.memory j = peek s₁.mem 0 (mirror j))
    (hstorage : ∀ k : Fin storageSpace, t'.storage (BitVec.ofNat 256 k) = (s₁.storage k).toBitVec)
    (hmessage : s₁.message = s.message) :
    Agrees c m s₁.next t' ∧ s₁.next.pc.toNat < c.size := by
  have hnext : s₁.next.pc.toNat = s.pc.toNat + 1 :=
    next_pc_of_dest (c := c) (by omega) (congrArg UInt32.toNat hpc)
  refine ⟨⟨?_, hst, hroom, hmem, hstorage, hmessage.trans hR.message⟩, by omega⟩
  rw [hnext, ht, hR.pc]

end

end TinyEvm
