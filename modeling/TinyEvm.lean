import TinyEvm.Lib.Buffer
import TinyEvm.Lib.Exec
import TinyEvm.Lib.Radix
import TinyEvm.Lib.Replay
import TinyEvm.Uint256.Basic
import TinyEvm.Uint256.Arith
import TinyEvm.Uint256.Mul
import TinyEvm.Keccak.Basic
import TinyEvm.Keccak.Sha3
import TinyEvm.Keccak.Permutation
import TinyEvm.Vm.Machine
import TinyEvm.Vm.OpCode
import TinyEvm.Vm.Decode
import TinyEvm.Lib.Loop
import TinyEvm.Lib.Relate
import TinyEvm.Vm.Execute
import TinyEvm.Vm.Arithmetic
import TinyEvm.Lib.BigEndian
import TinyEvm.Uint256.Bytes
import TinyEvm.Vm.Push
import TinyEvm.Vm.StackLang
import TinyEvm.Vm.Footprint
import TinyEvm.Vm.Depth
import TinyEvm.Vm.Fetch
import TinyEvm.Vm.Gas
import TinyEvm.Vm.Walk
import TinyEvm.Vm.Frame
import TinyEvm.Vm.Height
import TinyEvm.Vm.Jump
import TinyEvm.Vm.WordBytes
import TinyEvm.Vm.Memory
import TinyEvm.Vm.Storage
import TinyEvm.Vm.Faults
import TinyEvm.Vm.MemBounds
import TinyEvm.Vm.CodeBounds
import TinyEvm.Vm.Rollback
import TinyEvm.Vm.Deploy
import TinyEvm.Vm.Alike
import TinyEvm.Vm.Isolation
import TinyEvm.Vm.Hash
import TinyEvm.Vm.Isolation
import TinyEvm.Keccak.Agree
import TinyEvm.Lib.ShiftSubtract
import TinyEvm.Uint256.Shift
import TinyEvm.Uint256.Div
import TinyEvm.Vm.Division
import TinyEvm.Vm.Power
import TinyEvm.Lib.TwosComplement
import TinyEvm.Vm.Signed
import TinyEvm.Vm.Calldata
import TinyEvm.Vm.Copy
import TinyEvm.Vm.Return
import TinyEvm.Vm.Shifts
import TinyEvm.Lib.HighWater
import TinyEvm.Vm.HighWater
import TinyEvm.Vm.Usage
import TinyEvm.Lib.Simulation
import TinyEvm.Evm.Reference
import TinyEvm.Evm.Value
import TinyEvm.Evm.Conform
import TinyEvm.Lib.Escrow
import TinyEvm.Contract.HashLock
import TinyEvm.Contract.Solidity
import TinyEvm.Contract.PaymentChannel
import TinyEvm.Lib.SumTree
import TinyEvm.Contract.MerkleSumTree
import TinyEvm.Uint256.Div128
import TinyEvm.Lib.Numerals
import TinyEvm.Uint256.ToString
import TinyEvm.Lib.Sponge
import TinyEvm.Keccak.Shake
import TinyEvm.Uint256.InPlace
