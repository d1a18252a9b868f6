import Mathlib.Data.Fin.Basic

/-!
# The opcodes of `evm.h`

`OpCode` has one constructor for every `case` label of `decode_instruction`
(`PUSH1..PUSH32`, `DUP1..DUP16`, `SWAP1..SWAP16` and `LOG0..LOG4` as families)
and `unsupported` for the bytes that fall to its `default`. `OpCode.ofByte` is
the `enum OP_CODE` numbering.
-/

namespace TinyEvm

inductive OpCode where
  | stop | add | mul | sub | div | sdiv | mod | smod | addmod | mulmod | exp | signextend
  | sensor | led | temperature
  | lt | gt | slt | sgt | eq | iszero | and | or | xor | not | byte | shl | shr | sar
  | sha3
  | address | balance | caller | callvalue | calldataload | calldatasize | calldatacopy
  | codesize | codecopy
  | blockhash | timestamp
  | pop | mload | mstore | mstore8 | sload | sstore | jump | jumpi | jumpdest
  /-- `PUSH1` is `push 0`. -/
  | push (n : Fin 32)
  /-- `DUP1` is `dup 0`. -/
  | dup (n : Fin 16)
  /-- `SWAP1` is `swap 0`. -/
  | swap (n : Fin 16)
  | log (n : Fin 5)
  | ret | revert | invalid
  | unsupported
deriving DecidableEq, Repr

namespace OpCode

/-- The opcodes below `PUSH1` and above `LOG4`, by number. -/
def single : Nat → OpCode
  | 0x00 => stop | 0x01 => add | 0x02 => mul | 0x03 => sub | 0x04 => div | 0x05 => sdiv
  | 0x06 => mod | 0x07 => smod | 0x08 => addmod | 0x09 => mulmod | 0x0a => exp
  | 0x0b => signextend | 0x0c => sensor | 0x0d => led | 0x0e => temperature
  | 0x10 => lt | 0x11 => gt | 0x12 => slt | 0x13 => sgt | 0x14 => eq | 0x15 => iszero
  | 0x16 => and | 0x17 => or | 0x18 => xor | 0x19 => not | 0x1a => byte | 0x1b => shl
  | 0x1c => shr | 0x1d => sar
  | 0x20 => sha3
  | 0x30 => address | 0x31 => balance | 0x33 => caller | 0x34 => callvalue
  | 0x35 => calldataload | 0x36 => calldatasize | 0x37 => calldatacopy
  | 0x38 => codesize | 0x39 => codecopy
  | 0x40 => blockhash | 0x42 => timestamp
  | 0x50 => pop | 0x51 => mload | 0x52 => mstore | 0x53 => mstore8 | 0x54 => sload
  | 0x55 => sstore | 0x56 => jump | 0x57 => jumpi | 0x5b => jumpdest
  | 0xf3 => ret | 0xfd => revert | 0xfe => invalid
  | _ => unsupported

/-- Which `case` of `decode_instruction` a byte selects. -/
def ofByte (b : UInt8) : OpCode :=
  if h : 0x60 ≤ b.toNat ∧ b.toNat < 0x80 then push ⟨b.toNat - 0x60, by omega⟩
  else if h : 0x80 ≤ b.toNat ∧ b.toNat < 0x90 then dup ⟨b.toNat - 0x80, by omega⟩
  else if h : 0x90 ≤ b.toNat ∧ b.toNat < 0xa0 then swap ⟨b.toNat - 0x90, by omega⟩
  else if h : 0xa0 ≤ b.toNat ∧ b.toNat < 0xa5 then log ⟨b.toNat - 0xa0, by omega⟩
  else single b.toNat

/-- `STOP` is the byte zero only. -/
theorem ofByte_eq_stop {b : UInt8} (h : ofByte b = stop) : b = 0x00 := by
  have hall : ∀ i : Fin 256, ofByte (UInt8.ofNat i) = stop → i.val = 0 := by
    decide +kernel
  have hzero := hall ⟨b.toNat, b.toNat_lt⟩ (by rw [UInt8.ofNat_toNat]; exact h)
  exact UInt8.toNat_inj.mp hzero

/-- The bytes of an immediate: `n` for `PUSHn`. -/
def immediate : OpCode → Nat
  | push n => n + 1
  | _ => 0

/-- The operands an opcode reads: `n` for `DUPn`, `n + 1` for `SWAPn`, the EVM
arity otherwise. -/
def arity : OpCode → Nat
  | add | mul | sub | div | sdiv | mod | smod | exp | signextend => 2
  | addmod | mulmod => 3
  | lt | gt | slt | sgt | eq | and | or | xor | byte | shl | shr | sar => 2
  | iszero | not => 1
  | sha3 => 2
  | balance | calldataload => 1
  | calldatacopy | codecopy => 3
  | blockhash => 1
  | pop | mload | sload | jump => 1
  | mstore | mstore8 | sstore | jumpi => 2
  | dup n => n + 1
  | swap n => n + 2
  | log n => n + 2
  | ret | revert => 2
  | stop | sensor | led | temperature | address | caller | callvalue | calldatasize | codesize
  | timestamp | jumpdest | push _ | invalid | unsupported => 0

end OpCode

end TinyEvm
