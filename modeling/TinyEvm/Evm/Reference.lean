import TinyEvm.Keccak.Basic
import TinyEvm.Lib.BigEndian
import TinyEvm.Vm.Jump
import Mathlib.Data.BitVec

/-!
# The EVM the interpreter stands in for

One step of the EVM on the opcodes of `OpCode`: words are integers modulo
`2^256`, the stack is a list with the top in front, memory is a map from
addresses to bytes in which words are big-endian, storage a map from words to
words, and a jump has to hit a `JUMPDEST` of the disassembly. This is the
purpose `eth_vm.c` is measured against, not a translation of it; gas is left out,
since the interpreter's prices are its own.

An instruction that asks for what neither the code nor the message determines
(`BALANCE`, `BLOCKHASH`, `TIMESTAMP`, the devices, and the bytes outside
`OpCode`) is `foreign`.
-/

namespace TinyEvm

open Lib.BigEndian

/-! ## Deciding instruction boundaries -/

/-- Whether the disassembly from `p` comes to `d` within `k` instructions. -/
def Code.comesTo (c : Code) (d : Nat) : Nat → Nat → Bool
  | 0, _ => false
  | k + 1, p => p == d || match c.bytes[p]? with
    | some b => c.comesTo d k (p + 1 + (OpCode.ofByte b).immediate)
    | none => false

theorem Code.comesTo_mono {c : Code} {d : Nat} : ∀ {k k' p : Nat}, k ≤ k' →
    c.comesTo d k p = true → c.comesTo d k' p = true := by
  intro k
  induction k with
  | zero =>
    intro k' p _ h
    cases h
  | succ k ih =>
    intro k' p hle h
    obtain ⟨m, rfl⟩ := Nat.exists_eq_add_of_le' hle
    rw [← Nat.add_assoc, comesTo, Bool.or_eq_true]
    rw [comesTo, Bool.or_eq_true] at h
    refine h.imp_right ?_
    intro hnext
    cases hb : c.bytes[p]? with
    | none => simp [hb] at hnext
    | some b =>
      simp only [hb] at hnext
      exact ih (by omega) hnext

theorem Code.boundary_of_comesTo {c : Code} {d : Nat} : ∀ {k p : Nat}, Boundary c p →
    c.comesTo d k p = true → Boundary c d := by
  intro k
  induction k with
  | zero =>
    intro p _ h
    cases h
  | succ k ih =>
    intro p hp h
    rw [comesTo, Bool.or_eq_true] at h
    rcases h with heq | hnext
    · rw [← beq_iff_eq.mp heq]
      exact hp
    · cases hb : c.bytes[p]? with
      | none => simp [hb] at hnext
      | some b =>
        simp only [hb] at hnext
        exact ih (hp.next hb) hnext

/-- Boundaries are at least as far out as there are instructions before them. -/
theorem Code.comesTo_of_boundary {c : Code} {d : Nat} {p : Nat} (hp : Boundary c p) :
    ∀ {k : Nat}, c.comesTo d k p = true → c.comesTo d (k + p) 0 = true := by
  induction hp with
  | zero => exact id
  | @next p b _ hb ih =>
    intro k h
    have hprev : c.comesTo d (k + 1) p = true := by
      rw [comesTo, hb, Bool.or_eq_true]
      exact Or.inr h
    exact comesTo_mono (by omega) (ih hprev)

theorem Code.boundary_iff (c : Code) (d : Nat) : c.comesTo d (d + 1) 0 = true ↔ Boundary c d := by
  refine ⟨boundary_of_comesTo Boundary.zero, ?_⟩
  intro hd
  rw [Nat.add_comm]
  refine comesTo_of_boundary hd ?_
  simp [comesTo]

instance (c : Code) (d : Nat) : Decidable (Boundary c d) := decidable_of_iff _ (c.boundary_iff d)

instance (c : Code) (d : Nat) : Decidable (ValidDest c d) := inferInstanceAs (Decidable (_ ∧ _ ∧ _))

namespace Evm

abbrev Word := BitVec 256

/-- What a run is given: the code, and the message it is called with. -/
structure Context where
  code : Code
  address : Word
  caller : Word
  callValue : Word
  /-- The call data, zero behind its end. -/
  calldata : Nat → UInt8
  calldatasize : Nat

structure State where
  pc : Nat
  stack : List Word
  memory : Nat → UInt8
  storage : Word → Word

/-- How one instruction ends. -/
inductive Outcome where
  | next (t : State)
  | stopped
  | returned (data : List UInt8)
  | reverted (data : List UInt8)
  | failed
  | foreign

/-! ## Words and bytes -/

def ofProp (p : Prop) [Decidable p] : Word := if p then 1 else 0

/-- The big-endian word at `bytes`. -/
def wordAt (bytes : Nat → UInt8) : Word := BitVec.ofNat 256 (beNat bytes 32)

/-- Byte `k` of a word, the most significant first. -/
def byteOf (w : Word) (k : Nat) : UInt8 := UInt8.ofNat (w.toNat / 256 ^ (31 - k))

/-- Two's complement `x` from the `k + 1` low bytes of the word. -/
def signExtend (k x : Word) : Word :=
  if k.toNat < 31 then (x.setWidth (8 * (k.toNat + 1))).signExtend 256 else x

/-- The `n` bytes behind the opcode at `pc`, zero behind the end of the code. -/
def immediateOf (c : Code) (pc n : Nat) : Word :=
  BitVec.ofNat 256 (beNat (fun k => (c.bytes[pc + 1 + k]?).getD 0) n)

namespace State

/-- Operand `i`, the top being operand zero. -/
def operand (t : State) (i : Nat) : Word := t.stack.getD i 0

/-- The next instruction, with `stack` for the stack. -/
def leave (t : State) (stack : List Word) : State := { t with pc := t.pc + 1, stack := stack }

/-- The bytes `[offset, offset + length)` of memory. -/
def slice (t : State) (offset length : Nat) : List UInt8 :=
  (List.range length).map fun k => t.memory (offset + k)

/-- `length` bytes written at `offset`. -/
def write (t : State) (offset length : Nat) (bytes : Nat → UInt8) : State :=
  { t with memory := fun j => if offset ≤ j ∧ j < offset + length then bytes (j - offset) else t.memory j }

/-- `value` stored under `key`. -/
def put (t : State) (key value : Word) : State :=
  { t with storage := fun k => if k = key then value else t.storage k }

end State

open State

/-! ## Instructions -/

/-- The word that takes the place of the operands, for the opcodes that compute
one. A divisor of zero gives zero. -/
def value (ctx : Context) (t : State) : OpCode → Option Word
  | .add => some (t.operand 0 + t.operand 1)
  | .mul => some (t.operand 0 * t.operand 1)
  | .sub => some (t.operand 0 - t.operand 1)
  | .div => some (t.operand 0 / t.operand 1)
  | .sdiv => some (BitVec.sdiv (t.operand 0) (t.operand 1))
  | .mod => some (if t.operand 1 = 0 then 0 else t.operand 0 % t.operand 1)
  | .smod => some (if t.operand 1 = 0 then 0 else BitVec.srem (t.operand 0) (t.operand 1))
  | .addmod => some (if t.operand 2 = 0 then 0 else
      BitVec.ofNat 256 (((t.operand 0).toNat + (t.operand 1).toNat) % (t.operand 2).toNat))
  | .mulmod => some (if t.operand 2 = 0 then 0 else
      BitVec.ofNat 256 ((t.operand 0).toNat * (t.operand 1).toNat % (t.operand 2).toNat))
  | .exp => some (BitVec.ofNat 256 ((t.operand 0).toNat ^ (t.operand 1).toNat))
  | .signextend => some (signExtend (t.operand 0) (t.operand 1))
  | .lt => some (ofProp (t.operand 0 < t.operand 1))
  | .gt => some (ofProp (t.operand 1 < t.operand 0))
  | .slt => some (ofProp ((t.operand 0).toInt < (t.operand 1).toInt))
  | .sgt => some (ofProp ((t.operand 1).toInt < (t.operand 0).toInt))
  | .eq => some (ofProp (t.operand 0 = t.operand 1))
  | .iszero => some (ofProp (t.operand 0 = 0))
  | .and => some (t.operand 0 &&& t.operand 1)
  | .or => some (t.operand 0 ||| t.operand 1)
  | .xor => some (t.operand 0 ^^^ t.operand 1)
  | .not => some (~~~t.operand 0)
  | .byte => some (if (t.operand 0).toNat < 32 then
      BitVec.ofNat 256 (byteOf (t.operand 1) (t.operand 0).toNat).toNat else 0)
  | .shl => some (t.operand 1 <<< (t.operand 0).toNat)
  | .shr => some (t.operand 1 >>> (t.operand 0).toNat)
  | .sar => some ((t.operand 1).sshiftRight (t.operand 0).toNat)
  | .sha3 =>
    let digest := Keccak.getKeccak256 (fun _ => true) (t.slice (t.operand 0).toNat (t.operand 1).toNat)
    some (wordAt (digest.getD · 0))
  | .address => some ctx.address
  | .caller => some ctx.caller
  | .callvalue => some ctx.callValue
  | .calldataload => some (wordAt fun k => ctx.calldata ((t.operand 0).toNat + k))
  | .calldatasize => some (BitVec.ofNat 256 ctx.calldatasize)
  | .codesize => some (BitVec.ofNat 256 ctx.code.size)
  | .mload => some (wordAt fun k => t.memory ((t.operand 0).toNat + k))
  | .sload => some (t.storage (t.operand 0))
  | _ => none

/-- A jump to `d` with `stack` left behind. -/
def jumpTo (ctx : Context) (t : State) (d : Nat) (stack : List Word) : Outcome :=
  if ValidDest ctx.code d then .next { t with pc := d, stack := stack } else .failed

/-- One instruction, once its operands are there. -/
def execute (ctx : Context) (t : State) (op : OpCode) : Outcome :=
  match op with
  | .stop => .stopped
  | .push n => .next { t with
      pc := t.pc + 1 + (n + 1), stack := immediateOf ctx.code t.pc (n + 1) :: t.stack }
  | .dup n => .next (t.leave (t.operand n :: t.stack))
  | .swap n => .next (t.leave (t.operand (n + 1) :: (t.stack.drop 1).set n (t.operand 0)))
  | .pop | .log _ => .next (t.leave (t.stack.drop op.arity))
  | .mstore => .next ((t.leave (t.stack.drop 2)).write (t.operand 0).toNat 32 (byteOf (t.operand 1)))
  | .mstore8 =>
    .next ((t.leave (t.stack.drop 2)).write (t.operand 0).toNat 1 fun _ => byteOf (t.operand 1) 31)
  | .calldatacopy => .next ((t.leave (t.stack.drop 3)).write (t.operand 0).toNat (t.operand 2).toNat
      fun k => ctx.calldata ((t.operand 1).toNat + k))
  | .codecopy => .next ((t.leave (t.stack.drop 3)).write (t.operand 0).toNat (t.operand 2).toNat
      fun k => (ctx.code.bytes[(t.operand 1).toNat + k]?).getD 0)
  | .sstore => .next ((t.leave (t.stack.drop 2)).put (t.operand 0) (t.operand 1))
  | .jump => jumpTo ctx t (t.operand 0).toNat (t.stack.drop 1)
  | .jumpi =>
    if t.operand 1 = 0 then .next (t.leave (t.stack.drop 2))
    else jumpTo ctx t (t.operand 0).toNat (t.stack.drop 2)
  | .jumpdest => .next (t.leave t.stack)
  | .ret => .returned (t.slice (t.operand 0).toNat (t.operand 1).toNat)
  | .revert => .reverted (t.slice (t.operand 0).toNat (t.operand 1).toNat)
  | .invalid => .failed
  | op => match value ctx t op with
    | some w => .next (t.leave (w :: t.stack.drop op.arity))
    | none => .foreign

/-- A stack of more than 1024 words ends the run. -/
def Outcome.limited : Outcome → Outcome
  | next t => if t.stack.length ≤ 1024 then next t else failed
  | o => o

/-- One step. Behind the end of the code stands `STOP`. -/
def step (ctx : Context) (t : State) : Outcome :=
  let op := (ctx.code.bytes[t.pc]?).elim OpCode.stop OpCode.ofByte
  if t.stack.length < op.arity then .failed else (execute ctx t op).limited

end Evm

end TinyEvm
