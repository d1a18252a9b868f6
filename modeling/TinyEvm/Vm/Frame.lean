import TinyEvm.Vm.Footprint
import TinyEvm.Vm.Walk

/-!
# What an opcode leaves alone

A part `π` of the machine that does not look at the stack and its record (`OffStack π`)
is kept by `stack_pop`, `stack_push`, `DUP` and `SWAP`; one that does not look at the gas
and the inputs either (`Calm π`, and `Blind π` if it does not look at the usage counters)
is kept by every opcode that only computes, by one walk through them. The opcodes that
write memory, storage or the published contract keep such a part too if it does not look
at what they write. So `pc`, `message`, `storage` and the others are instances of `π`, and
`frame_law` collects what each opcode may change.
-/

namespace TinyEvm

open Lib.Buffer Lib.Exec

/-- `π` does not look at the stack, the counters and the inputs. -/
structure Blind {τ : Type} (π : Vm → τ) : Prop where
  sp : ∀ (s : Vm) sp, π { s with sp := sp } = π s
  stack : ∀ (s : Vm) stack, π { s with stack := stack } = π s
  slots : ∀ (s : Vm) slots, π { s with slots := slots } = π s
  gasCharge : ∀ (s : Vm) gas, π { s with gasCharge := gas } = π s
  maxMemOffset : ∀ (s : Vm) n, π { s with maxMemOffset := n } = π s
  maxStorageCounter : ∀ (s : Vm) n, π { s with maxStorageCounter := n } = π s
  rtimer : ∀ (s : Vm) f, π { s with rtimer := f } = π s
  frames : ∀ (s : Vm) f, π { s with frames := f } = π s

/-- The types of `PC`, memory, storage, message and published contract. -/
abbrev Kept : Type := UInt32 × (Fin memorySpace → UInt8) × (Fin storageSpace → Uint256) ×
  MessageExt × (Fin deploySpace → UInt8) × UInt64

/-- What is left of a machine when everything a blind part ignores is put aside. -/
def Vm.kept (s : Vm) : Kept :=
  (s.pc, s.mem, s.storage, s.message, s.deployedContract, s.deployLength)

theorem blind_of_kept {τ : Type} {π : Vm → τ} (g : Kept → τ) (h : ∀ s, π s = g s.kept) :
    Blind π := by
  refine ⟨?_, ?_, ?_, ?_, ?_, ?_, ?_, ?_⟩ <;>
  · intro s _
    rw [h, h]
    rfl

theorem blind_pc : Blind (fun s => s.pc) := blind_of_kept (fun k => k.1) fun _ => rfl

theorem blind_mem : Blind (fun s => s.mem) := blind_of_kept (fun k => k.2.1) fun _ => rfl

theorem blind_storage : Blind (fun s => s.storage) := blind_of_kept (fun k => k.2.2.1) fun _ => rfl

theorem blind_message : Blind (fun s => s.message) :=
  blind_of_kept (fun k => k.2.2.2.1) fun _ => rfl

theorem blind_deployed : Blind (fun s => (s.deployedContract, s.deployLength)) :=
  blind_of_kept (fun k => k.2.2.2.2) fun _ => rfl

/-- `π` does not look at the stack. -/
structure OffStack {τ : Type} (π : Vm → τ) : Prop where
  sp : ∀ (s : Vm) sp, π { s with sp := sp } = π s
  stack : ∀ (s : Vm) stack, π { s with stack := stack } = π s
  slots : ∀ (s : Vm) slots, π { s with slots := slots } = π s

theorem Blind.offStack {τ : Type} {π : Vm → τ} (hπ : Blind π) : OffStack π :=
  ⟨hπ.sp, hπ.stack, hπ.slots⟩

/-- `π` may look at the usage counters, but not at the rest of what any opcode may change. -/
structure Calm {τ : Type} (π : Vm → τ) : Prop extends OffStack π where
  gasCharge : ∀ (s : Vm) gas, π { s with gasCharge := gas } = π s
  rtimer : ∀ (s : Vm) f, π { s with rtimer := f } = π s
  frames : ∀ (s : Vm) f, π { s with frames := f } = π s

theorem Blind.calm {τ : Type} {π : Vm → τ} (hπ : Blind π) : Calm π :=
  { hπ.offStack with gasCharge := hπ.gasCharge, rtimer := hπ.rtimer, frames := hπ.frames }

/-! ## Primitives -/

namespace OffStack

variable {τ : Type} {π : Vm → τ}

theorem stackAt (hπ : OffStack π) (i : Int) : Keeps π (stackAt i) := by
  intro s
  by_cases hin : InStack i
  · rw [stackAt_ok hin]
    exact hπ.slots s _
  · rw [stackAt_fault hin]
    rfl

theorem setStackAt (hπ : OffStack π) (i : Int) (w : Uint256) : Keeps π (setStackAt i w) := by
  intro s
  by_cases hin : InStack i
  · rw [setStackAt_ok w hin]
    exact hπ.stack s _
  · rw [setStackAt_fault w hin]
    rfl

theorem pop (hπ : OffStack π) : Keeps π stackPop :=
  (Keeps.get π).bind fun _ => (hπ.stackAt _).bind fun _ =>
    (Keeps.update fun s => hπ.sp s _).bind fun _ => Keeps.pure π _

theorem push (hπ : OffStack π) (w : Uint256) : Keeps π (stackPush w) := by
  intro s
  unfold stackPush
  rw [get_bind]
  split
  · rfl
  · refine (hπ.setStackAt (s.sp + 1) w { s with sp := s.sp + 1 }).trans ?_
    exact hπ.sp s _

theorem opDup (hπ : OffStack π) (n : Nat) : Keeps π (opDup n) :=
  (Keeps.get π).bind fun _ => Keeps.ite (Keeps.pure π _) ((hπ.stackAt _).bind fun _ =>
    (hπ.push _).bind fun _ => Keeps.pure π _)

theorem opSwap (hπ : OffStack π) (n : Nat) : Keeps π (opSwap n) :=
  (Keeps.get π).bind fun _ => Keeps.ite (Keeps.pure π _) ((hπ.stackAt _).bind fun _ =>
    (hπ.stackAt _).bind fun _ => (hπ.setStackAt _ _).bind fun _ =>
      (hπ.setStackAt _ _).bind fun _ => Keeps.pure π _)

theorem opTimestamp (hπ : OffStack π) (hrtimer : ∀ (s : Vm) f, π { s with rtimer := f } = π s) :
    Keeps π opTimestamp := by
  intro s
  refine ((hπ.push _).bind (fun _ => Keeps.pure π (0 : Int))
    { s with rtimer := fun i => s.rtimer (i + 1) }).trans ?_
  exact hrtimer s _

end OffStack

namespace Calm

variable {τ : Type} {π : Vm → τ}

/-- The end of most opcodes. -/
theorem paid (hπ : Calm π) (gas : UInt32) :
    Keeps π (charge gas >>= fun _ => (pure 0 : VmM Int)) :=
  (Keeps.update fun s => hπ.gasCharge s _).bind fun _ => Keeps.pure π _

theorem pushImmediate (hπ : Calm π) (n : Nat) (read : VmM Uint256) (hread : Keeps π read) :
    Keeps π (pushImmediate n read) := by
  intro s
  unfold TinyEvm.pushImmediate
  rw [get_bind]
  split
  · rfl
  · refine (hread.bind (fun w => (hπ.toOffStack.setStackAt (s.sp + 1) w).bind fun _ => hπ.paid _)
      { s with sp := s.sp + 1 }).trans ?_
    exact hπ.sp s _

theorem walk (hπ : Calm π) : Walk (fun _ => Keeps π) (fun _ => Keeps π) where
  last := id
  value := Keeps.pure π
  endless _ := Keeps.throw π _
  null _ := Keeps.throw π _
  data _ _ := Keeps.throw π _
  seq := Keeps.bind
  bind := Keeps.bind
  pop := hπ.toOffStack.pop
  push := hπ.toOffStack.push
  paid := hπ.paid
  message hf := (Keeps.get π).bind fun s => hf s.message
  timestamp := hπ.toOffStack.opTimestamp hπ.rtimer
  dup := hπ.toOffStack.opDup
  swap := hπ.toOffStack.opSwap

theorem opStop (hπ : Calm π) (hpc : ∀ (s : Vm) pc, π { s with pc := pc } = π s) :
    Keeps π opStop := by
  intro s
  refine (hpc { s with sp := 0, gasCharge := 0 } 0).trans ?_
  exact (hπ.sp { s with gasCharge := 0 } 0).trans (hπ.gasCharge s 0)

end Calm

namespace Blind

variable {τ : Type} {π : Vm → τ}

theorem memBlock (off len : Nat) : Keeps π (memBlock off len) :=
  (Keeps.get π).bind fun _ => Keeps.ite (Keeps.pure π _) (Keeps.throw π _)

theorem codeBlock (c : Code) (off len : Nat) : Keeps π (codeBlock c off len) :=
  Keeps.ite (Keeps.pure π _) (Keeps.throw π _)

theorem codeAt (c : Code) (i : Nat) : Keeps π (codeAt c i) := by
  unfold TinyEvm.codeAt
  split
  · exact Keeps.pure π _
  · exact Keeps.throw π _

theorem setMemBlock (hmem : ∀ (s : Vm) mem, π { s with mem := mem } = π s) (off len : Nat)
    (bytes : Nat → UInt8) : Keeps π (setMemBlock off len bytes) :=
  Keeps.ite (Keeps.update fun s => hmem s _) (Keeps.throw π _)

theorem nextByte (hpc : ∀ (s : Vm) pc, π { s with pc := pc } = π s) (c : Code) :
    Keeps π (Walk.nextByte c) :=
  (Keeps.update fun s => hpc s _).bind fun _ => (Keeps.get π).bind fun _ => codeAt c _

theorem walk (hπ : Blind π) : Walk (fun _ => Keeps π) (fun _ => Keeps π) := hπ.calm.walk

end Blind

/-! ## Every opcode -/

/-- The opcodes that set `PC`. -/
def OpCode.setsPc : OpCode → Bool
  | stop | push _ | jump | jumpi => true
  | _ => false

/-- The opcodes that write memory. -/
def OpCode.writesMem : OpCode → Bool
  | mstore | mstore8 | calldatacopy | codecopy => true
  | _ => false

/-- The opcodes that may raise the high-water mark of memory. -/
def OpCode.notesMem : OpCode → Bool
  | mstore | calldatacopy | codecopy => true
  | _ => false

/-- The frame of every opcode, for a part of the machine that may look at the counters. -/
theorem decode_calm {τ : Type} {π : Vm → τ} (hπ : Calm π) {b : UInt8} (c : Code)
    (hmem : (OpCode.ofByte b).writesMem = true → ∀ (s : Vm) mem, π { s with mem := mem } = π s)
    (hnote : (OpCode.ofByte b).notesMem = true →
      ∀ (s : Vm) n, π { s with maxMemOffset := n } = π s)
    (hcount : OpCode.ofByte b = .sstore →
      ∀ (s : Vm) n, π { s with maxStorageCounter := n } = π s)
    (hstorage : OpCode.ofByte b = .sstore →
      ∀ (s : Vm) storage, π { s with storage := storage } = π s)
    (hlength : OpCode.ofByte b = .ret → ∀ (s : Vm) n, π { s with deployLength := n } = π s)
    (hdeployed : OpCode.ofByte b = .ret → ∀ (s : Vm) f, π { s with deployedContract := f } = π s)
    (hpc : (OpCode.ofByte b).setsPc = true → ∀ (s : Vm) pc, π { s with pc := pc } = π s) :
    Keeps π (decodeInstruction b c) := by
  have hw := hπ.walk
  have hnoteMem : (OpCode.ofByte b).notesMem = true → ∀ f : Nat → Nat, Keeps π
      (modify fun s => { s with maxMemOffset := f s.maxMemOffset } : VmM PUnit) :=
    fun hop f => Keeps.update fun s => hnote hop s _
  by_cases hcomputes : (OpCode.ofByte b).computes = true
  · exact decode_computes hw c hcomputes
  · unfold decodeInstruction
    cases hop : OpCode.ofByte b with
    | stop => exact hπ.opStop (hpc (by rw [hop]; rfl))
    | push n =>
      exact hw.opPush c (Blind.nextByte (hpc (by rw [hop]; rfl)) c) _ (hπ.pushImmediate _)
    | jump => exact hw.opJump fun f => Keeps.update fun s => hpc (by rw [hop]; rfl) s _
    | jumpi => exact hw.opJumpi fun f => Keeps.update fun s => hpc (by rw [hop]; rfl) s _
    | sha3 => exact hw.opSha3 (fun _ => Keeps.throw π _) (fun s => hπ.frames s _) Blind.memBlock
    | calldatacopy =>
      exact hw.opCalldatacopy (Blind.setMemBlock (hmem (by rw [hop]; rfl)))
        (hnoteMem (by rw [hop]; rfl)) c (Blind.codeBlock c)
    | codecopy =>
      exact hw.opCodecopy (Blind.setMemBlock (hmem (by rw [hop]; rfl)))
        (hnoteMem (by rw [hop]; rfl)) c (Blind.codeAt c) (Blind.codeBlock c)
    | mload => exact hw.opMload Blind.memBlock
    | mstore =>
      exact hw.opMstore (Blind.setMemBlock (hmem (by rw [hop]; rfl))) (hnoteMem (by rw [hop]; rfl))
    | mstore8 => exact hw.opMstore8 (Blind.setMemBlock (hmem (by rw [hop]; rfl)))
    | sload =>
      exact hw.opSload (fun hf => (Keeps.get π).bind fun s => hf s.storage) fun _ => Keeps.throw π _
    | sstore =>
      exact hw.opSstore (Keeps.update fun s => hcount hop s _)
        (fun _ _ => Keeps.update fun s => hstorage hop s _) fun _ => Keeps.throw π _
    | ret =>
      exact hw.opReturn Blind.memBlock (fun _ => Keeps.update fun s => hlength hop s _)
        (fun _ _ => Keeps.update fun s => hdeployed hop s _) fun _ => Keeps.throw π _
    | revert => exact hw.opRevert Blind.memBlock
    | _ => exact absurd (by rw [hop]; rfl) hcomputes

/-- **The frame of every opcode.** A part of the machine that does not look at what
the opcode writes is kept. -/
theorem decode_frame {τ : Type} {π : Vm → τ} (hπ : Blind π) {b : UInt8} (c : Code)
    (hmem : (OpCode.ofByte b).writesMem = true → ∀ (s : Vm) mem, π { s with mem := mem } = π s)
    (hstorage : OpCode.ofByte b = .sstore →
      ∀ (s : Vm) storage, π { s with storage := storage } = π s)
    (hlength : OpCode.ofByte b = .ret → ∀ (s : Vm) n, π { s with deployLength := n } = π s)
    (hdeployed : OpCode.ofByte b = .ret → ∀ (s : Vm) f, π { s with deployedContract := f } = π s)
    (hpc : (OpCode.ofByte b).setsPc = true → ∀ (s : Vm) pc, π { s with pc := pc } = π s) :
    Keeps π (decodeInstruction b c) :=
  decode_calm hπ.calm c hmem (fun _ => hπ.maxMemOffset) (fun _ => hπ.maxStorageCounter) hstorage
    hlength hdeployed hpc

/-- **The frame of the opcodes that leave `PC` alone.** -/
theorem decode_keeps {τ : Type} {π : Vm → τ} (hπ : Blind π)
    (hmem : ∀ (s : Vm) mem, π { s with mem := mem } = π s)
    (hstorage : ∀ (s : Vm) storage, π { s with storage := storage } = π s)
    (hlength : ∀ (s : Vm) n, π { s with deployLength := n } = π s)
    (hdeployed : ∀ (s : Vm) f, π { s with deployedContract := f } = π s) {b : UInt8} (c : Code)
    (hpc : (OpCode.ofByte b).setsPc = false) : Keeps π (decodeInstruction b c) := by
  refine decode_frame hπ c (fun _ => hmem) (fun _ => hstorage) (fun _ => hlength)
    (fun _ => hdeployed) ?_
  intro hsets
  rw [hpc] at hsets
  cases hsets

theorem decode_pc {b : UInt8} {c : Code} {s s' : Vm} {status : Int}
    (hpc : (OpCode.ofByte b).setsPc = false) (hrun : decodeInstruction b c s = .ok status s') :
    s'.pc = s.pc :=
  (decode_keeps blind_pc (fun _ _ => rfl) (fun _ _ => rfl) (fun _ _ => rfl) (fun _ _ => rfl) c
    hpc).ok hrun

/-! ## The frame law -/

theorem decode_message {b : UInt8} {c : Code} : Keeps (·.message) (decodeInstruction b c) :=
  decode_frame blind_message c (fun _ _ _ => rfl) (fun _ _ _ => rfl) (fun _ _ _ => rfl)
    (fun _ _ _ => rfl) (fun _ _ _ => rfl)

theorem decode_storage {b : UInt8} {c : Code} (hop : OpCode.ofByte b ≠ .sstore) :
    Keeps (·.storage) (decodeInstruction b c) :=
  decode_frame blind_storage c (fun _ _ _ => rfl) (fun h => absurd h hop) (fun _ _ _ => rfl)
    (fun _ _ _ => rfl) (fun _ _ _ => rfl)

theorem decode_mem {b : UInt8} {c : Code} (hop : (OpCode.ofByte b).writesMem = false) :
    Keeps (·.mem) (decodeInstruction b c) := by
  refine decode_frame blind_mem c ?_ (fun _ _ _ => rfl) (fun _ _ _ => rfl) (fun _ _ _ => rfl)
    (fun _ _ _ => rfl)
  intro hwrites
  rw [hop] at hwrites
  cases hwrites

theorem decode_deployed {b : UInt8} {c : Code} (hop : OpCode.ofByte b ≠ .ret) :
    Keeps (fun s => (s.deployedContract, s.deployLength)) (decodeInstruction b c) :=
  decode_frame blind_deployed c (fun _ _ _ => rfl) (fun _ _ _ => rfl) (fun h => absurd h hop)
    (fun h => absurd h hop) (fun _ _ _ => rfl)

/-- `SSTORE` changes at most the slot its key names. -/
theorem opSstore_storage {s s' : Vm} {status : Int} (hrun : opSstore s = .ok status s') :
    ∃ k : Fin storageSpace, ∀ i, i ≠ k → s'.storage i = s.storage i := by
  unfold opSstore at hrun
  obtain ⟨key, s₁, h₁, hrun⟩ := bind_eq_ok.mp hrun
  obtain ⟨value, s₂, h₂, hrun⟩ := bind_eq_ok.mp hrun
  have hkept : s₂.storage = s.storage := (blind_storage.offStack.pop.ok h₂).trans (blind_storage.walk.popLow.ok h₁)
  obtain ⟨_, s₃, h₃, hrun⟩ := bind_eq_ok.mp hrun
  cases h₃
  split at hrun
  · cases hrun
    exact ⟨⟨0, by decide⟩, fun i _ => congrFun hkept i⟩
  · split at hrun
    next hkey =>
      cases hrun
      refine ⟨⟨key.toNat, hkey⟩, fun i hi => ?_⟩
      exact (if_neg hi).trans (congrFun hkept i)
    next => cases hrun

/-- No opcode writes a slot below its operand window. -/
theorem decode_window {b : UInt8} {c : Code} {s s' : Vm} {status : Int}
    (hrun : decodeInstruction b c s = .ok status s') {i : Int}
    (hi : i ≤ s.sp - (OpCode.ofByte b).arity) : s'.slot i = s.slot i := by
  by_cases hstop : OpCode.ofByte b = .stop
  · rw [decode_stop hstop] at hrun
    cases hrun
    rfl
  · have hwindow := (decode_footprint c hstop).window s
    rw [hrun, after_ok] at hwindow
    exact hwindow.stack i hi

/-- **Frame law.** What an instruction that returns may have changed, by opcode. It
holds from every machine: neither missing operands nor a full stack matter. -/
theorem frame_law {b : UInt8} {c : Code} {s s' : Vm} {status : Int}
    (hrun : decodeInstruction b c s = .ok status s') :
    s'.message = s.message ∧
    (OpCode.ofByte b ≠ .sstore → s'.storage = s.storage) ∧
    (∃ k : Fin storageSpace, ∀ i, i ≠ k → s'.storage i = s.storage i) ∧
    ((OpCode.ofByte b).writesMem = false → s'.mem = s.mem) ∧
    (OpCode.ofByte b ≠ .ret →
      s'.deployedContract = s.deployedContract ∧ s'.deployLength = s.deployLength) ∧
    ((OpCode.ofByte b).setsPc = false → s'.pc = s.pc) ∧
    ∀ i : Int, i ≤ s.sp - (OpCode.ofByte b).arity → s'.slot i = s.slot i := by
  refine ⟨decode_message.ok hrun, fun hop => (decode_storage hop).ok hrun, ?_,
    fun hop => (decode_mem hop).ok hrun, ?_, fun hop => decode_pc hop hrun,
    fun i hi => decode_window hrun hi⟩
  · by_cases hop : OpCode.ofByte b = .sstore
    · unfold decodeInstruction at hrun
      rw [hop] at hrun
      exact opSstore_storage hrun
    · refine ⟨⟨0, by decide⟩, fun i _ => ?_⟩
      exact congrFun ((decode_storage hop).ok hrun) i
  · intro hop
    have hkept := (decode_deployed hop).ok hrun
    exact ⟨congrArg Prod.fst hkept, congrArg Prod.snd hkept⟩

/-- `ADD` on two operands keeps storage and the slot below them. -/
theorem frame_law_add : ∃ s', decodeInstruction 0x01 ⟨[0x01], by decide⟩ { Vm.zeroed with sp := 3 }
      = .ok 0 s' ∧ s'.storage = Vm.zeroed.storage ∧ s'.slot 1 = Vm.zeroed.slot 1 := by
  have hlaw := frame_law (b := 0x01) (c := ⟨[0x01], by decide⟩) (s := { Vm.zeroed with sp := 3 }) rfl
  exact ⟨_, rfl, hlaw.2.1 (by decide), hlaw.2.2.2.2.2.2 1 (by decide)⟩

end TinyEvm
