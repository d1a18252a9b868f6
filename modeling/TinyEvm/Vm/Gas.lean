import TinyEvm.Vm.Execute
import TinyEvm.Vm.Frame
import TinyEvm.Vm.Push

/-!
# Gas and termination

`GAS_Charge` is the only thing that can stop a loop in a contract. Between two
loop heads it grows by exactly what the opcode charges (`again_gas`), it never
wraps there, and it is at most `GAS_LIMIT` wherever a further instruction is
decoded. So an endless run has to come back, at the same position, without having
paid: `endless_iff` is the pigeonhole over the positions of the code.

The charge is the last thing an opcode does, so an instruction that faults has not
charged (`decode_uncharged`), and `gas_never_wraps` puts the pieces together: along
every run the counter only grows, up to `GAS_LIMIT` and one charge, and no addition
to it wraps. `shutdown_machine` resets it, but only the first round can decode `STOP`.

Many opcodes forget to charge, `JUMP`, `JUMPI`, `JUMPDEST`, `DUP` and `SWAP` among
them, and they are enough for a loop: `spin_endless`. A run that leaves one of its arrays
is over with that fault, so what it may have written over, the counter perhaps, is not
followed.
-/

namespace TinyEvm

open Lib.BigEndian Lib.Exec Lib.Loop

/-! ## The charge of a round -/

/-- An opcode that lets the run go on has charged its gas. -/
theorem outcome_gas {op : OpCode} {status : Int} {d : UInt32} (h : op.outcome status = some d)
    (hret : status ≠ returnStatus) (hneg : 0 ≤ status) : d = op.gas := by
  have hexits : ∀ ends : List Int, (∀ x ∈ ends, x = returnStatus ∨ x < 0) →
      exits ends status = none := by
    intro ends hends
    unfold exits
    refine if_neg fun hmem => ?_
    rcases hends status hmem with heq | hlt
    · exact hret heq
    · omega
  have hpaying : ∀ (gas : UInt32) (ends : List Int), (∀ x ∈ ends, x = returnStatus ∨ x < 0) →
      paying gas ends status = some d → d = gas := by
    intro gas ends hends hpay
    unfold paying at hpay
    split at hpay
    · exact (Option.some.inj hpay).symm
    · rw [hexits ends hends] at hpay
      cases hpay
  cases op with
  | ret =>
    have hnone : exits [returnStatus] status = none := hexits _ (by simp)
    exact absurd (hnone.symm.trans h) (by simp)
  | unsupported =>
    have hnone : exits [-1] status = none := hexits _ (by simp)
    exact absurd (hnone.symm.trans h) (by simp)
  | revert => exact hpaying 3 [returnStatus] (by simp) h
  | sha3 => exact hpaying 0 [-1] (by simp) h
  | push n => exact hpaying 2 [-1] (by simp) h
  | _ => exact hpaying _ [] (by simp) h

theorem OpCode.gas_le (op : OpCode) : op.gas.toNat ≤ 20000 := by
  cases op <;> simp [OpCode.gas]

/-- The charge for any status is one of the prices. -/
theorem outcome_le {op : OpCode} {status : Int} {d : UInt32} (h : op.outcome status = some d) :
    d.toNat ≤ 20000 := by
  have hexits : ∀ ends, exits ends status = some d → d.toNat ≤ 20000 := by
    intro ends hd
    unfold exits at hd
    split at hd
    · obtain rfl := Option.some.inj hd
      decide
    · cases hd
  have hpaying : ∀ (gas : UInt32) (ends : List Int), gas.toNat ≤ 20000 →
      paying gas ends status = some d → d.toNat ≤ 20000 := by
    intro gas ends hgas hd
    unfold paying at hd
    split at hd
    · obtain rfl := Option.some.inj hd
      exact hgas
    · exact hexits ends hd
  cases op with
  | ret => exact hexits _ h
  | unsupported => exact hexits _ h
  | revert => exact hpaying _ _ (OpCode.gas_le .revert) h
  | sha3 => exact hpaying _ _ (OpCode.gas_le .sha3) h
  | push n => exact hpaying _ _ (OpCode.gas_le (.push n)) h
  | _ => exact hpaying _ _ (OpCode.gas_le _) h

/-- An instruction is decoded on a counter within the limit. -/
theorem Decodes.gas_le {c : Code} {size : UInt32} {s : Vm} {b : UInt8} (hb : Decodes c size s b) :
    s.gasCharge.toNat ≤ gasLimit.toNat := by
  have hle := hb.paid
  rw [gt_iff_lt, UInt32.lt_iff_toNat_lt] at hle
  omega

/-- **From one loop head to the next** the counter grows by the charge of the
opcode, without wrapping. -/
theorem again_gas {c : Code} {s s' : Vm} {b : UInt8} (h : Again (executeRound c c.sizeof) s s')
    (hb : Decodes c c.sizeof s b) (hb0 : OpCode.ofByte b ≠ .stop) :
    s'.gasCharge.toNat = s.gasCharge.toNat + (OpCode.ofByte b).gas.toNat := by
  obtain ⟨b', status, s₁, -, hb', hrun, hret, hneg, rfl, -, -⟩ := again_cases h
  obtain rfl : b = b' := by
    have heq := hb.byte.symm.trans hb'.byte
    exact Option.some.inj heq
  obtain ⟨-, d, hd, hgas⟩ := (decode_footprint c hb0).ok s status s₁ hrun
  rw [outcome_gas hd hret hneg] at hgas
  have hpaid := hb.gas_le
  have hlimit : gasLimit.toNat = 16000000 := rfl
  have hsmall := (OpCode.ofByte b).gas_le
  show s₁.gasCharge.toNat = _
  rw [hgas, UInt32.toNat_add]
  omega

/-! ## A fault has charged nothing -/

/-- A fault of `x` leaves the counter as it was. -/
def Uncharged {α : Type} (x : VmM α) : Prop :=
  ∀ s f s', x s = .error f s' → s'.gasCharge = s.gasCharge

theorem Uncharged.of_keeps {α : Type} {x : VmM α} (h : Keeps (·.gasCharge) x) : Uncharged x := by
  intro s f s' hrun
  have hs := h s
  rw [hrun] at hs
  exact hs

/-- What comes before the last command must not charge at all. -/
theorem Uncharged.bind {α β : Type} {x : VmM α} {f : α → VmM β} (hx : Keeps (·.gasCharge) x)
    (hf : ∀ a, Uncharged (f a)) : Uncharged (x >>= f) := by
  intro s e s'' hrun
  cases hr : x s with
  | ok a s' =>
    rw [bind_ok hr] at hrun
    exact (hf a s' e s'' hrun).trans (hx.ok hr)
  | error e' s' =>
    rw [bind_error hr] at hrun
    cases hrun
    exact of_keeps hx s e s'' hr

theorem offStack_gasCharge : OffStack (fun s => s.gasCharge) :=
  ⟨fun _ _ => rfl, fun _ _ => rfl, fun _ _ => rfl⟩

/-- Nothing but the charge at the end of an opcode moves the counter. -/
theorem walk_uncharged : Walk (fun _ => Keeps (·.gasCharge)) (fun _ => Uncharged) where
  last := Uncharged.of_keeps
  value := Keeps.pure _
  endless _ := Keeps.throw _ _
  null _ := Keeps.throw _ _
  data _ _ := Keeps.throw _ _
  seq := Keeps.bind
  bind := Uncharged.bind
  pop := offStack_gasCharge.pop
  push := offStack_gasCharge.push
  paid gas := by
    intro s f s' hrun
    cases hrun
  message hf := Uncharged.bind (Keeps.get _) fun s => hf s.message
  timestamp := Uncharged.of_keeps (offStack_gasCharge.opTimestamp fun _ _ => rfl)
  dup n := Uncharged.of_keeps (offStack_gasCharge.opDup n)
  swap n := Uncharged.of_keeps (offStack_gasCharge.opSwap n)

theorem pushImmediate_uncharged (n : Nat) (read : VmM Uint256)
    (hread : Keeps (·.gasCharge) read) : Uncharged (pushImmediate n read) := by
  intro s f s' hrun
  unfold pushImmediate at hrun
  rw [get_bind] at hrun
  split at hrun
  · cases hrun
  · exact Uncharged.bind hread (fun w => Uncharged.bind (offStack_gasCharge.setStackAt _ w)
      fun _ => walk_uncharged.paid _) { s with sp := s.sp + 1 } f s' hrun

/-- **An instruction that faults has not charged.** -/
theorem decode_uncharged (b : UInt8) (c : Code) : Uncharged (decodeInstruction b c) := by
  have hw := walk_uncharged
  have hset : ∀ off len bytes, Keeps (fun s : Vm => s.gasCharge) (setMemBlock off len bytes) :=
    Blind.setMemBlock fun _ _ => rfl
  have hnote : ∀ f : Nat → Nat, Keeps (fun s : Vm => s.gasCharge)
      (modify fun s => { s with maxMemOffset := f s.maxMemOffset } : VmM PUnit) :=
    fun _ => Keeps.update fun _ => rfl
  by_cases hcomputes : (OpCode.ofByte b).computes = true
  · exact decode_computes hw c hcomputes
  · unfold decodeInstruction
    cases hop : OpCode.ofByte b with
    | stop =>
      intro s f s' hrun
      cases hrun
    | push n =>
      exact hw.opPush c (Blind.nextByte (fun _ _ => rfl) c) _ (pushImmediate_uncharged _)
    | jump => exact hw.opJump fun f => Keeps.update fun _ => rfl
    | jumpi => exact hw.opJumpi fun f => Keeps.update fun _ => rfl
    | sha3 => exact hw.opSha3 (fun _ => Keeps.throw _ _) (fun _ => rfl) Blind.memBlock
    | calldatacopy => exact hw.opCalldatacopy hset hnote c (Blind.codeBlock c)
    | codecopy => exact hw.opCodecopy hset hnote c (Blind.codeAt c) (Blind.codeBlock c)
    | mload => exact hw.opMload Blind.memBlock
    | mstore => exact hw.opMstore hset hnote
    | mstore8 => exact hw.opMstore8 hset
    | sload =>
      exact hw.opSload (fun hf => Uncharged.bind (Keeps.get _) fun s => hf s.storage)
        fun _ => Keeps.throw _ _
    | sstore =>
      exact hw.opSstore (Keeps.update fun _ => rfl) (fun _ _ => Keeps.update fun _ => rfl)
        fun _ => Keeps.throw _ _
    | ret =>
      exact hw.opReturn Blind.memBlock (fun _ => Keeps.update fun _ => rfl)
        (fun _ _ => Keeps.update fun _ => rfl) fun _ => Keeps.throw _ _
    | revert => exact hw.opRevert Blind.memBlock
    | _ => exact absurd (by rw [hop]; rfl) hcomputes

/-! ## The counter along a run -/

/-- The look at the byte behind an instruction keeps the loop from decoding `STOP`. -/
theorem again_not_stop {c : Code} {s s' : Vm} {b : UInt8}
    (h : Again (executeRound c c.sizeof) s s') (hb : Decodes c c.sizeof s' b) :
    OpCode.ofByte b ≠ .stop := by
  intro hop
  obtain ⟨-, -, -, b', -, -, -, -, -, hb', hne⟩ := again_cases h
  have heq : b = b' := Option.some.inj (hb.byte.symm.trans hb')
  exact hne (heq ▸ OpCode.ofByte_eq_stop hop)

/-- A head is the first one, with the counter at zero, or does not stand at `STOP`. -/
theorem head_stop {c : Code} {vm s : Vm}
    (hreach : Reaches (executeRound c c.sizeof) (after (initMachine vm)) s) {b : UInt8}
    (hb : Decodes c c.sizeof s b) : OpCode.ofByte b ≠ .stop ∨ s.gasCharge = 0 := by
  rcases Relation.ReflTransGen.cases_tail hreach with heq | ⟨s₁, -, hlast⟩
  · right
    rw [heq]
    rfl
  · exact Or.inl (again_not_stop hlast hb)

/-- What an instruction decoded at a head of a run adds to the counter, as a number. -/
theorem decode_gas {c : Code} {vm s s₁ : Vm} {b : UInt8} {status : Int}
    (hreach : Reaches (executeRound c c.sizeof) (after (initMachine vm)) s)
    (hb : Decodes c c.sizeof s b) (hrun : decodeInstruction b c s = .ok status s₁) :
    ∃ gas, (OpCode.ofByte b).outcome status = some gas ∧
      s₁.gasCharge.toNat = s.gasCharge.toNat + gas.toNat := by
  by_cases hop : OpCode.ofByte b = .stop
  · have hzero : s.gasCharge = 0 := (head_stop hreach hb).resolve_left (fun h => h hop)
    rw [decode_stop hop] at hrun
    cases hrun
    refine ⟨0, by rw [hop]; rfl, ?_⟩
    show (0 : UInt32).toNat = _
    rw [hzero]
    rfl
  · obtain ⟨-, d, hd, hgas⟩ := (decode_footprint c hop).ok s status s₁ hrun
    refine ⟨d, hd, ?_⟩
    have hpaid := hb.gas_le
    have hlimit : gasLimit.toNat = 16000000 := rfl
    have hsmall := outcome_le hd
    rw [hgas, UInt32.toNat_add]
    omega

theorem again_gas_mono {c : Code} {vm s s' : Vm}
    (hreach : Reaches (executeRound c c.sizeof) (after (initMachine vm)) s)
    (h : Again (executeRound c c.sizeof) s s') :
    s.gasCharge.toNat ≤ s'.gasCharge.toNat ∧ s'.gasCharge.toNat ≤ gasLimit.toNat + 20000 := by
  obtain ⟨b, status, s₁, -, hb, hrun, -, -, rfl, -, -⟩ := again_cases h
  obtain ⟨gas, hgas, heq⟩ := decode_gas hreach hb hrun
  have hsmall := outcome_le hgas
  have hpaid := hb.gas_le
  show s.gasCharge.toNat ≤ s₁.gasCharge.toNat ∧ s₁.gasCharge.toNat ≤ _
  omega

/-- **Gas never wraps.** At every loop head of every run the counter is at most
`GAS_LIMIT + 20000`, the next head does not have less, and an instruction decoded
there adds its charge as a number (or nothing, when it faults). -/
theorem gas_never_wraps {c : Code} {vm s : Vm}
    (hreach : Reaches (executeRound c c.sizeof) (after (initMachine vm)) s) :
    s.gasCharge.toNat ≤ gasLimit.toNat + 20000 ∧
    (∀ s', Again (executeRound c c.sizeof) s s' → s.gasCharge ≤ s'.gasCharge) ∧
    ∀ b, Decodes c c.sizeof s b →
      (∀ status s₁, decodeInstruction b c s = .ok status s₁ →
        ∃ gas, (OpCode.ofByte b).outcome status = some gas ∧
          s.gasCharge.toNat + gas.toNat < 2 ^ 32 ∧ s₁.gasCharge = s.gasCharge + gas) ∧
      ∀ f s₁, decodeInstruction b c s = .error f s₁ → s₁.gasCharge = s.gasCharge := by
  refine ⟨?_, ?_, ?_⟩
  · rcases Relation.ReflTransGen.cases_tail hreach with heq | ⟨s₁, hbefore, hlast⟩
    · rw [heq]
      exact Nat.zero_le _
    · exact (again_gas_mono hbefore hlast).2
  · intro s' hagain
    exact UInt32.le_iff_toNat_le.mpr (again_gas_mono hreach hagain).1
  · intro b hb
    refine ⟨?_, fun f s₁ hfault => decode_uncharged b c s f s₁ hfault⟩
    intro status s₁ hrun
    obtain ⟨gas, hgas, heq⟩ := decode_gas hreach hb hrun
    have hbound := UInt32.toNat_lt s₁.gasCharge
    refine ⟨gas, hgas, by omega, UInt32.toNat_inj.mp ?_⟩
    rw [UInt32.toNat_add, heq]
    exact (Nat.mod_eq_of_lt (by omega)).symm

/-- `PUSH1 5 PUSH1 64 SSTORE STOP`: two charges, and a store behind `STORAGE`. -/
def strayStore : Code := ⟨[0x60, 0x05, 0x60, 0x40, 0x55, 0x00], by decide⟩

/-- The head of its run behind `n` rounds. -/
def strayHead (n : Nat) : Vm :=
  afterRounds (executeRound strayStore strayStore.sizeof) n (after (initMachine Vm.zeroed))

/-- The second `PUSH1` charges at a head that has paid already, and the `SSTORE` behind it
faults without a charge. -/
theorem gas_never_wraps_strayStore :
    ((strayHead 1).gasCharge = 2 ∧ (strayHead 1).gasCharge.toNat ≤ gasLimit.toNat + 20000 ∧
      (strayHead 1).gasCharge ≤ (strayHead 2).gasCharge ∧
      ∃ gas, (OpCode.ofByte 0x60).outcome 0 = some gas ∧
        (strayHead 1).gasCharge.toNat + gas.toNat < 2 ^ 32 ∧
        (after (decodeInstruction 0x60 strayStore (strayHead 1))).gasCharge
          = (strayHead 1).gasCharge + gas) ∧
    ((strayHead 2).gasCharge = 4 ∧ (strayHead 2).gasCharge.toNat ≤ gasLimit.toNat + 20000 ∧
      (after (decodeInstruction 0x55 strayStore (strayHead 2))).gasCharge
        = (strayHead 2).gasCharge) := by
  have hone : Reaches (executeRound strayStore strayStore.sizeof) (after (initMachine Vm.zeroed))
      (strayHead 1) := reaches_of_goesOn 1 (by decide)
  have htwo : Reaches (executeRound strayStore strayStore.sizeof) (after (initMachine Vm.zeroed))
      (strayHead 2) := reaches_of_goesOn 2 (by decide)
  have hagain : Again (executeRound strayStore strayStore.sizeof) (strayHead 1) (strayHead 2) := rfl
  have hpush : Decodes strayStore strayStore.sizeof (strayHead 1) 0x60 :=
    ⟨by decide, by decide, rfl⟩
  have hstore : Decodes strayStore strayStore.sizeof (strayHead 2) 0x55 :=
    ⟨by decide, by decide, rfl⟩
  obtain ⟨hlimit, hgrows, hcharge⟩ := gas_never_wraps hone
  obtain ⟨hlimit', -, hcharge'⟩ := gas_never_wraps htwo
  exact ⟨⟨rfl, hlimit, hgrows _ hagain, (hcharge 0x60 hpush).1 0 _ rfl⟩,
    ⟨rfl, hlimit', (hcharge' 0x55 hstore).2 _ _ rfl⟩⟩

/-! ## Endless runs -/

/-- A round that goes on and leaves the counter as it was. -/
def FreeRound (c : Code) (s s' : Vm) : Prop :=
  Again (executeRound c c.sizeof) s s' ∧ ∃ b, Decodes c c.sizeof s b ∧ (OpCode.ofByte b).gas = 0

/-- An endless sequence of rounds from `s` that all leave the counter as it was. -/
def FreeForever (c : Code) (s : Vm) : Prop :=
  ∃ head : Nat → Vm, head 0 = s ∧ ∀ n, FreeRound c (head n) (head (n + 1))

/-- The run from `vm` never comes back to a position through free rounds alone:
every cycle has an opcode that charges. -/
def CyclesPay (c : Code) (vm : Vm) : Prop :=
  ∀ s s', Reaches (executeRound c c.sizeof) (after (initMachine vm)) s →
    Relation.TransGen (FreeRound c) s s' → s'.pc ≠ s.pc

/-- An endless run without a `STOP` stops paying. -/
theorem freeForever_of_endless {c : Code} {head : Nat → Vm}
    (hrun : ∀ n, Again (executeRound c c.sizeof) (head n) (head (n + 1)))
    (hstop : ∀ n b, Decodes c c.sizeof (head n) b → OpCode.ofByte b ≠ .stop) :
    ∃ N, FreeForever c (head N) := by
  have hstep : ∀ n, ∃ b, Decodes c c.sizeof (head n) b ∧ (head (n + 1)).gasCharge.toNat
      = (head n).gasCharge.toNat + (OpCode.ofByte b).gas.toNat := by
    intro n
    obtain ⟨b, -, -, -, hb, -⟩ := again_cases (hrun n)
    exact ⟨b, hb, again_gas (hrun n) hb (hstop n b hb)⟩
  have hmono : Monotone fun n => (head n).gasCharge.toNat := by
    refine monotone_nat_of_le_succ fun n => ?_
    obtain ⟨b, -, heq⟩ := hstep n
    omega
  obtain ⟨N, hstill⟩ := eventually_still hmono fun n => Nat.le_of_lt (UInt32.toNat_lt _)
  refine ⟨N, fun n => head (N + n), rfl, ?_⟩
  intro n
  obtain ⟨b, hb, heq⟩ := hstep (N + n)
  have h1 := hstill (N + n) (by omega)
  have h2 := hstill (N + n + 1) (by omega)
  refine ⟨hrun (N + n), b, hb, UInt32.toNat_inj.mp ?_⟩
  show _ = 0
  omega

/-- **Termination.** A run is endless exactly when from some head on it decodes
only opcodes that charge nothing; it is finite as soon as every cycle charges. -/
theorem endless_iff (c : Code) (vm : Vm) :
    (Endless (executeRound c c.sizeof) (after (initMachine vm)) ↔
      ∃ s, Reaches (executeRound c c.sizeof) (after (initMachine vm)) s ∧ FreeForever c s) ∧
    (CyclesPay c vm → ¬Endless (executeRound c c.sizeof) (after (initMachine vm))) := by
  have hfree : Endless (executeRound c c.sizeof) (after (initMachine vm)) →
      ∃ s, Reaches (executeRound c c.sizeof) (after (initMachine vm)) s ∧ FreeForever c s := by
    intro hendless
    obtain ⟨head, hzero, hrun⟩ := hendless
    -- the first head is left out: only there can `STOP` be decoded
    have hstop : ∀ n b, Decodes c c.sizeof (head (n + 1)) b → OpCode.ofByte b ≠ .stop :=
      fun n b hb => again_not_stop (hrun n) hb
    obtain ⟨N, hN⟩ := freeForever_of_endless (fun n => hrun (n + 1)) hstop
    refine ⟨head (N + 1), ?_, hN⟩
    rw [← hzero]
    exact reaches_head hrun (N + 1)
  refine ⟨⟨hfree, ?_⟩, ?_⟩
  · intro hhead
    obtain ⟨s, hreach, head, hzero, hrun⟩ := hhead
    exact Endless.of_reaches hreach ⟨head, hzero, fun n => (hrun n).1⟩
  · intro hpay hendless
    obtain ⟨s, hreach, head, hzero, hrun⟩ := hfree hendless
    obtain ⟨i, j, hcycle, hpc⟩ :=
      exists_return (fun s : Vm => (⟨s.pc.toNat, s.pc.toNat_lt⟩ : Fin (2 ^ 32))) hrun
    have hhead : Reaches (executeRound c c.sizeof) (head 0) (head i) :=
      reaches_head (fun n => (hrun n).1) i
    rw [hzero] at hhead
    refine hpay _ _ (hreach.trans hhead) hcycle (UInt32.toNat_inj.mp ?_)
    exact (congrArg Fin.val hpc).symm

/-- `JUMPDEST PUSH1 0 JUMP JUMPDEST`: the jump goes back to `PUSH1`, which charges. -/
def payLoop : Code := ⟨[0x5b, 0x60, 0x00, 0x56, 0x5b], by decide⟩

/-- The heads of `payLoop`: the first one, and the two of its loop. -/
def InPayLoop (s : Vm) : Prop :=
  (s.pc = 0 ∧ s.sp = 0) ∨ (s.pc = 1 ∧ s.sp = 0) ∨ (s.pc = 3 ∧ s.sp = 1 ∧ s.slot 1 = clear256)

/-- Its `PUSH1` pushes zero. -/
theorem payLoop_push {s : Vm} (hpc : s.pc = 1) (hsp : s.sp = 0) :
    decodeInstruction 0x60 payLoop s = .ok 0 (s.afterPush 1 clear256) := by
  have hin : s.pc.toNat + 1 < payLoop.size := by
    rw [hpc]
    decide
  have hword : clear256 = pushWord (beNat (payLoop.immediate s.pc) 1) := by
    rw [hpc]
    decide
  rw [hword]
  exact opPush_ok (by decide) (by decide) hin (by rw [hsp]; decide) (by rw [hsp]; decide)

/-- A round of `payLoop` comes to a head of it, and one without a charge comes to `PUSH1`
from another. -/
theorem payLoop_again {s s' : Vm} (hs : InPayLoop s)
    (h : Again (executeRound payLoop payLoop.sizeof) s s') :
    InPayLoop s' ∧ (FreeRound payLoop s s' → s.pc ≠ 1 ∧ s'.pc = 1) := by
  obtain ⟨b, status, s₁, -, hb, hrun, -, -, rfl, -, -⟩ := again_cases h
  have hbyte := hb.byte
  rcases hs with ⟨hpc, hsp⟩ | ⟨hpc, hsp⟩ | ⟨hpc, hsp, hslot⟩
  · rw [hpc] at hbyte
    obtain rfl : 0x5b = b := Option.some.inj hbyte
    obtain ⟨-, rfl⟩ := EStateM.Result.ok.inj hrun
    have hnext : s.next.pc = 1 := by
      show s.pc + 1 = 1
      rw [hpc]
      rfl
    refine ⟨Or.inr (Or.inl ⟨hnext, hsp⟩), fun _ => ⟨?_, hnext⟩⟩
    rw [hpc]
    decide
  · rw [hpc] at hbyte
    obtain rfl : 0x60 = b := Option.some.inj hbyte
    obtain ⟨-, rfl⟩ := EStateM.Result.ok.inj ((payLoop_push hpc hsp).symm.trans hrun)
    refine ⟨Or.inr (Or.inr ⟨?_, ?_, ?_⟩), fun hfree => ?_⟩
    · show s.pc + UInt32.ofNat 1 + 1 = 3
      rw [hpc]
      rfl
    · show s.sp + 1 = 1
      rw [hsp]
      rfl
    · exact Vm.slot_pushed_same (s := s) clear256 (by decide) (by rw [hsp]; rfl)
    -- `PUSH1` is not free
    · obtain ⟨-, b', hb', hgas⟩ := hfree
      obtain rfl : (0x60 : UInt8) = b' := Option.some.inj (hb.byte.symm.trans hb'.byte)
      exact absurd hgas (by decide)
  · rw [hpc] at hbyte
    obtain rfl : 0x56 = b := Option.some.inj hbyte
    have hjump : decodeInstruction 0x56 payLoop s = _ := opJump_ok (s := s) (by rw [hsp]; decide)
    obtain ⟨-, rfl⟩ := EStateM.Result.ok.inj (hjump.symm.trans hrun)
    have hnext : (s.slot s.sp).lower.lower.toUInt32 + 1 = 1 := by
      rw [hsp, hslot]
      rfl
    have hlow : s.sp - 1 = 0 := by omega
    refine ⟨Or.inr (Or.inl ⟨hnext, hlow⟩), fun _ => ⟨?_, hnext⟩⟩
    rw [hpc]
    decide

theorem payLoop_heads {s : Vm}
    (h : Reaches (executeRound payLoop payLoop.sizeof) (after (initMachine Vm.zeroed)) s) :
    InPayLoop s := by
  induction h with
  | refl => exact Or.inl ⟨rfl, rfl⟩
  | tail _ hlast ih => exact (payLoop_again ih hlast).1

/-- No round without a charge leaves `PUSH1`, so none of them are a cycle. -/
theorem payLoop_pays : CyclesPay payLoop Vm.zeroed := by
  intro s s' hreach hcycle
  have hs := payLoop_heads hreach
  obtain ⟨s₁, hfirst, hrest⟩ := Relation.TransGen.head'_iff.mp hcycle
  obtain ⟨hs₁, hone⟩ := payLoop_again hs hfirst.1
  obtain ⟨hne, hpc⟩ := hone hfirst
  rcases Relation.ReflTransGen.cases_head hrest with rfl | ⟨s₂, hsecond, -⟩
  · rw [hpc]
    exact Ne.symm hne
  · exact absurd hpc ((payLoop_again hs₁ hsecond.1).2 hsecond).1

/-- The loop of `payLoop` is gone through, and not for ever. -/
theorem endless_iff_payLoop :
    goesOn (executeRound payLoop payLoop.sizeof) 6 (after (initMachine Vm.zeroed)) = true ∧
    ¬Endless (executeRound payLoop payLoop.sizeof) (after (initMachine Vm.zeroed)) :=
  ⟨by decide +kernel, (endless_iff payLoop Vm.zeroed).2 payLoop_pays⟩

/-- `PUSH1 1 DUP1 JUMP`: the jump goes back to `DUP1`. -/
def spin : Code := ⟨[0x60, 0x01, 0x80, 0x56, 0x5b], by decide⟩

/-- The two heads of the loop in `spin`. -/
def Spinning (s : Vm) : Prop :=
  s.gasCharge = 2 ∧ s.slot 1 = lowWord 1 ∧
    ((s.pc = 2 ∧ s.sp = 1) ∨ (s.pc = 3 ∧ s.sp = 2 ∧ s.slot 2 = lowWord 1))

theorem spinning_again {s : Vm} (h : Spinning s) :
    ∃ s', Again (executeRound spin spin.sizeof) s s' ∧ Spinning s' := by
  obtain ⟨hgas, hone, ⟨hpc, hsp⟩ | ⟨hpc, hsp, htwo⟩⟩ := h
  · have hb : Decodes spin spin.sizeof s 0x80 := by
      refine ⟨?_, ?_, ?_⟩
      · rw [hpc]
        decide
      · rw [hgas]
        decide
      · rw [hpc]
        rfl
    have hrun : decodeInstruction 0x80 spin s = _ :=
      opDup_ok (s := s) (n := 0) (by rw [hsp]; decide) (by rw [hsp]; decide)
    refine ⟨_, again_of_decode 0x56 hb hrun ?_ (by decide), hgas, ?_, Or.inr ⟨?_, ?_, ?_⟩⟩
    · show spin.bytes[(s.pc + 1).toNat]? = _
      rw [hpc]
      rfl
    · exact (Vm.slot_pushed_ne _ (show (1 : Int) ≠ s.sp + 1 by omega)).trans hone
    · show s.pc + 1 = 3
      rw [hpc]
      rfl
    · show s.sp + 1 = 2
      omega
    · refine (Vm.slot_pushed_same _ (by decide) (show (2 : Int) = s.sp + 1 by omega)).trans ?_
      rw [hsp]
      exact hone
  · have hb : Decodes spin spin.sizeof s 0x56 := by
      refine ⟨?_, ?_, ?_⟩
      · rw [hpc]
        decide
      · rw [hgas]
        decide
      · rw [hpc]
        rfl
    have hrun : decodeInstruction 0x56 spin s = _ := opJump_ok (s := s) (by rw [hsp]; decide)
    have htarget : (s.slot s.sp).lower.lower.toUInt32 = 1 := by
      rw [hsp, htwo]
      rfl
    refine ⟨_, again_of_decode 0x80 hb hrun ?_ (by decide), hgas, hone, Or.inl ⟨?_, ?_⟩⟩
    · show spin.bytes[((s.slot s.sp).lower.lower.toUInt32 + 1).toNat]? = _
      rw [htarget]
      rfl
    · show (s.slot s.sp).lower.lower.toUInt32 + 1 = 2
      rw [htarget]
      rfl
    · show s.sp - 1 = 1
      omega

/-- **A loop that never pays** hangs the interpreter. -/
theorem spin_endless : Endless (executeRound spin spin.sizeof) (after (initMachine Vm.zeroed)) := by
  have hfirst : Again (executeRound spin spin.sizeof) (after (initMachine Vm.zeroed))
      (after (executeRound spin spin.sizeof (after (initMachine Vm.zeroed)))) := rfl
  have hspin : Spinning (after (executeRound spin spin.sizeof (after (initMachine Vm.zeroed)))) :=
    ⟨rfl, rfl, Or.inl ⟨rfl, rfl⟩⟩
  exact Endless.of_reaches (Relation.ReflTransGen.single hfirst)
    (endless_of_invariant (fun _ h => spinning_again h) hspin)

end TinyEvm
