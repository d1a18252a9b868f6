import TinyEvm.Vm.Decode

/-!
# One walk through the opcodes

Two thirds of the opcodes only compute on the stack: they are built from
`stack_pop`, `stack_push`, the charge at the end, a look at the message, and in
the case of `DUP` and `SWAP` from direct accesses to `STACK`. A property of
commands that these pieces have, and that sequences inherit, holds of all of them
(`decode_computes`).

`Walk Q P` says that of two properties: `Q` is asked of every command that has
another one behind it and `P` of the last one. For most properties the two are
the same; they differ where the end of an opcode, the charge, is special.

The other opcodes touch memory, storage, code, the published contract or `PC`. Each
has a lemma here that asks for the property of just those accesses, so that a
property that fails for some of them still gets the opcodes without them.
-/

namespace TinyEvm

open Lib.Buffer

/-- `PUSHn` is `pushImmediate` of a command made of the byte loops: what these have
and sequences inherit, the command has. -/
theorem opPush_read {Q : (α : Type) → VmM α → Prop} (c : Code) (n : Nat)
    (hvalue : ∀ w : Uint256, Q _ (pure w : VmM Uint256))
    (hseq : ∀ {x : VmM UInt64} {f : UInt64 → VmM Uint256}, Q _ x → (∀ a, Q _ (f a)) → Q _ (x >>= f))
    (hbytes : ∀ k, Q _ (pushBytes c k 0)) :
    ∃ read, opPush c n = pushImmediate n read ∧ Q Uint256 read := by
  unfold opPush
  split
  · exact ⟨_, rfl, hseq (hbytes _) fun _ => hvalue _⟩
  · split
    · exact ⟨_, rfl, hseq (hbytes _) fun _ => hseq (hbytes _) fun _ => hvalue _⟩
    · split
      · exact ⟨_, rfl, hseq (hbytes _) fun _ => hseq (hbytes _) fun _ =>
          hseq (hbytes _) fun _ => hvalue _⟩
      · exact ⟨_, rfl, hseq (hbytes _) fun _ => hseq (hbytes _) fun _ =>
          hseq (hbytes _) fun _ => hseq (hbytes _) fun _ => hvalue _⟩

/-- `P` holds of the pieces of the stack opcodes and of a `Q` command followed by
`P` commands. -/
structure Walk (Q P : (α : Type) → VmM α → Prop) : Prop where
  last : ∀ {α : Type} {x : VmM α}, Q α x → P α x
  value : ∀ {α : Type} (a : α), Q α (pure a)
  endless : ∀ α : Type, Q α (throw .endless)
  null : ∀ α : Type, Q α (throw .null)
  data : ∀ (α : Type) (i : Nat), Q α (throw (.data i))
  seq : ∀ {α β : Type} {x : VmM α} {f : α → VmM β}, Q α x → (∀ a, Q β (f a)) → Q β (x >>= f)
  bind : ∀ {α β : Type} {x : VmM α} {f : α → VmM β}, Q α x → (∀ a, P β (f a)) → P β (x >>= f)
  pop : Q Uint256 stackPop
  push : ∀ w : Uint256, Q Unit (stackPush w)
  paid : ∀ gas : UInt32, P Int (charge gas >>= fun _ => pure 0)
  message : ∀ {f : MessageExt → VmM Int}, (∀ m, P Int (f m)) → P Int (get >>= fun s => f s.message)
  timestamp : P Int opTimestamp
  dup : ∀ n : Nat, P Int (opDup n)
  swap : ∀ n : Nat, P Int (opSwap n)

namespace Walk

variable {Q P : (α : Type) → VmM α → Prop}

theorem ite {α : Type} {c : Prop} [Decidable c] {x y : VmM α} (hx : P α x) (hy : P α y) :
    P α (if c then x else y) := by
  split
  · exact hx
  · exact hy

theorem unpaid (hw : Walk Q P) (status : Int) : P Int (pure status) := hw.last (hw.value status)

theorem popLow (hw : Walk Q P) : Q UInt64 stackPopLow := hw.seq hw.pop fun _ => hw.value _

/-- The end of an opcode that pushes its result and forgets to charge. -/
theorem pushed (hw : Walk Q P) (w : Uint256) :
    P Int (stackPush w >>= fun _ => (Pure.pure 0 : VmM Int)) :=
  hw.bind (hw.push w) fun _ => hw.unpaid 0

theorem unary (hw : Walk Q P) (f : Uint256 → Uint256) (gas : UInt32) : P Int (unary f gas) :=
  hw.bind hw.pop fun _ => hw.bind (hw.push _) fun _ => hw.paid gas

theorem binary (hw : Walk Q P) (f : Uint256 → Uint256 → Uint256) (gas : UInt32) :
    P Int (binary f gas) :=
  hw.bind hw.pop fun _ => hw.bind hw.pop fun _ => hw.bind (hw.push _) fun _ => hw.paid gas

theorem opSub (hw : Walk Q P) : P Int opSub :=
  hw.bind hw.pop fun _ => hw.bind hw.pop fun _ => hw.pushed _

theorem callDivmod256 (hw : Walk Q P) (l r : Uint256) (retMod : Bool) :
    Q _ (callDivmod256 l r retMod) := by
  unfold TinyEvm.callDivmod256
  split
  · exact hw.endless _
  · exact ite (hw.value _) (hw.null _)

theorem opDiv (hw : Walk Q P) : P Int opDiv := by
  have htarget : ∀ l r, Q Uint256 (divTarget l r) := fun l r =>
    ite (hw.value _) (hw.seq (hw.callDivmod256 l r false) fun _ => hw.value _)
  exact hw.bind hw.pop fun _ => hw.bind hw.pop fun _ => hw.bind (htarget _ _) fun _ =>
    hw.bind (hw.push _) fun _ => hw.paid _

theorem dividing (hw : Walk Q P) (result : Uint256 × Uint256 → Uint256) : P Int (dividing result) :=
  hw.bind hw.pop fun _ => hw.bind hw.pop fun _ => hw.bind (hw.callDivmod256 _ _ true) fun _ =>
    hw.bind (hw.push _) fun _ => hw.paid _

theorem modular (hw : Walk Q P) (f : Uint256 → Uint256 → Uint256) (gas : UInt32) :
    P Int (modular f gas) :=
  hw.bind hw.pop fun _ => hw.bind hw.pop fun _ => hw.bind hw.pop fun _ =>
    hw.bind (hw.callDivmod256 _ _ true) fun _ => hw.bind (hw.push _) fun _ => hw.paid gas

theorem pushing (hw : Walk Q P) (item : MessageExt → Uint256) (gas : UInt32) :
    P Int (pushing (fun s => item s.message) gas) :=
  hw.message (f := fun m => stackPush (item m) >>= fun _ => charge gas >>= fun _ => Pure.pure 0)
    fun _ => hw.bind (hw.push _) fun _ => hw.paid gas

theorem pushingFree (hw : Walk Q P) (item : MessageExt → Uint256) :
    P Int (pushingFree fun s => item s.message) :=
  hw.message (f := fun m => stackPush (item m) >>= fun _ => Pure.pure 0) fun _ => hw.pushed _

/-- `CALLDATALOAD` once its offset is popped. -/
def calldataAt (offset : Nat) (m : MessageExt) : VmM Int :=
  if offset > messageDataSize then Pure.pure 0
  else if offset = 0 then
    stackPush ⟨⟨swapLong (loadLE64 fun k => if k < 4 then peek m.data 0 k else 0), 0⟩, clear128⟩ >>=
      fun _ => Pure.pure 0
  else if Fits messageDataSize offset 32 then
    let w := loadWord fun k => peek m.data 0 (offset + k)
    stackPush ⟨⟨swapLong w.upper.upper, swapLong w.upper.lower⟩,
      ⟨swapLong w.lower.upper, swapLong w.lower.lower⟩⟩ >>= fun _ => Pure.pure 0
  else throw (.data (offset + 32))

theorem opCalldataload (hw : Walk Q P) : P Int opCalldataload := by
  refine hw.bind hw.popLow fun offset => hw.message (f := calldataAt offset.toUInt32.toNat) fun m => ?_
  exact ite (hw.unpaid 0) (ite (hw.pushed _) (ite (hw.pushed _) (hw.last (hw.data _ _))))

theorem opPop (hw : Walk Q P) : P Int opPop := hw.bind hw.pop fun _ => hw.paid _

/-! ## Opcodes with accesses of their own -/

theorem sha3Result (hw : Walk Q P) (hauto : ∀ i, Q Int (throw (.automatic i))) (length : UInt64)
    (data : Nat → UInt8) : P Int (sha3Result length data) :=
  ite (hw.last (hauto _)) (hw.pushed _)

theorem opSha3 (hw : Walk Q P) (hauto : ∀ i, Q Int (throw (.automatic i)))
    (hframe : Q _ automaticFrame) (hmem : ∀ off len, Q _ (memBlock off len)) : P Int opSha3 :=
  hw.bind hw.popLow fun _ => hw.bind hw.popLow fun _ => ite (hw.unpaid (-1))
    (ite (hw.bind hframe fun _ => hw.sha3Result hauto _ _)
      (hw.bind (hmem _ _) fun _ => hw.sha3Result hauto _ _))

theorem opMload (hw : Walk Q P) (hmem : ∀ off len, Q _ (memBlock off len)) : P Int opMload :=
  hw.bind hw.popLow fun _ => ite (hw.paid _)
    (hw.bind (hmem _ _) fun _ => hw.bind (hw.push _) fun _ => hw.paid _)

theorem opRevert (hw : Walk Q P) (hmem : ∀ off len, Q _ (memBlock off len)) : P Int opRevert :=
  hw.bind hw.popLow fun _ => hw.bind hw.popLow fun _ => ite (hw.paid _)
    (hw.bind (hmem _ _) fun _ => hw.unpaid _)

theorem opReturn (hw : Walk Q P) (hmem : ∀ off len, Q _ (memBlock off len))
    (hlength : ∀ n : UInt64, Q _ (modify fun s => { s with deployLength := n }))
    (hdeployed : ∀ len bytes, Q _ (modify fun s =>
      { s with deployedContract := blit s.deployedContract 0 len bytes }))
    (hfault : ∀ i, Q Int (throw (.deployed i))) : P Int opReturn :=
  hw.bind hw.popLow fun _ => hw.bind hw.popLow fun _ => hw.bind (hmem _ _) fun _ =>
    hw.bind (hlength _) fun _ => ite (hw.bind (hdeployed _ _) fun _ => hw.unpaid _)
      (hw.last (hfault _))

theorem opSload (hw : Walk Q P) (hstorage : ∀ {f : (Fin storageSpace → Uint256) → VmM Int},
    (∀ st, P Int (f st)) → P Int (get >>= fun s => f s.storage))
    (hfault : ∀ i, Q Int (throw (.storage i))) : P Int opSload := by
  refine hw.bind hw.popLow fun key => hstorage (f := fun st => if key.toNat > storageSpace then
    Pure.pure 0 else if h : key.toNat < storageSpace then
      stackPush (st ⟨key.toNat, h⟩) >>= fun _ => Pure.pure 0 else throw (.storage key.toNat)) ?_
  intro st
  refine ite (hw.unpaid 0) ?_
  split
  · exact hw.pushed _
  · exact hw.last (hfault _)

theorem opSstore (hw : Walk Q P)
    (hcount : Q _ (modify fun s => { s with maxStorageCounter := s.maxStorageCounter + 1 }))
    (hpoke : ∀ key value, Q _ (modify fun s => { s with storage := poke s.storage key value }))
    (hfault : ∀ i, Q Int (throw (.storage i))) : P Int opSstore := by
  refine hw.bind hw.popLow fun key => hw.bind hw.pop fun value => hw.bind hcount fun _ =>
    ite (hw.paid _) ?_
  split
  · exact hw.bind (hpoke _ _) fun _ => hw.paid _
  · exact hw.last (hfault _)

theorem opJump (hw : Walk Q P)
    (hpc : ∀ f : UInt32 → UInt32, Q _ (modify fun s => { s with pc := f s.pc })) : P Int opJump :=
  hw.bind hw.popLow fun destination => hw.bind (hpc fun _ => destination.toUInt32) fun _ =>
    hw.unpaid 0

theorem opJumpi (hw : Walk Q P)
    (hpc : ∀ f : UInt32 → UInt32, Q _ (modify fun s => { s with pc := f s.pc })) : P Int opJumpi :=
  hw.bind hw.popLow fun destination => hw.bind hw.popLow fun cond =>
    hw.bind (hpc fun pc => if cond ≠ 0 then destination.toUInt32 else pc) fun _ => hw.unpaid 0

section

variable (hset : ∀ off len bytes, Q Unit (setMemBlock off len bytes))
  (hnote : ∀ f : Nat → Nat, Q Unit (modify fun s => { s with maxMemOffset := f s.maxMemOffset }))

include hset

theorem opMstore8 (hw : Walk Q P) : P Int opMstore8 :=
  hw.bind hw.popLow fun _ => hw.bind hw.popLow fun _ => ite (hw.paid _)
    (hw.bind (hset _ _ _) fun _ => hw.paid _)

include hnote

theorem opMstore (hw : Walk Q P) : P Int opMstore :=
  hw.bind hw.popLow fun offset => hw.bind hw.pop fun _ => ite (hw.paid _)
    (hw.bind (hset _ _ _) fun _ =>
      hw.bind (hnote fun n => if 32 > n then offset.toNat + 32 else n) fun _ => hw.paid _)

theorem opCalldatacopy (hw : Walk Q P) (c : Code) (hblock : ∀ off len, Q _ (codeBlock c off len)) :
    P Int (opCalldatacopy c) :=
  hw.bind hw.popLow fun destOffset => hw.bind hw.popLow fun _ => hw.bind hw.popLow fun length =>
    ite (hw.paid _) (ite (hw.paid _) (hw.bind (hblock _ _) fun _ => hw.bind (hset _ _ _) fun _ =>
      hw.bind (hnote fun n => max n (destOffset + length).toNat) fun _ => hw.paid _))

omit hset hnote in
theorem codeElement (hw : Walk Q P) (c : Code) (hat : ∀ i, Q _ (codeAt c i)) :
    ∀ (k : Nat) (offset element : UInt64), Q _ (codeElement c k offset element) := by
  intro k
  induction k with
  | zero =>
    intro offset element
    exact hw.value _
  | succ k ih =>
    intro offset element
    exact hw.seq (hat _) fun _ => ih _ _

omit hnote in
theorem codecopyLoop (hw : Walk Q P) (c : Code) (hat : ∀ i, Q _ (codeAt c i)) (memOffset : Nat) :
    ∀ (rounds : Nat) (len : Int) (offset : UInt64),
      Q _ (codecopyLoop c memOffset rounds len offset) := by
  have helement := hw.codeElement c hat 8
  intro rounds
  induction rounds with
  | zero =>
    intro len offset
    exact hw.value _
  | succ rounds ih =>
    intro len offset
    exact ite (hw.seq (helement _ _) fun _ => hw.seq (helement _ _) fun _ =>
      hw.seq (helement _ _) fun _ => hw.seq (helement _ _) fun _ =>
      hw.seq (hset _ _ _) fun _ => hw.seq (hset _ _ _) fun _ =>
      hw.seq (hset _ _ _) fun _ => hw.seq (hset _ _ _) fun _ => ih _ _) (hw.value _)

theorem opCodecopy (hw : Walk Q P) (c : Code) (hat : ∀ i, Q _ (codeAt c i))
    (hblock : ∀ off len, Q _ (codeBlock c off len)) : P Int (opCodecopy c) :=
  hw.bind hw.popLow fun memOffset => hw.bind hw.popLow fun _ => hw.bind hw.popLow fun length =>
    ite (hw.paid _) (ite
      (hw.bind (hnote fun n => max n (memOffset + length).toNat) fun _ =>
        hw.bind (hw.codecopyLoop hset c hat _ _ _ _) fun _ => hw.paid _)
      (hw.bind (hblock _ _) fun _ => hw.bind (hset _ _ _) fun _ => hw.paid _))

end

/-- `PC ++` and the byte there, one step of the byte loops of `PUSH`. -/
def nextByte (c : Code) : VmM UInt8 := do
  modify fun s => { s with pc := s.pc + 1 }
  codeAt c (← get).pc.toNat

theorem pushBytes_succ (c : Code) (k : Nat) (element : UInt64) :
    TinyEvm.pushBytes c (k + 1) element = nextByte c >>= fun b =>
      TinyEvm.pushBytes c k ((element <<< 8) ||| b.toUInt64) := by
  funext s
  rfl

theorem pushBytes (hw : Walk Q P) (c : Code) (hnext : Q _ (nextByte c)) :
    ∀ (k : Nat) (element : UInt64), Q _ (pushBytes c k element) := by
  intro k
  induction k with
  | zero =>
    intro element
    exact hw.value _
  | succ k ih =>
    intro element
    rw [pushBytes_succ]
    exact hw.seq hnext fun _ => ih _

theorem opPush (hw : Walk Q P) (c : Code) (hnext : Q _ (nextByte c)) (n : Nat)
    (himmediate : ∀ read, Q Uint256 read → P Int (pushImmediate n read)) : P Int (opPush c n) := by
  obtain ⟨read, heq, hread⟩ := opPush_read c n (fun w => hw.value w) hw.seq fun k =>
    hw.pushBytes c hnext k 0
  rw [heq]
  exact himmediate read hread

end Walk

/-! ## Every opcode that only computes -/

/-- The opcodes that neither touch memory, storage or code nor set `PC`. -/
def OpCode.computes : OpCode → Bool
  | stop | push _ | jump | jumpi | sha3 | calldatacopy | codecopy | mload | mstore | mstore8 | sload
  | sstore | ret | revert => false
  | _ => true

/-- **The walk.** What the pieces have, the opcodes that only compute have. -/
theorem decode_computes {Q P : (α : Type) → VmM α → Prop} (hw : Walk Q P) {b : UInt8} (c : Code)
    (hop : (OpCode.ofByte b).computes = true) : P Int (decodeInstruction b c) := by
  unfold decodeInstruction
  cases h : OpCode.ofByte b with
  | stop => rw [h] at hop; cases hop
  | push n => rw [h] at hop; cases hop
  | jump => rw [h] at hop; cases hop
  | jumpi => rw [h] at hop; cases hop
  | sha3 => rw [h] at hop; cases hop
  | calldatacopy => rw [h] at hop; cases hop
  | codecopy => rw [h] at hop; cases hop
  | mload => rw [h] at hop; cases hop
  | mstore => rw [h] at hop; cases hop
  | mstore8 => rw [h] at hop; cases hop
  | sload => rw [h] at hop; cases hop
  | sstore => rw [h] at hop; cases hop
  | ret => rw [h] at hop; cases hop
  | revert => rw [h] at hop; cases hop
  | sub => exact hw.opSub
  | div => exact hw.opDiv
  | sdiv => exact hw.dividing _
  | mod => exact hw.dividing _
  | smod => exact hw.dividing _
  | addmod => exact hw.modular _ _
  | mulmod => exact hw.modular _ _
  | signextend => exact hw.paid _
  | iszero => exact hw.unary _ _
  | not => exact hw.unary _ _
  | address => exact hw.pushing (·.address) _
  | caller => exact hw.pushing (·.caller) _
  | callvalue => exact hw.pushing (·.callValue) _
  | calldataload => exact hw.opCalldataload
  | calldatasize => exact hw.pushingFree fun m => lowWord m.datasize.toUInt64
  | codesize => exact hw.pushingFree fun m => lowWord m.codesize.toUInt64
  | blockhash => exact hw.pushingFree fun _ => clear256
  | timestamp => exact hw.timestamp
  | pop => exact hw.opPop
  | dup n => exact hw.dup n
  | swap n => exact hw.swap (n + 1)
  | sensor => exact hw.unpaid 0
  | led => exact hw.unpaid 0
  | temperature => exact hw.unpaid 0
  | balance => exact hw.unpaid 0
  | jumpdest => exact hw.unpaid 0
  | log n => exact hw.unpaid 0
  | invalid => exact hw.unpaid 0
  | unsupported => exact hw.unpaid (-1)
  -- what is left has two operands and one result
  | _ => exact hw.binary _ _

end TinyEvm
