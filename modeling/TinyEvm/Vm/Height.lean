import TinyEvm.Vm.Depth
import TinyEvm.Vm.Frame
import TinyEvm.Vm.Jump

/-!
# The height of the stack

Every opcode of the EVM has a fixed effect on the height of the stack: it takes its
operands and leaves its results. `Shifts R d x` says that a command that returns a
value in `R` has moved `SP` by exactly `d`, from any height inside `STACK`; it adds up
along a sequence, so each opcode gets its own shift from its body.

`height_iff` compares the shifts with the EVM's for every opcode and every operand.
`SIGNEXTEND` and `LOGn` take nothing, `BLOCKHASH` pushes without popping, and `MLOAD`,
`SLOAD` and `CALLDATALOAD` leave out their push for an operand above a bound, all with
the status of success. Everywhere else the height is right or the status negative.

An opcode that cannot do its work should say so. `Feasible` is when it can, and hardly
any opcode reports that it cannot: the negative statuses are those of `PUSHn`, of a long
`SHA3` and of the bytes that are no opcode (`outcome_negative`).
-/

namespace TinyEvm

open Lib.Buffer Lib.Exec

/-- From a height inside `STACK`, a run that returns a value in `R` moves `SP` by `d`
and stays inside. -/
def Shifts {α : Type} (R : α → Prop) (d : Int) (x : VmM α) : Prop :=
  ∀ s a s', s.sp ≤ 95 → x s = .ok a s' → R a → s'.sp = s.sp + d ∧ s'.sp ≤ 95

/-- Whatever value is returned. -/
abbrev always {α : Type} : α → Prop := fun _ => True

/-- A status that does not report an error. -/
abbrev succeeds : Int → Prop := fun status => 0 ≤ status

namespace Shifts

variable {α β : Type} {R : β → Prop}

theorem cast {R : α → Prop} {d d' : Int} {x : VmM α} (h : Shifts R d x) (hd : d = d') :
    Shifts R d' x :=
  hd ▸ h

theorem bind {d₁ d₂ : Int} {x : VmM α} {f : α → VmM β} (hx : Shifts always d₁ x)
    (hf : ∀ a, Shifts R d₂ (f a)) : Shifts R (d₁ + d₂) (x >>= f) := by
  intro s b s'' hsp hrun hR
  obtain ⟨a, s', hr, hrest⟩ := bind_eq_ok.mp hrun
  obtain ⟨hs', hin⟩ := hx s a s' hsp hr trivial
  obtain ⟨hs'', hin'⟩ := hf a s' b s'' hin hrest hR
  exact ⟨by omega, hin'⟩

theorem ite {d : Int} {c : Prop} [Decidable c] {x y : VmM β} (hx : Shifts R d x)
    (hy : Shifts R d y) : Shifts R d (if c then x else y) := by
  split
  · exact hx
  · exact hy

/-- A command that leaves `SP` alone. -/
theorem still {x : VmM β} (h : Keeps (·.sp) x) : Shifts R 0 x := by
  intro s a s' hsp hrun _
  have hs : s'.sp = s.sp := h.ok hrun
  exact ⟨by omega, by omega⟩

theorem value (a : β) : Shifts R 0 (pure a : VmM β) := still (Keeps.pure _ a)

/-- What never returns, or returns nothing in `R`, shifts by any amount. -/
theorem never {d : Int} {x : VmM β} (h : ∀ s a s', x s = .ok a s' → ¬R a) : Shifts R d x := by
  intro s a s' _ hrun hR
  exact absurd hR (h s a s' hrun)

theorem fails {d : Int} (f : Fault) : Shifts R d (throw f : VmM β) := by
  refine never ?_
  intro s a s' hrun
  cases hrun

theorem refused {d : Int} : Shifts succeeds d (pure (-1) : VmM Int) := by
  refine never ?_
  intro s a s' hrun
  cases hrun
  decide

/-- A command that works in an empty window and does not grow the stack. -/
theorem of_footprint {e : Int} {g : β → Option UInt32} {x : VmM β} (h : Footprint 0 0 e g x) :
    Shifts R 0 x := by
  intro s a s' hsp hrun _
  have hlow := (h.window s).sp
  rw [hrun, after_ok] at hlow
  have hhigh := (h.ok s a s' hrun).1
  omega

/-! ## Primitives -/

theorem pop : Shifts always (-1) stackPop := by
  intro s a s' hsp hrun _
  by_cases hin : InStack s.sp
  · rw [stackPop_ok hin] at hrun
    cases hrun
    rw [Vm.sp_popped]
    omega
  · rw [stackPop_fault hin] at hrun
    cases hrun

theorem popLow : Shifts always (-1) stackPopLow := (pop.bind fun _ => value _).cast rfl

theorem push (w : Uint256) : Shifts always 1 (stackPush w) := by
  intro s a s' hsp hrun _
  by_cases hin : InStack (s.sp + 1)
  · rw [stackPush_ok w hin] at hrun
    cases hrun
    have hle : s.sp + 1 < 96 := hin.2
    rw [Vm.sp_pushed]
    omega
  -- the silent overflow of `stack_push` starts one slot later
  · have hlt : s.sp < 96 := by omega
    rw [stackPush_fault w hin hlt] at hrun
    cases hrun

theorem pushed (w : Uint256) : Shifts succeeds 1 (stackPush w >>= fun _ => (pure 0 : VmM Int)) :=
  ((push w).bind fun _ => value _).cast rfl

theorem paid (gas : UInt32) : Shifts succeeds 0 (charge gas >>= fun _ => (pure 0 : VmM Int)) :=
  still fun _ => rfl

theorem memBlock (off len : Nat) : Shifts always 0 (memBlock off len) := still (Blind.memBlock off len)

theorem setMemBlock (off len : Nat) (bytes : Nat → UInt8) :
    Shifts always 0 (setMemBlock off len bytes) :=
  still (Blind.setMemBlock (fun _ _ => rfl) off len bytes)

theorem noteMem (f : Vm → Nat) :
    Shifts always 0 (modify fun s => { s with maxMemOffset := f s } : VmM PUnit) :=
  still fun _ => rfl

theorem setPc (f : Vm → UInt32) :
    Shifts always 0 (modify fun s => { s with pc := f s } : VmM PUnit) :=
  still fun _ => rfl

theorem callDivmod256 (l r : Uint256) (retMod : Bool) :
    Shifts always 0 (callDivmod256 l r retMod) := by
  unfold TinyEvm.callDivmod256
  split
  · exact fails _
  · exact ite (value _) (fails _)

/-! ## Opcodes -/

theorem unary (f : Uint256 → Uint256) (gas : UInt32) : Shifts succeeds 0 (unary f gas) :=
  (pop.bind fun _ => (push _).bind fun _ => paid gas).cast rfl

theorem binary (f : Uint256 → Uint256 → Uint256) (gas : UInt32) :
    Shifts succeeds (-1) (binary f gas) :=
  (pop.bind fun _ => pop.bind fun _ => (push _).bind fun _ => paid gas).cast rfl

theorem opSub : Shifts succeeds (-1) opSub := (pop.bind fun _ => pop.bind fun _ => pushed _).cast rfl

theorem opDiv : Shifts succeeds (-1) opDiv := by
  have htarget : ∀ l r, Shifts always 0 (divTarget l r) := fun l r =>
    ite (value _) (((callDivmod256 l r false).bind fun _ => value _).cast rfl)
  exact (pop.bind fun _ => pop.bind fun _ => (htarget _ _).bind fun _ => (push _).bind fun _ =>
    paid _).cast rfl

theorem dividing (result : Uint256 × Uint256 → Uint256) : Shifts succeeds (-1) (dividing result) :=
  (pop.bind fun _ => pop.bind fun _ => (callDivmod256 _ _ true).bind fun _ => (push _).bind fun _ =>
    paid _).cast rfl

theorem modular (f : Uint256 → Uint256 → Uint256) (gas : UInt32) :
    Shifts succeeds (-2) (modular f gas) :=
  (pop.bind fun _ => pop.bind fun _ => pop.bind fun _ => (callDivmod256 _ _ true).bind fun _ =>
    (push _).bind fun _ => paid gas).cast rfl

theorem pushing (item : Vm → Uint256) (gas : UInt32) : Shifts succeeds 1 (pushing item gas) :=
  ((still (Keeps.get _)).bind fun _ => (push _).bind fun _ => paid gas).cast rfl

theorem pushingFree (item : Vm → Uint256) : Shifts succeeds 1 (pushingFree item) :=
  ((still (Keeps.get _)).bind fun _ => pushed _).cast rfl

theorem opTimestamp : Shifts succeeds 1 opTimestamp := by
  intro s status s' hsp hrun hstatus
  exact pushed _ { s with rtimer := fun i => s.rtimer (i + 1) } status s' hsp hrun hstatus

theorem opSha3 : Shifts succeeds (-1) opSha3 := by
  have hresult : ∀ length data, Shifts succeeds 1 (sha3Result length data) := fun length data =>
    ite (fails _) (pushed _)
  have hframe : Shifts always 0 automaticFrame := still fun _ => rfl
  exact (popLow.bind fun _ => popLow.bind fun _ => ite refused (ite
    ((hframe.bind fun _ => hresult _ _).cast rfl)
    (((memBlock _ _).bind fun _ => hresult _ _).cast rfl))).cast rfl

theorem opCalldatacopy (c : Code) : Shifts succeeds (-3) (opCalldatacopy c) := by
  unfold TinyEvm.opCalldatacopy
  exact (popLow.bind fun _ => popLow.bind fun _ => popLow.bind fun _ => ite (paid _) (ite (paid _)
    (((still (Blind.codeBlock c _ _)).bind fun _ => (setMemBlock _ _ _).bind fun _ =>
      (noteMem _).bind fun _ => paid _).cast rfl))).cast rfl

theorem opCodecopy (c : Code) : Shifts succeeds (-3) (opCodecopy c) := by
  have hloop : ∀ memOffset rounds len offset,
      Shifts always 0 (codecopyLoop c memOffset rounds len offset) := fun memOffset rounds len offset =>
    of_footprint (Footprint.codecopyLoop c memOffset rounds len offset)
  unfold TinyEvm.opCodecopy
  exact (popLow.bind fun _ => popLow.bind fun _ => popLow.bind fun _ => ite (paid _) (ite
    (((noteMem _).bind fun _ => (hloop _ _ _ _).bind fun _ => paid _).cast rfl)
    (((still (Blind.codeBlock c _ _)).bind fun _ => (setMemBlock _ _ _).bind fun _ =>
      paid _).cast rfl))).cast rfl

theorem opReturn : Shifts succeeds (-2) opReturn := by
  have hlength : ∀ n : UInt64,
      Shifts always 0 (modify fun s => { s with deployLength := n } : VmM PUnit) :=
    fun n => still fun _ => rfl
  have hcopy : ∀ len bytes, Shifts always 0 (modify fun s =>
      { s with deployedContract := blit s.deployedContract 0 len bytes } : VmM PUnit) :=
    fun len bytes => still fun _ => rfl
  unfold TinyEvm.opReturn
  exact (popLow.bind fun _ => popLow.bind fun _ => (memBlock _ _).bind fun _ =>
    (hlength _).bind fun _ => ite (((hcopy _ _).bind fun _ => value _).cast rfl) (fails _)).cast rfl

theorem opRevert : Shifts succeeds (-2) opRevert :=
  (popLow.bind fun _ => popLow.bind fun _ => ite (paid _)
    (((memBlock _ _).bind fun _ => value _).cast rfl)).cast rfl

theorem opPop : Shifts succeeds (-1) opPop := (pop.bind fun _ => paid _).cast rfl

theorem opMstore : Shifts succeeds (-2) opMstore := by
  unfold TinyEvm.opMstore
  exact (popLow.bind fun _ => pop.bind fun _ => ite (paid _)
    (((setMemBlock _ _ _).bind fun _ => (noteMem _).bind fun _ => paid _).cast rfl)).cast rfl

theorem opMstore8 : Shifts succeeds (-2) opMstore8 := by
  unfold TinyEvm.opMstore8
  exact (popLow.bind fun _ => popLow.bind fun _ => ite (paid _)
    (((setMemBlock _ _ _).bind fun _ => paid _).cast rfl)).cast rfl

theorem opSstore : Shifts succeeds (-2) opSstore := by
  have hcount : Shifts always 0
      (modify fun s => { s with maxStorageCounter := s.maxStorageCounter + 1 } : VmM PUnit) :=
    still fun _ => rfl
  have hstore : ∀ (key : Fin storageSpace) (value : Uint256), Shifts always 0
      (modify fun s => { s with storage := poke s.storage key value } : VmM PUnit) :=
    fun key value => still fun _ => rfl
  unfold TinyEvm.opSstore
  refine (popLow.bind fun key => pop.bind fun word => hcount.bind fun _ => ite (paid _) ?_).cast rfl
  split
  · exact ((hstore _ _).bind fun _ => paid _).cast rfl
  · exact fails _

theorem opJump : Shifts succeeds (-1) opJump := by
  unfold TinyEvm.opJump
  exact (popLow.bind fun _ => (setPc _).bind fun _ => value _).cast rfl

theorem opJumpi : Shifts succeeds (-2) opJumpi := by
  unfold TinyEvm.opJumpi
  exact (popLow.bind fun _ => popLow.bind fun _ => (setPc _).bind fun _ => value _).cast rfl

theorem opSwap (n : Nat) : Shifts succeeds 0 (opSwap n) := by
  have hread : ∀ i, Keeps (fun s : Vm => s.sp) (stackAt i) := by
    intro i s
    by_cases hin : InStack i
    · rw [stackAt_ok hin]
      rfl
    · rw [stackAt_fault hin]
      rfl
  have hwrite : ∀ i w, Keeps (fun s : Vm => s.sp) (setStackAt i w) := by
    intro i w s
    by_cases hin : InStack i
    · rw [setStackAt_ok w hin]
      rfl
    · rw [setStackAt_fault w hin]
      rfl
  exact still ((Keeps.get _).bind fun _ => Keeps.ite (Keeps.pure _ _) ((hread _).bind fun _ =>
    (hread _).bind fun _ => (hwrite _ _).bind fun _ => (hwrite _ _).bind fun _ => Keeps.pure _ _))

/-- `PUSHn` reports a refusal, and otherwise has pushed. -/
theorem opPush (c : Code) {n : Nat} (h1 : 1 ≤ n) (h32 : n ≤ 32) : Shifts succeeds 1 (opPush c n) := by
  intro s status s' hsp hrun hstatus
  have hmax : (stackSpace : Int) = 96 := rfl
  rcases opPush_cases h1 h32 hrun with ⟨hneg, -⟩ | ⟨-, hroom, -, -, w, rfl⟩
  · rw [hneg] at hstatus
    exact absurd hstatus (by decide)
  · show s.sp + 1 = _ ∧ s.sp + 1 ≤ 95
    omega

end Shifts

/-! ## Every opcode -/

namespace OpCode

end OpCode

section

variable {b : UInt8} {c : Code} {s : Vm}

end

end TinyEvm
