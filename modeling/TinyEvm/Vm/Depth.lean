import TinyEvm.Vm.Execute
import TinyEvm.Vm.Footprint
import TinyEvm.Vm.Push

/-!
# The depth of the stack

Live elements are `STACK[1..SP]`, and the array ends at `STACK_SPACE - 1`.

*At the top* there are two admission checks. `PUSHn` adds the number of its
immediate bytes to `SP`, so it refuses up to 31 depths at which there is room;
`stack_push` compares `SP` with `STACK_SPACE`, so at `SP == STACK_SPACE - 1` it
stores past the end. `admission_iff` says exactly where the two agree with what
they guard, and that a run that stays there keeps `SP` inside the array.

*At the bottom* there is no check: `stack_pop` takes whatever is in the slot, `DUP`
and `SWAP` test against index zero and then return success. `underflow_iff` says
that no opcode reports a missing operand, ever, and that a run in which none is
missing never leaves the live slots. Both run results are invariants of
`execute_contract` (`visits_invariant`), from the footprint of each opcode.
-/

namespace TinyEvm

open Lib.Exec Lib.Loop

/-! ## Admission -/

/-- The opcodes that push one word net. -/
def PushesOne (op : OpCode) (s : Vm) : Prop :=
  match op with
  | .push _ | .address | .caller | .callvalue | .calldatasize | .codesize => True
  | .dup n => n.val + 1 ≤ s.sp
  | _ => False

/-- The push goes through: status zero, and only the new top is written. -/
def Accepted (b : UInt8) (c : Code) (s : Vm) : Prop :=
  ∃ s', decodeInstruction b c s = .ok 0 s' ∧ s'.sp = s.sp + 1 ∧ s'.sp ≤ 95 ∧
    ∀ i, i ≠ s.sp + 1 → s'.slot i = s.slot i

/-- The push is refused: a negative status, and the machine is as it was. -/
def Refused (b : UInt8) (c : Code) (s : Vm) : Prop :=
  ∃ status s', decodeInstruction b c s = .ok status s' ∧ status < 0 ∧ s'.toMachine = s.toMachine

/-- Pushes are accepted exactly below the last slot, and refused at it. -/
def AdmissionMeets (b : UInt8) (c : Code) (s : Vm) : Prop :=
  (Accepted b c s ↔ s.sp < 95) ∧ (¬s.sp < 95 → Refused b c s)

/-- Where the check an opcode makes is the right one: `PUSHn` at the last slot,
or with room for `n` words and its immediate in the code; the others below the
last slot. -/
def Admissible (op : OpCode) (c : Code) (s : Vm) : Prop :=
  match op with
  | .push n => s.sp = 95 ∨ (s.sp + (n.val + 1 : Nat) ≤ 95 ∧ ImmediateInside c s.pc (n.val + 1))
  | _ => s.sp < 95

/-- All pushes but `PUSHn` end in a `stack_push` at the depth they started. -/
theorem decode_stackPush {b : UInt8} {c : Code} {s : Vm} (hop : PushesOne (OpCode.ofByte b) s)
    (hpush : ∀ n, OpCode.ofByte b ≠ .push n) (hsp : s.sp ≤ 95) :
    ∃ w s₁ tail, s₁.sp = s.sp ∧ s₁.stack = s.stack ∧
      decodeInstruction b c s = (stackPush w >>= fun _ => tail) s₁ ∧
      ∀ s : Vm, ∃ g, (tail : VmM Int) s = .ok 0 { s with gasCharge := g } := by
  have hpaid : ∀ (gas : UInt32) (s : Vm), ∃ g,
      (charge gas >>= fun _ => (pure 0 : VmM Int)) s = .ok 0 { s with gasCharge := g } :=
    fun gas s => ⟨s.gasCharge + gas, rfl⟩
  have hfree : ∀ s : Vm, ∃ g, (pure 0 : VmM Int) s = .ok 0 { s with gasCharge := g } :=
    fun s => ⟨s.gasCharge, rfl⟩
  unfold decodeInstruction
  unfold PushesOne at hop
  split at hop
  next n heq => exact absurd heq (hpush n)
  next heq =>
    rw [heq]
    exact ⟨_, s, _, rfl, rfl, rfl, hpaid _⟩
  next heq =>
    rw [heq]
    exact ⟨_, s, _, rfl, rfl, rfl, hpaid _⟩
  next heq =>
    rw [heq]
    exact ⟨_, s, _, rfl, rfl, rfl, hpaid _⟩
  next heq =>
    rw [heq]
    exact ⟨_, s, _, rfl, rfl, rfl, hfree⟩
  next heq =>
    rw [heq]
    exact ⟨_, s, _, rfl, rfl, rfl, hfree⟩
  -- `DUPn` reads its slot first; the ghost `slots` is all that changes
  next n heq =>
    rw [heq]
    have hin : InStack (s.sp - n.val) := inStack_of_le (by omega) (by omega)
    refine ⟨s.slot (s.sp - n.val), { s with slots := (s.sp - n.val) :: s.slots }, pure 0, rfl, rfl,
      ?_, hfree⟩
    show opDup n s = _
    unfold opDup
    rw [get_bind, if_neg (by omega)]
    exact bind_ok (stackAt_ok hin) _
  next => exact hop.elim

theorem accepted_of_push {b : UInt8} {c : Code} {s s₁ : Vm} {w : Uint256} {tail : VmM Int}
    (hsp : s₁.sp = s.sp) (hstack : s₁.stack = s.stack)
    (hrun : decodeInstruction b c s = (stackPush w >>= fun _ => tail) s₁)
    (htail : ∀ s : Vm, ∃ g, tail s = .ok 0 { s with gasCharge := g }) (h0 : 0 ≤ s.sp)
    (hlt : s.sp < 95) : Accepted b c s := by
  have hin : InStack (s₁.sp + 1) := inStack_of_le (by omega) (by omega)
  obtain ⟨g, htail⟩ := htail (s₁.pushed w)
  refine ⟨{ s₁.pushed w with gasCharge := g }, ?_, ?_, ?_, ?_⟩
  · rw [hrun, bind_ok (stackPush_ok w hin)]
    exact htail
  · show s₁.sp + 1 = s.sp + 1
    rw [hsp]
  · show s₁.sp + 1 ≤ 95
    omega
  · intro i hi
    show (s₁.pushed w).slot i = _
    rw [Vm.slot_pushed_ne w (by omega)]
    unfold Vm.slot
    rw [hstack]

/-- `stack_push` at the last slot misses the array instead of refusing. -/
theorem stackPush_last {b : UInt8} {c : Code} {s s₁ : Vm} {w : Uint256} {tail : VmM Int}
    (hsp : s₁.sp = s.sp) (hrun : decodeInstruction b c s = (stackPush w >>= fun _ => tail) s₁)
    (h95 : s.sp = 95) : ¬Refused b c s := by
  intro hmeets
  obtain ⟨status, s', hok, -, -⟩ := hmeets
  have hout : ¬InStack (s₁.sp + 1) := by
    rw [hsp, h95]
    decide
  rw [hrun, bind_error (stackPush_fault w hout (by rw [hsp, h95]; decide))] at hok
  cases hok

theorem push_admission_iff {b : UInt8} {c : Code} {s : Vm} {n : Fin 32}
    (hop : OpCode.ofByte b = .push n) (h0 : 0 ≤ s.sp) (h95 : s.sp ≤ 95) :
    AdmissionMeets b c s ↔
      s.sp = 95 ∨ (s.sp + (n.val + 1 : Nat) ≤ 95 ∧ ImmediateInside c s.pc (n.val + 1)) := by
  have hdec : decodeInstruction b c = opPush c (n.val + 1) := by
    unfold decodeInstruction
    rw [hop]
  have hmax : (stackSpace : Int) = 96 := rfl
  unfold AdmissionMeets
  refine ⟨?_, ?_⟩
  · intro hmeets
    obtain ⟨hiff, -⟩ := hmeets
    by_cases hlt : s.sp < 95
    · obtain ⟨s', hrun, -⟩ := hiff.mpr hlt
      rw [hdec] at hrun
      rcases opPush_cases (by omega) (by omega) hrun with ⟨habs, -⟩ | ⟨-, hroom, -, hinside, -⟩
      · cases habs
      · exact Or.inr ⟨by omega, hinside⟩
    · exact Or.inl (by omega)
  · rintro (heq | ⟨hroom, hinside⟩)
    -- at the last slot every immediate is refused, as it should be
    · have hrun : opPush c (n.val + 1) s = .ok (-1) s :=
        opPush_refused (by omega) (by omega) (by omega)
      refine ⟨⟨?_, fun hlt => absurd hlt (by omega)⟩, fun _ => ⟨-1, s, ?_, by decide, rfl⟩⟩
      · intro hmeets
        obtain ⟨s', hok, -⟩ := hmeets
        rw [hdec, hrun] at hok
        cases hok
      · rw [hdec, hrun]
    · have hlt : s.sp < 95 := by omega
      obtain ⟨w, hrun⟩ := opPush_accepts (c := c) (s := s) (n := n.val + 1) (by omega) (by omega)
        (by omega) (by omega) hinside
      refine ⟨⟨fun _ => hlt, fun _ => ⟨_, by rw [hdec, hrun], rfl, ?_, ?_⟩⟩, fun hge => absurd hlt hge⟩
      · show s.sp + 1 ≤ 95
        omega
      · intro i hi
        exact Vm.slot_pushed_ne (s := s) w hi

theorem stackPush_admission_iff {b : UInt8} {c : Code} {s : Vm} (hop : PushesOne (OpCode.ofByte b) s)
    (hpush : ∀ n, OpCode.ofByte b ≠ .push n) (h0 : 0 ≤ s.sp) (h95 : s.sp ≤ 95) :
    AdmissionMeets b c s ↔ s.sp < 95 := by
  obtain ⟨w, s₁, tail, hsp, hstack, hrun, htail⟩ := decode_stackPush (c := c) hop hpush h95
  refine ⟨?_, ?_⟩
  · intro hmeets
    obtain ⟨-, hrefused⟩ := hmeets
    by_contra hge
    exact stackPush_last hsp hrun (by omega) (hrefused hge)
  · intro hlt
    have hacc := accepted_of_push hsp hstack hrun htail h0 hlt
    exact ⟨⟨fun _ => hlt, fun _ => hacc⟩, fun hge => absurd hlt hge⟩

/-- Every growing instruction of a round is decoded where its check is right. -/
def Admitted (c : Code) (s : Vm) : Prop :=
  ∀ b, Decodes c c.sizeof s b → (OpCode.ofByte b).rise = 1 → Admissible (OpCode.ofByte b) c s

/-- `SP` after an opcode, whether it returns or faults. -/
theorem decode_sp_le {b : UInt8} {c : Code} {s : Vm} (hstop : OpCode.ofByte b ≠ .stop) :
    (after (decodeInstruction b c s)).sp ≤ s.sp + (OpCode.ofByte b).rise := by
  have hfoot := decode_footprint c hstop
  cases hrun : decodeInstruction b c s with
  | ok status s' => exact (hfoot.ok s status s' hrun).1
  | error f s' => exact hfoot.fault s f s' hrun

theorem OpCode.rise_cases (op : OpCode) : op.rise = 0 ∨ op.rise = 1 := by
  cases op <;> simp [OpCode.rise]

theorem decode_sp_inside {b : UInt8} {c : Code} {s : Vm} (hs : s.sp ≤ 95)
    (hadm : (OpCode.ofByte b).rise = 1 → Admissible (OpCode.ofByte b) c s) :
    (after (decodeInstruction b c s)).sp ≤ 95 := by
  by_cases hstop : OpCode.ofByte b = .stop
  · rw [decode_stop hstop]
    show (0 : Int) ≤ 95
    decide
  · have hle := decode_sp_le (c := c) (s := s) hstop
    rcases (OpCode.ofByte b).rise_cases with hzero | hone
    · omega
    · have hroom := hadm hone
      unfold Admissible at hroom
      split at hroom
      next n hop =>
        rcases hroom with hlast | ⟨hroom, -⟩
        -- a `PUSHn` at the last slot is refused and does not move `SP`
        · have hmax : (stackSpace : Int) = 96 := rfl
          have hrun : decodeInstruction b c s = .ok (-1) s := by
            unfold decodeInstruction
            rw [hop]
            exact opPush_refused (by omega) (by omega) (by omega)
          rw [hrun]
          exact hs
        · omega
      next => omega

/-- **Push admission.** A push is admitted as the array allows exactly where
`Admissible` says so, and a run all of whose pushes are made there keeps `SP` at
`STACK_SPACE - 1` or below, also in the state a fault leaves behind. -/
theorem admission_iff (c : Code) :
    (∀ (b : UInt8) (s : Vm), PushesOne (OpCode.ofByte b) s → 0 ≤ s.sp → s.sp ≤ 95 →
      (AdmissionMeets b c s ↔ Admissible (OpCode.ofByte b) c s)) ∧
    ∀ vm s : Vm,
      Visits (Admitted c) (executeRound c c.sizeof) (after (initMachine vm)) s → s.sp ≤ 95 := by
  refine ⟨?_, ?_⟩
  · intro b s hop h0 h95
    by_cases hpush : ∃ n, OpCode.ofByte b = .push n
    · obtain ⟨n, hn⟩ := hpush
      rw [push_admission_iff hn h0 h95, hn]
      exact Iff.rfl
    · rw [stackPush_admission_iff hop (fun n hn => hpush ⟨n, hn⟩) h0 h95]
      unfold Admissible
      split
      next n hn => exact absurd ⟨n, hn⟩ hpush
      next => exact Iff.rfl
  · intro vm s hvisits
    refine visits_invariant (I := fun s => s.sp ≤ 95) ?_ hvisits (by decide : (0 : Int) ≤ 95)
    intro s hadm hs
    refine round_invariant (I := fun s => s.sp ≤ 95) (fun _ h => h) (fun _ h => h) hs ?_
    intro b hb
    exact decode_sp_inside hs (hadm b hb)

/-- `PUSH1 5 STOP`. -/
def pushFive : Code := ⟨[0x60, 0x05, 0x00], by decide⟩

/-- `ADDRESS` below the last slot, and one round of `PUSH1 5 STOP`. -/
theorem admission_iff_pushFive : AdmissionMeets 0x30 pushFive { Vm.zeroed with sp := 94 } ∧
    (after (executeRound pushFive pushFive.sizeof (after (initMachine Vm.zeroed)))).sp ≤ 95 := by
  refine ⟨((admission_iff pushFive).1 0x30 { Vm.zeroed with sp := 94 } trivial (by decide)
    (by decide)).mpr (show (94 : Int) < 95 by decide), ?_⟩
  refine (admission_iff pushFive).2 Vm.zeroed _ (Visits.round Relation.ReflTransGen.refl ?_)
  intro b hb _
  obtain rfl : 0x60 = b := Option.some.inj hb.byte
  refine Or.inr ⟨by decide, ?_⟩
  intro i hi
  obtain rfl : i = 0 := Nat.lt_one_iff.mp hi
  decide

/-- `PUSH2` at depth 94 is refused although there is room, and `ADDRESS` at depth
95 stores past the array. -/
theorem admission_fails : ¬AdmissionMeets 0x61 pushFive { Vm.zeroed with sp := 94 } ∧
    ¬AdmissionMeets 0x30 pushFive { Vm.zeroed with sp := 95 } := by
  refine ⟨?_, ?_⟩
  · intro hmeets
    have hroom := (push_admission_iff (n := 1) rfl (by decide) (by decide)).mp hmeets
    rcases hroom with habs | ⟨habs, -⟩
    · exact absurd habs (by decide)
    · exact absurd habs (by decide)
  · intro hmeets
    have hroom := (stackPush_admission_iff (b := 0x30) trivial (fun n hn => by cases hn) (by decide)
      (by decide)).mp hmeets
    exact absurd hroom (by decide)

/-! ## Underflow -/

/-- A missing operand is reported: a negative status, and stack, memory and
storage are as they were. -/
def UnderflowDetected (b : UInt8) (c : Code) (s : Vm) : Prop :=
  ∃ status s', decodeInstruction b c s = .ok status s' ∧ status < 0 ∧ s'.sp = s.sp ∧
    s'.stack = s.stack ∧ s'.mem = s.mem ∧ s'.storage = s.storage

/-- The one negative status of an opcode with operands: `SHA3` has popped both of
them before it refuses the length. -/
theorem opSha3_negative {s s' : Vm} {status : Int} (hrun : opSha3 s = .ok status s')
    (hneg : status < 0) : 256 < (s.slot (s.sp - 1)).lower.lower ∧ s'.sp = s.sp - 2 := by
  unfold opSha3 at hrun
  obtain ⟨offset, s₁, h₁, hrun⟩ := bind_eq_ok.mp hrun
  obtain ⟨length, s₂, h₂, hrun⟩ := bind_eq_ok.mp hrun
  obtain ⟨-, -, rfl⟩ := stackPopLow_returns h₁
  obtain ⟨-, hlength, rfl⟩ := stackPopLow_returns h₂
  by_cases hlong : length > 256
  · rw [if_pos hlong] at hrun
    cases hrun
    rw [hlength] at hlong
    refine ⟨hlong, ?_⟩
    show s.sp - 1 - 1 = s.sp - 2
    omega
  · rw [if_neg hlong] at hrun
    -- every other path ends in `break`
    obtain ⟨-, d, hd, -⟩ := (Footprint.sha3Body [] offset length).ok _ status s' hrun
    unfold paying exits at hd
    split at hd
    · omega
    · cases hd

/-- The opcodes that can return a negative status. -/
theorem outcome_negative {op : OpCode} {status : Int} {d : UInt32} (h : op.outcome status = some d)
    (hneg : status < 0) : op = .unsupported ∨ op = .sha3 ∨ ∃ n, op = .push n := by
  have hpaying : ∀ gas, paying gas [] status = none := by
    intro gas
    unfold paying exits
    rw [if_neg (by omega), if_neg (by simp)]
  have hreturn : exits [returnStatus] status = none := by
    have hne : status ≠ returnStatus := by
      show status ≠ 0xf3
      omega
    unfold exits
    rw [if_neg (by simpa using hne)]
  cases op with
  | unsupported => exact Or.inl rfl
  | sha3 => exact Or.inr (Or.inl rfl)
  | push n => exact Or.inr (Or.inr ⟨n, rfl⟩)
  | ret =>
    rw [OpCode.outcome, hreturn] at h
    cases h
  | revert =>
    rw [OpCode.outcome, paying, if_neg (by omega), hreturn] at h
    cases h
  | _ =>
    have hpaid : paying _ [] status = some d := h
    rw [hpaying] at hpaid
    cases hpaid

/-- No opcode with operands ever reports that they are missing. -/
theorem underflow_undetected {b : UInt8} {c : Code} {s : Vm} (hpos : 0 < (OpCode.ofByte b).arity) :
    ¬UnderflowDetected b c s := by
  intro hmeets
  obtain ⟨status, s', hrun, hneg, hsp, -⟩ := hmeets
  have hstop : OpCode.ofByte b ≠ .stop := by
    intro hop
    rw [hop] at hpos
    exact absurd hpos (by decide)
  obtain ⟨-, d, hd, -⟩ := (decode_footprint c hstop).ok s status s' hrun
  rcases outcome_negative hd hneg with hop | hop | ⟨n, hop⟩
  · rw [hop] at hpos
    exact absurd hpos (by decide)
  · unfold decodeInstruction at hrun
    rw [hop] at hrun
    obtain ⟨-, hfall⟩ := opSha3_negative hrun hneg
    omega
  · rw [hop] at hpos
    exact absurd hpos (Nat.lt_irrefl 0)

/-- Every instruction of a round is decoded with its operands on the stack. -/
def Supplied (c : Code) (s : Vm) : Prop :=
  ∀ b, Decodes c c.sizeof s b → ((OpCode.ofByte b).arity : Int) ≤ s.sp

/-- The live slots are the only ones used: `SP` is not negative, and every slot
read since `vm` has index one or more. -/
def Live (vm s : Vm) : Prop := 0 ≤ s.sp ∧ ∀ i ∈ s.slots, i ∈ vm.slots ∨ 1 ≤ i

theorem decode_live {b : UInt8} {c : Code} {vm s : Vm} (hs : Live vm s)
    (harity : ((OpCode.ofByte b).arity : Int) ≤ s.sp) :
    Live vm (after (decodeInstruction b c s)) := by
  by_cases hstop : OpCode.ofByte b = .stop
  · rw [decode_stop hstop]
    exact ⟨Int.le_refl 0, hs.2⟩
  · have hwindow := (decode_footprint c hstop).window s
    have hlow := hwindow.sp
    refine ⟨by omega, ?_⟩
    intro i hi
    rcases hwindow.slots i hi with hold | hnew
    · exact hs.2 i hold
    · exact Or.inr (by omega)

/-- **Underflow.** An opcode with operands meets "a missing operand is reported"
only where none is missing; a run in which none is missing keeps `SP` at zero or
above and reads no slot below index one, also up to a fault. -/
theorem underflow_iff (c : Code) :
    (∀ (b : UInt8) (s : Vm), 0 < (OpCode.ofByte b).arity →
      ((s.sp < (OpCode.ofByte b).arity → UnderflowDetected b c s) ↔
        ((OpCode.ofByte b).arity : Int) ≤ s.sp)) ∧
    ∀ vm s : Vm,
      Visits (Supplied c) (executeRound c c.sizeof) (after (initMachine vm)) s → Live vm s := by
  refine ⟨?_, ?_⟩
  · intro b s hpos
    refine ⟨?_, ?_⟩
    · intro hdetected
      by_contra hlt
      exact underflow_undetected hpos (hdetected (by omega))
    · intro hge hlt
      omega
  · intro vm s hvisits
    refine visits_invariant ?_ hvisits ⟨Int.le_refl 0, fun i hi => Or.inl hi⟩
    intro s hsupplied hs
    refine round_invariant (fun _ h => h) (fun _ h => h) hs ?_
    intro b hb
    exact decode_live hs (hsupplied b hb)

/-- `ADD` with two operands, and one round of `PUSH1 5 STOP`. -/
theorem underflow_iff_pushFive :
    ((2 : Int) < (OpCode.ofByte 0x01).arity →
      UnderflowDetected 0x01 pushFive { Vm.zeroed with sp := 2 }) ∧
    Live Vm.zeroed (after (executeRound pushFive pushFive.sizeof (after (initMachine Vm.zeroed)))) := by
  refine ⟨((underflow_iff pushFive).1 0x01 { Vm.zeroed with sp := 2 } (by decide)).mpr
    (by decide), ?_⟩
  refine (underflow_iff pushFive).2 Vm.zeroed _ (Visits.round Relation.ReflTransGen.refl ?_)
  intro b hb
  obtain rfl : 0x60 = b := Option.some.inj hb.byte
  decide

/-- `POP` on the empty stack reads `STACK[0]`, lowers `SP` to minus one and returns
zero. -/
theorem underflow_missed : Vm.zeroed.sp < (OpCode.ofByte 0x50).arity ∧
    ¬UnderflowDetected 0x50 pushFive Vm.zeroed ∧
    ∃ s', decodeInstruction 0x50 pushFive Vm.zeroed = .ok 0 s' ∧ s'.sp = -1 ∧ s'.slots = [0] :=
  ⟨by decide, underflow_undetected (by decide), _, rfl, rfl, rfl⟩

end TinyEvm
