import TinyEvm.Vm.Jump
import TinyEvm.Vm.MemBounds

/-!
# The bounds of the code

`s_contract` is read in four places: the fetch at the loop head, the look at the byte
behind an instruction, the immediates of `PUSHn`, and the sources of `CODECOPY` and
`CALLDATACOPY`. Only the first is checked. The others leave the array when an
immediate is cut off, when `PUSHn` is the last instruction, when a jump goes to the last
byte or beyond, and when a copy is longer than the code behind its offset (a short
`CODECOPY` reads in blocks of 32).

`RoundReads` are the indices a round reads, for every word a pop outside `STACK` might
deliver and whether or not a copy finds room for what it has read. `roundReads_iff` says
for each opcode when they are in the code, and `code_reads_iff` carries it over runs.
The rounds of the model stop at the first access outside an array: one that reads
outside the code is a fault, of the code or of an array before it
(`roundReads_of_raises`, `raises_of_roundReads`).
-/

namespace TinyEvm

open Lib.Buffer Lib.Exec Lib.Loop

/-- An access outside `STACK`, `MEM` or the code. -/
def Fault.Outside (e : Fault) : Prop := (∃ i, e = .stack i) ∨ e.InMem ∨ e.InCode

/-- `w` are the lowest limbs of the words an opcode pops at `s`: those in `STACK`, and any
for a slot outside. -/
def Pops (op : OpCode) (s : Vm) (w : Nat → UInt64) : Prop :=
  ∀ k : Nat, k < op.arity → InStack (s.sp - k) → w k = s.operand k

/-- An opcode that has popped `w`, or the look behind it, reads `s_contract[i]`. `STOP`
resets `PC`, and a refused `PUSHn` reads nothing. -/
def ReadsAt (op : OpCode) (s : Vm) (w : Nat → UInt64) (i : Nat) : Prop :=
  match op with
  | .stop => i = 1
  | .push n => ¬stackSpace ≤ s.sp + (n.val + 1 : Nat) ∧
      ∃ k, k < n.val + 2 ∧ i = (s.pc + UInt32.ofNat (k + 1)).toNat
  | .jump => i = ((w 0).toUInt32 + 1).toNat
  | .jumpi => i = ((if w 1 ≠ 0 then (w 0).toUInt32 else s.pc) + 1).toNat
  | .calldatacopy => i = (s.pc + 1).toNat ∨
      (¬memorySpace < (w 0 + w 2).toNat ∧ ¬messageDataSize < (w 1 + w 2).toNat ∧
        (w 1).toNat ≤ i ∧ i < (w 1).toNat + sizeT (w 2))
  | .codecopy => i = (s.pc + 1).toNat ∨
      (¬memorySpace < (w 0).toNat ∧
        if w 2 < 100 then ∃ k, 32 * (k / 32) < (w 2).toNat ∧ i = (w 1 + UInt64.ofNat k).toNat
        else (w 1).toNat ≤ i ∧ i < (w 1).toNat + sizeT (w 2))
  | _ => i = (s.pc + 1).toNat

/-- The round at a head reads `s_contract[i]`: by the fetch, or by the instruction and the
look behind it. -/
def RoundReads (c : Code) (s : Vm) (i : Nat) : Prop :=
  (s.pc < c.sizeof - 1 ∧ ¬s.gasCharge > gasLimit ∧ i = s.pc.toNat) ∨
    ∃ b w, Decodes c c.sizeof s b ∧ Pops (OpCode.ofByte b) s w ∧ ReadsAt (OpCode.ofByte b) s w i

/-- The words for which an opcode and the look behind it read inside the code. -/
def ReadsFit (op : OpCode) (c : Code) (s : Vm) (w : Nat → UInt64) : Prop :=
  match op with
  | .push n =>
    stackSpace ≤ s.sp + (n.val + 1 : Nat) ∨ s.pc.toNat + (n.val + 1) + 1 < c.size
  | .jump => ((w 0).toUInt32 + 1).toNat < c.size
  | .jumpi => w 1 = 0 ∨ ((w 0).toUInt32 + 1).toNat < c.size
  | .calldatacopy =>
    memorySpace < (w 0 + w 2).toNat ∨ messageDataSize < (w 1 + w 2).toNat ∨
      Fits c.size (w 1).toNat (sizeT (w 2))
  | .codecopy =>
    memorySpace < (w 0).toNat ∨
      if w 2 < 100 then Fits c.size (w 1).toNat (32 * (((w 2).toNat + 31) / 32))
      else Fits c.size (w 1).toNat (sizeT (w 2))
  | _ => True

/-- The round at a head reads inside the code, whatever a pop outside `STACK` delivers. -/
def ReadsInside (c : Code) (s : Vm) : Prop :=
  ∀ b, Decodes c c.sizeof s b → ∀ w, Pops (OpCode.ofByte b) s w → ReadsFit (OpCode.ofByte b) c s w

/-! ## A round -/

/-- A fault of the instruction is one of its round. -/
theorem round_raises_of_decode {E : Fault → Prop} {c : Code} {s : Vm} {b : UInt8}
    (hb : Decodes c c.sizeof s b) (h : Raises E (decodeInstruction b c) s) :
    Raises E (executeRound c c.sizeof) s := by
  obtain ⟨e, s', hd, he⟩ := h
  exact ⟨e, s', executeRound_decode_fault hb.inside hb.paid hb.byte hd, he⟩

/-- A round reads past the code in its instruction or in the look behind it. -/
theorem round_raises_iff {c : Code} {s : Vm} {b : UInt8} (hb : Decodes c c.sizeof s b) :
    Raises Fault.InCode (executeRound c c.sizeof) s ↔
      Raises Fault.InCode (decodeInstruction b c) s ∨
      ∃ status s₁, decodeInstruction b c s = .ok status s₁ ∧ status ≠ returnStatus ∧ 0 ≤ status ∧
        c.size ≤ (s₁.pc + 1).toNat := by
  cases hd : decodeInstruction b c s with
  | error e s₁ =>
    have hround := executeRound_decode_fault hb.inside hb.paid hb.byte hd
    refine ⟨?_, ?_⟩
    · intro h
      obtain ⟨e', s₂, heq, he⟩ := h
      rw [hround] at heq
      cases heq
      exact Or.inl ⟨e, s₁, hd, he⟩
    · intro h
      rcases h with ⟨e', s₂, heq, he⟩ | ⟨status, s₂, habs, -⟩
      · rw [hd] at heq
        cases heq
        exact ⟨e, s₁, hround, he⟩
      · cases habs
  | ok status s₁ =>
    have hround := executeRound_decode hb.inside hb.paid hb.byte hd
    refine ⟨?_, ?_⟩
    · intro h
      obtain ⟨e, s₂, heq, he⟩ := h
      rw [hround, afterDecode] at heq
      split at heq
      · cases heq
      next hret =>
        split at heq
        · cases heq
        next hneg =>
          split at heq
          next hnone =>
            exact Or.inr ⟨status, s₁, rfl, hret, by omega, List.getElem?_eq_none_iff.mp hnone⟩
          next =>
            split at heq
            · cases heq
            · cases heq
    · intro h
      rcases h with hraises | ⟨status', s₂, heq, hret, hneg, hout⟩
      · exact absurd hraises (raises_of_ok hd)
      · cases heq
        refine ⟨_, s₁.next, ?_, (s₁.pc + 1).toNat, rfl⟩
        rw [hround, afterDecode, if_neg hret, if_neg (by omega)]
        have hnone : c.bytes[s₁.next.pc.toNat]? = none := List.getElem?_eq_none_iff.mpr hout
        rw [hnone]
        rfl

/-! ## The instruction -/

theorem setMemBlock_never_code (off len : Nat) (bytes : Nat → UInt8) :
    Never Fault.InCode (setMemBlock off len bytes) :=
  Never.ite (Never.update _) (Never.throw (by simp [Fault.InCode]))

/-- Only three opcodes read code. -/
theorem decode_never_code {b : UInt8} {c : Code} (hpush : ∀ n, OpCode.ofByte b ≠ .push n)
    (hdata : OpCode.ofByte b ≠ .calldatacopy) (hcode : OpCode.ofByte b ≠ .codecopy) :
    Never Fault.InCode (decodeInstruction b c) := by
  have hw := elsewhere_code.walk
  have hmem : ∀ off len, Never Fault.InCode (memBlock off len) := fun off len =>
    Never.get.bind fun _ => Never.ite (Never.pure _) (Never.throw (by simp [Fault.InCode]))
  have hset := setMemBlock_never_code
  by_cases hcomputes : (OpCode.ofByte b).computes = true
  · exact decode_computes hw c hcomputes
  · unfold decodeInstruction
    cases hop : OpCode.ofByte b with
    | stop => exact fun _ => raises_of_ok rfl
    | push n => exact absurd hop (hpush n)
    | calldatacopy => exact absurd hop hdata
    | codecopy => exact absurd hop hcode
    | jump => exact hw.opJump fun f => Never.update _
    | jumpi => exact hw.opJumpi fun f => Never.update _
    | sha3 =>
      exact hw.opSha3 (fun _ => Never.throw (by simp [Fault.InCode])) (fun _ => raises_of_ok rfl) hmem
    | mload => exact hw.opMload hmem
    | mstore => exact hw.opMstore hset fun f => Never.update _
    | mstore8 => exact hw.opMstore8 hset
    | sload =>
      exact hw.opSload (fun hf => Never.get.bind fun s => hf s.storage)
        fun _ => Never.throw (by simp [Fault.InCode])
    | sstore =>
      exact hw.opSstore (Never.update _) (fun _ _ => Never.update _)
        fun _ => Never.throw (by simp [Fault.InCode])
    | ret =>
      exact hw.opReturn hmem (fun _ => Never.update _) (fun _ _ => Never.update _)
        fun _ => Never.throw (by simp [Fault.InCode])
    | revert => exact hw.opRevert hmem
    | _ => exact absurd (by rw [hop]; rfl) hcomputes

/-- `PUSHn` reads past the code exactly when it is not refused and its immediate is cut
off. -/
theorem opPush_raises {c : Code} {s : Vm} {n : Nat} (h1 : 1 ≤ n) (hn : n ≤ 32) :
    Raises Fault.InCode (opPush c n) s ↔
      ¬stackSpace ≤ s.sp + n ∧ ¬ImmediateInside c s.pc n := by
  by_cases hfull : stackSpace ≤ s.sp + n
  · exact ⟨fun h => absurd h (raises_of_ok (opPush_refused h1 hn hfull)), fun h => absurd hfull h.1⟩
  · obtain ⟨read, hread, hbytes, hfaults⟩ := opPush_eq c h1 hn
    have hrun : Raises Fault.InCode (opPush c n) s ↔ Raises Fault.InCode
        (read >>= fun word => setStackAt (s.sp + 1) word >>= fun _ =>
          charge gasTable.stepGas2 >>= fun _ => (pure 0 : VmM Int)) { s with sp := s.sp + 1 } := by
      unfold Raises
      rw [hread, pushImmediate, get_bind, if_neg hfull]
      exact Iff.rfl
    rw [hrun, raises_bind_never fun w => (elsewhere_code.setStackAt _ w).bind fun _ =>
      elsewhere_code.walk.paid _]
    refine ⟨?_, ?_⟩
    · intro hraises
      refine ⟨hfull, fun hinside => ?_⟩
      obtain ⟨w, hok⟩ := (hbytes { s with sp := s.sp + 1 }).1 hinside
      exact raises_of_ok hok hraises
    · intro h
      cases hr : read { s with sp := s.sp + 1 } with
      | ok w s₁ => exact absurd ((hbytes _).2 w s₁ hr).1 h.2
      | error e s₁ =>
        refine ⟨e, s₁, hr, ?_⟩
        by_contra hcode
        exact hfaults _ ⟨e, s₁, hr, fun i hi => hcode ⟨i, hi⟩⟩

theorem copy_raises_code {c : Code} {s : Vm} {off len dest : Nat} {f : Unit → VmM Int}
    (hf : ∀ a, Never Fault.InCode (f a)) :
    Raises Fault.InCode (codeBlock c off len >>= fun bytes => setMemBlock dest len bytes >>= f) s ↔
      ¬Fits c.size off len := by
  by_cases h : Fits c.size off len
  · rw [raises_bind_ok (codeBlock_inside h)]
    exact ⟨fun hraises => absurd hraises ((setMemBlock_never_code _ _ _).bind hf s),
      fun habs => absurd h habs⟩
  · rw [raises_bind_error (codeBlock_outside h)]
    exact ⟨fun _ => h, fun _ => ⟨_, rfl⟩⟩

theorem opCalldatacopy_raises_code {c : Code} {s : Vm} :
    Raises Fault.InCode (opCalldatacopy c) s ↔
      OperandsInside .calldatacopy s ∧ ¬ReadsFit .calldatacopy c s s.operand := by
  have hpaid := elsewhere_code.walk.paid
  rw [operandsInside_three rfl, ReadsFit, not_or, not_or, and_assoc, and_assoc]
  unfold opCalldatacopy
  rw [elsewhere_code.raises_popLow₃]
  refine and_congr_right fun _ => and_congr_right fun _ => and_congr_right fun _ => ?_
  rw [raises_ite_left (hpaid _)]
  refine and_congr_right fun _ => ?_
  rw [raises_ite_left (hpaid _), copy_raises_code fun _ => (Never.update _).bind fun _ => hpaid _]

/-- A short copy reads whole blocks of 32. -/
theorem blocks_inside_iff {c : Code} {offset : UInt64} {len : Nat} (hlen : len < 100) :
    (∀ k, 32 * (k / 32) < len → ByteInside c offset k) ↔
      Fits c.size offset.toNat (32 * ((len + 31) / 32)) := by
  have hsize : c.size < 2 ^ 32 := c.size_lt
  -- nothing wraps: the first byte of the code is far from `2 ^ 64`
  have hbyte : offset.toNat < c.size → ∀ k, k < 128 →
      (ByteInside c offset k ↔ offset.toNat + k < c.size) := by
    intro hoffset k hk
    unfold ByteInside
    rw [UInt64.toNat_add, UInt64.toNat_ofNat', Nat.mod_eq_of_lt (by omega), Nat.mod_eq_of_lt (by omega)]
  refine ⟨?_, ?_⟩
  · intro h
    by_cases hzero : len = 0
    · exact Or.inl (by omega)
    · have hfirst := h 0 (by omega)
      have hoffset : offset.toNat < c.size := by
        unfold ByteInside at hfirst
        rwa [show UInt64.ofNat 0 = 0 from rfl, UInt64.add_zero] at hfirst
      have hlast := (hbyte hoffset (32 * ((len + 31) / 32) - 1) (by omega)).mp (h _ (by omega))
      exact Or.inr (by omega)
  · intro h k hk
    have hroom : offset.toNat + 32 * ((len + 31) / 32) ≤ c.size := h.resolve_left (by omega)
    exact (hbyte (by omega) k (by omega)).mpr (by omega)

/-- `CODECOPY` reads past the code, or it does not get to it: then the eight bytes it writes
for the first block are outside `MEM`. -/
theorem opCodecopy_raises_code {c : Code} {s : Vm} :
    (Raises Fault.InCode (opCodecopy c) s →
      OperandsInside .codecopy s ∧ ¬ReadsFit .codecopy c s s.operand) ∧
    (OperandsInside .codecopy s → ¬ReadsFit .codecopy c s s.operand →
      Raises Fault.InCode (opCodecopy c) s ∨ Raises Fault.InMem (opCodecopy c) s) := by
  have hpaid := elsewhere_code.walk.paid
  have hcode : Raises Fault.InCode (opCodecopy c) s ↔
      InStack s.sp ∧ InStack (s.sp - 1) ∧ InStack (s.sp - 1 - 1) ∧
      ¬memorySpace < (s.operand 0).toNat ∧
      if s.operand 2 < 100 then
        ∃ k : Nat, 32 * (k / 32) < (s.operand 2).toNat ∧
          ((s.operand 0).toNat + 8 ≤ memorySpace ∨ k < 32) ∧ ¬ByteInside c (s.operand 1) k
      else ¬Fits c.size (s.operand 1).toNat (sizeT (s.operand 2)) := by
    unfold opCodecopy
    rw [elsewhere_code.raises_popLow₃]
    refine and_congr_right fun _ => and_congr_right fun _ => and_congr_right fun _ => ?_
    rw [raises_ite_left (hpaid _)]
    refine and_congr_right fun _ => ?_
    by_cases hshort : s.operand 2 < 100
    · rw [if_pos hshort, if_pos hshort, raises_modify, raises_bind_never fun _ => hpaid _,
        raises_code_codecopyLoop c _ _ _ _ _ (Int.le_refl _)]
      simp only [Int.ofNat_lt]
    · rw [if_neg hshort, if_neg hshort]
      exact copy_raises_code fun _ => hpaid _
  rw [operandsInside_three rfl, ReadsFit, not_or, hcode, opCodecopy_raises]
  by_cases hshort : s.operand 2 < 100
  · rw [if_pos hshort, if_pos hshort, if_pos hshort,
      ← blocks_inside_iff (UInt64.lt_iff_toNat_lt.mp hshort)]
    refine ⟨?_, ?_⟩
    · intro h
      obtain ⟨h₀, h₁, h₂, hcheck, k, hk, -, hout⟩ := h
      exact ⟨⟨h₀, h₁, h₂⟩, hcheck, fun hall => hout (hall k hk)⟩
    · intro hin h
      obtain ⟨hcheck, hout⟩ := h
      rw [not_forall] at hout
      obtain ⟨k, hk⟩ := hout
      rw [Classical.not_imp] at hk
      by_cases hfirst : ∀ j < 32, ByteInside c (s.operand 1) j
      · by_cases hroom : (s.operand 0).toNat + 8 ≤ memorySpace
        · exact Or.inl ⟨hin.1, hin.2.1, hin.2.2, hcheck, k, hk.1, Or.inl hroom, hk.2⟩
        · refine Or.inr ⟨hin.1, hin.2.1, hin.2.2, hcheck, ?_, hroom, hfirst⟩
          intro hzero
          have hnone : (s.operand 2).toNat = 0 := by
            rw [hzero]
            rfl
          omega
      · rw [not_forall] at hfirst
        obtain ⟨j, hj⟩ := hfirst
        rw [Classical.not_imp] at hj
        exact Or.inl ⟨hin.1, hin.2.1, hin.2.2, hcheck, j, by omega, Or.inr hj.1, hj.2⟩
  · rw [if_neg hshort, if_neg hshort, if_neg hshort]
    exact ⟨fun h => ⟨⟨h.1, h.2.1, h.2.2.1⟩, h.2.2.2⟩,
      fun hin h => Or.inl ⟨hin.1, hin.2.1, hin.2.2, h⟩⟩

/-! ## Every opcode -/

/-- The byte behind a head is inside the code. -/
theorem next_inside {c : Code} {s : Vm} {b : UInt8} (hn : 1 ≤ c.size)
    (hb : Decodes c c.sizeof s b) : (s.pc + 1).toNat < c.size := by
  have hlt := (lt_sizeof_iff hn).mp hb.inside
  have hsize := c.size_lt
  rw [UInt32.toNat_add]
  show (s.pc.toNat + 1) % 2 ^ 32 < c.size
  rw [Nat.mod_eq_of_lt (by unfold Code.size at hlt; omega)]
  exact hlt

/-- The instruction `b` or the look behind it reads past the code. -/
def ReadsPast (b : UInt8) (c : Code) (s : Vm) : Prop :=
  Raises Fault.InCode (decodeInstruction b c) s ∨
    ∃ status s₁, decodeInstruction b c s = .ok status s₁ ∧ status ≠ returnStatus ∧ 0 ≤ status ∧
      c.size ≤ (s₁.pc + 1).toNat

/-- For an opcode that leaves `PC` alone only the instruction counts. -/
theorem readsPast_iff_raises {c : Code} {s : Vm} {b : UInt8} (hn : 1 ≤ c.size)
    (hb : Decodes c c.sizeof s b) (hpc : (OpCode.ofByte b).setsPc = false) :
    ReadsPast b c s ↔ Raises Fault.InCode (decodeInstruction b c) s := by
  refine ⟨?_, Or.inl⟩
  intro h
  rcases h with hraises | ⟨status, s₁, hrun, -, -, hout⟩
  · exact hraises
  · have hin := next_inside hn hb
    rw [decode_pc hpc hrun] at hout
    omega

theorem push_readsPast {c : Code} {s : Vm} {b : UInt8} {n : Fin 32} (hn : 1 ≤ c.size)
    (hb : Decodes c c.sizeof s b) (hop : OpCode.ofByte b = .push n) :
    (ReadsPast b c s → ¬ReadsFit (.push n) c s s.operand) ∧
    (¬ReadsFit (.push n) c s s.operand →
      ReadsPast b c s ∨ Raises Fault.Outside (decodeInstruction b c) s) := by
  have hdec : decodeInstruction b c = opPush c (n.val + 1) := by
    unfold decodeInstruction
    rw [hop]
  have hpc := (lt_sizeof_iff hn).mp hb.inside
  have hsize := c.size_lt
  have himm : ImmediateInside c s.pc (n.val + 1) ↔ s.pc.toNat + (n.val + 1) < c.size :=
    immediateInside_iff (by omega)
  -- where `PUSHn` leaves `PC` when it has read its immediate
  have hnext : s.pc.toNat + (n.val + 1) < c.size →
      (s.pc + UInt32.ofNat (n.val + 1) + 1).toNat = s.pc.toNat + (n.val + 1) + 1 := by
    intro hin
    unfold Code.size at hin
    rw [UInt32.toNat_add, UInt32.toNat_add, UInt32.toNat_ofNat', show (1 : UInt32).toNat = 1 from rfl]
    omega
  have hmax : (stackSpace : Int) = 96 := rfl
  unfold ReadsPast ReadsFit
  rw [hdec, opPush_raises (by omega) (by omega), himm]
  refine ⟨?_, ?_⟩
  · intro h
    rcases h with ⟨hroom, hcut⟩ | ⟨status, s₁, hrun, -, hstatus, hout⟩
    · intro hfit
      rcases hfit with hfull | hin
      · exact hroom hfull
      · exact hcut (by omega)
    · rcases opPush_cases (by omega) (by omega) hrun with
        ⟨hneg, -⟩ | ⟨-, hroom, hsp, hin, w, rfl⟩
      · omega
      · have heq := hnext (himm.mp hin)
        have hout' : c.size ≤ (s.pc + UInt32.ofNat (n.val + 1) + 1).toNat := hout
        omega
  · intro hfit
    rw [not_or] at hfit
    obtain ⟨hroom, hlook⟩ := hfit
    by_cases hin : s.pc.toNat + (n.val + 1) < c.size
    · by_cases hlow : -1 ≤ s.sp
      · left
        right
        obtain ⟨w, hrun⟩ := opPush_accepts (c := c) (s := s) (n := n.val + 1) (by omega) (by omega)
          (by omega) hlow (himm.mpr hin)
        refine ⟨0, _, hrun, by decide, by decide, ?_⟩
        show c.size ≤ (s.pc + UInt32.ofNat (n.val + 1) + 1).toNat
        rw [hnext hin]
        omega
      · right
        obtain ⟨s₁, hrun⟩ := opPush_below (c := c) (s := s) (n := n.val + 1) (by omega) (by omega)
          (by omega) (by omega) (himm.mpr hin)
        exact ⟨_, s₁, hrun, Or.inl ⟨_, rfl⟩⟩
    · exact Or.inl (Or.inl ⟨hroom, hin⟩)

theorem jump_readsPast_iff {c : Code} {s : Vm} {b : UInt8} (hop : OpCode.ofByte b = .jump) :
    ReadsPast b c s ↔ OperandsInside .jump s ∧ ¬ReadsFit .jump c s s.operand := by
  have hdec : decodeInstruction b c = opJump := by
    unfold decodeInstruction
    rw [hop]
  have hnever : Never Fault.InCode opJump := elsewhere_code.walk.opJump fun f => Never.update _
  unfold ReadsPast ReadsFit
  rw [hdec, operandsInside_one rfl, ← operand_zero, Nat.not_lt]
  refine ⟨?_, ?_⟩
  · intro h
    rcases h with hraises | ⟨status, s₁, hrun, -, -, hout⟩
    · exact absurd hraises (hnever s)
    · by_cases hin : InStack s.sp
      · rw [opJump_ok hin] at hrun
        cases hrun
        exact ⟨hin, hout⟩
      · have hfault : opJump s = .error (.stack s.sp) s :=
          bind_error (bind_error (stackPop_fault hin) _) _
        rw [hfault] at hrun
        cases hrun
  · intro h
    exact Or.inr ⟨0, _, opJump_ok h.1, by decide, by decide, h.2⟩

theorem jumpi_readsPast_iff {c : Code} {s : Vm} {b : UInt8} (hn : 1 ≤ c.size)
    (hb : Decodes c c.sizeof s b) (hop : OpCode.ofByte b = .jumpi) :
    ReadsPast b c s ↔ OperandsInside .jumpi s ∧ ¬ReadsFit .jumpi c s s.operand := by
  have hdec : decodeInstruction b c = opJumpi := by
    unfold decodeInstruction
    rw [hop]
  have hnever : Never Fault.InCode opJumpi := elsewhere_code.walk.opJumpi fun f => Never.update _
  have hnext := next_inside hn hb
  unfold ReadsPast ReadsFit
  rw [hdec, operandsInside_two rfl, ← operand_zero, ← operand_one, not_or, Nat.not_lt]
  refine ⟨?_, ?_⟩
  · intro h
    rcases h with hraises | ⟨status, s₁, hrun, -, -, hout⟩
    · exact absurd hraises (hnever s)
    · obtain ⟨destination, s₂, h₁, hrest⟩ := bind_eq_ok.mp hrun
      obtain ⟨cond, s₃, h₂, -⟩ := bind_eq_ok.mp hrest
      obtain ⟨hin, -, rfl⟩ := stackPopLow_returns h₁
      obtain ⟨hin', -, -⟩ := stackPopLow_returns h₂
      rw [opJumpi_ok hin hin'] at hrun
      cases hrun
      have hout' : c.size ≤ ((if (s.slot (s.sp - 1)).lower.lower ≠ 0
          then (s.slot s.sp).lower.lower.toUInt32 else s.pc) + 1).toNat := hout
      refine ⟨⟨hin, hin'⟩, ?_⟩
      by_cases hcond : (s.slot (s.sp - 1)).lower.lower ≠ 0
      · rw [if_pos hcond] at hout'
        exact ⟨hcond, hout'⟩
      · rw [if_neg hcond] at hout'
        omega
  · intro h
    obtain ⟨⟨hin, hin'⟩, hcond, hout⟩ := h
    have hcond' : (s.slot (s.sp - 1)).lower.lower ≠ 0 := hcond
    have hout' : c.size ≤ ((if (s.slot (s.sp - 1)).lower.lower ≠ 0
        then (s.slot s.sp).lower.lower.toUInt32 else s.pc) + 1).toNat := by
      rw [if_pos hcond']
      exact hout
    exact Or.inr ⟨0, _, opJumpi_ok hin hin', by decide, by decide, hout'⟩

/-- What an instruction reads past the code, it reads for words it may have popped. -/
theorem not_fit_of_readsPast {c : Code} {s : Vm} {b : UInt8} (hn : 1 ≤ c.size)
    (hb : Decodes c c.sizeof s b) (h : ReadsPast b c s) :
    ¬ReadsFit (OpCode.ofByte b) c s s.operand := by
  cases hop : OpCode.ofByte b with
  | push n => exact (push_readsPast hn hb hop).1 h
  | jump => exact ((jump_readsPast_iff hop).mp h).2
  | jumpi => exact ((jumpi_readsPast_iff hn hb hop).mp h).2
  | calldatacopy =>
    rw [readsPast_iff_raises hn hb (by rw [hop]; rfl)] at h
    unfold decodeInstruction at h
    rw [hop] at h
    exact (opCalldatacopy_raises_code.mp h).2
  | codecopy =>
    rw [readsPast_iff_raises hn hb (by rw [hop]; rfl)] at h
    unfold decodeInstruction at h
    rw [hop] at h
    exact (opCodecopy_raises_code.1 h).2
  | stop =>
    have hpc := (lt_sizeof_iff hn).mp hb.inside
    rcases h with hraises | ⟨status, s₁, hrun, -, -, hout⟩
    · exact absurd hraises (raises_of_ok (decode_stop hop))
    · rw [decode_stop hop] at hrun
      cases hrun
      have hout' : c.size ≤ 1 := hout
      omega
  | _ =>
    rw [readsPast_iff_raises hn hb (by rw [hop]; rfl)] at h
    have hnever := decode_never_code (b := b) (c := c) (by rw [hop]; exact nofun)
      (by rw [hop]; exact nofun) (by rw [hop]; exact nofun)
    exact absurd h (hnever s)

theorem raises_popLow_missing {s : Vm} {f : UInt64 → VmM Int} (h : ¬InStack s.sp) :
    Raises Fault.Outside (stackPopLow >>= f) s :=
  ⟨_, _, bind_error (stackPopLow_fault h) _, Or.inl ⟨_, rfl⟩⟩

theorem raises_popLow₂_missing {s : Vm} {f : UInt64 → UInt64 → VmM Int}
    (h : ¬(InStack s.sp ∧ InStack (s.sp - 1))) :
    Raises Fault.Outside (stackPopLow >>= fun a => stackPopLow >>= fun b => f a b) s := by
  by_cases htop : InStack s.sp
  · rw [raises_bind_ok (stackPopLow_ok htop)]
    exact raises_popLow_missing fun hsecond => h ⟨htop, hsecond⟩
  · exact raises_popLow_missing htop

theorem raises_popLow₃_missing {s : Vm} {f : UInt64 → UInt64 → UInt64 → VmM Int}
    (h : ¬(InStack s.sp ∧ InStack (s.sp - 1) ∧ InStack (s.sp - 1 - 1))) :
    Raises Fault.Outside
      (stackPopLow >>= fun a => stackPopLow >>= fun b => stackPopLow >>= fun c => f a b c) s := by
  by_cases htop : InStack s.sp
  · rw [raises_bind_ok (stackPopLow_ok htop)]
    exact raises_popLow₂_missing fun hrest => h ⟨htop, hrest⟩
  · exact raises_popLow_missing htop

/-- A pop outside `STACK` is a fault of the round. -/
theorem raises_of_missing {c : Code} {s : Vm} {b : UInt8} (hb : Decodes c c.sizeof s b)
    (hin : ¬OperandsInside (OpCode.ofByte b) s)
    (hop : OpCode.ofByte b = .jump ∨ OpCode.ofByte b = .jumpi ∨ OpCode.ofByte b = .calldatacopy ∨
      OpCode.ofByte b = .codecopy) : Raises Fault.Outside (executeRound c c.sizeof) s := by
  refine round_raises_of_decode hb ?_
  unfold decodeInstruction
  rcases hop with hop | hop | hop | hop
  · rw [hop, operandsInside_one rfl] at hin
    rw [hop]
    exact raises_popLow_missing hin
  · rw [hop, operandsInside_two rfl] at hin
    rw [hop]
    exact raises_popLow₂_missing hin
  · rw [hop, operandsInside_three rfl] at hin
    rw [hop]
    exact raises_popLow₃_missing hin
  · rw [hop, operandsInside_three rfl] at hin
    rw [hop]
    exact raises_popLow₃_missing hin

/-- An instruction whose words do not fit is a fault of its round. -/
theorem raises_of_not_fit {c : Code} {s : Vm} {b : UInt8} {w : Nat → UInt64} (hn : 1 ≤ c.size)
    (hb : Decodes c c.sizeof s b) (hw : Pops (OpCode.ofByte b) s w)
    (hfit : ¬ReadsFit (OpCode.ofByte b) c s w) :
    Raises Fault.Outside (executeRound c c.sizeof) s := by
  have hpast : ReadsPast b c s → Raises Fault.Outside (executeRound c c.sizeof) s := fun h =>
    ((round_raises_iff hb).mpr h).mono fun _ he => Or.inr (Or.inr he)
  by_cases hin : OperandsInside (OpCode.ofByte b) s
  · have hsame : ∀ k, k < (OpCode.ofByte b).arity → w k = s.operand k := fun k hk => hw k hk (hin k hk)
    cases hop : OpCode.ofByte b with
    | push n =>
      rw [hop] at hfit
      rcases (push_readsPast hn hb hop).2 hfit with h | h
      · exact hpast h
      · exact round_raises_of_decode hb h
    | jump =>
      rw [hop] at hin hfit hsame
      refine hpast ((jump_readsPast_iff hop).mpr ⟨hin, ?_⟩)
      rwa [ReadsFit, ← hsame 0 (by decide)]
    | jumpi =>
      rw [hop] at hin hfit hsame
      refine hpast ((jumpi_readsPast_iff hn hb hop).mpr ⟨hin, ?_⟩)
      rwa [ReadsFit, ← hsame 0 (by decide), ← hsame 1 (by decide)]
    | calldatacopy =>
      rw [hop] at hin hfit hsame
      refine hpast ((readsPast_iff_raises hn hb (by rw [hop]; rfl)).mpr ?_)
      unfold decodeInstruction
      rw [hop]
      refine opCalldatacopy_raises_code.mpr ⟨hin, ?_⟩
      rwa [ReadsFit, ← hsame 0 (by decide), ← hsame 1 (by decide), ← hsame 2 (by decide)]
    | codecopy =>
      rw [hop] at hin hfit hsame
      have hfit' : ¬ReadsFit .codecopy c s s.operand := by
        rwa [ReadsFit, ← hsame 0 (by decide), ← hsame 1 (by decide), ← hsame 2 (by decide)]
      refine round_raises_of_decode hb ?_
      unfold decodeInstruction
      rw [hop]
      rcases opCodecopy_raises_code.2 hin hfit' with hcode | hmem
      · exact hcode.mono fun _ he => Or.inr (Or.inr he)
      · exact hmem.mono fun _ he => Or.inr (Or.inl he)
    | _ =>
      rw [hop] at hfit
      exact absurd trivial hfit
  · refine raises_of_missing hb hin ?_
    cases hop : OpCode.ofByte b with
    | jump => exact Or.inl rfl
    | jumpi => exact Or.inr (Or.inl rfl)
    | calldatacopy => exact Or.inr (Or.inr (Or.inl rfl))
    | codecopy => exact Or.inr (Or.inr (Or.inr rfl))
    | push n =>
      rw [hop] at hin
      exact absurd (fun k hk => absurd hk (Nat.not_lt_zero k)) hin
    | _ =>
      rw [hop] at hfit
      exact absurd trivial hfit

/-! ## The indices a round reads -/

/-- The indices that an opcode and the look behind it read are in the code exactly when the
words fit. -/
theorem readsAt_iff {c : Code} {s : Vm} {b : UInt8} {w : Nat → UInt64} (hn : 1 ≤ c.size)
    (hb : Decodes c c.sizeof s b) :
    (∀ i, ReadsAt (OpCode.ofByte b) s w i → i < c.size) ↔ ReadsFit (OpCode.ofByte b) c s w := by
  have hpc := (lt_sizeof_iff hn).mp hb.inside
  have hnext := next_inside hn hb
  have hblock : ∀ {off len : Nat},
      (∀ i, off ≤ i ∧ i < off + len → i < c.size) ↔ Fits c.size off len := by
    intro off len
    rw [fits_iff_forall]
    exact forall_congr' fun i => and_imp
  cases hop : OpCode.ofByte b with
  | stop =>
    refine ⟨fun _ => trivial, ?_⟩
    rintro - i rfl
    omega
  | push n =>
    have himm : (∀ k, k < n.val + 2 → (s.pc + UInt32.ofNat (k + 1)).toNat < c.size) ↔
        s.pc.toNat + (n.val + 2) < c.size := immediateInside_iff (by omega)
    simp only [ReadsAt]
    rw [ReadsFit, or_iff_not_imp_left]
    refine ⟨?_, ?_⟩
    · intro h hroom
      have hlast := himm.mp fun k hk => h _ ⟨hroom, k, hk, rfl⟩
      omega
    · rintro hfit i ⟨hroom, k, hk, rfl⟩
      have hlast := hfit hroom
      exact himm.mpr (by omega) k hk
  | jump => exact forall_eq
  | jumpi =>
    refine forall_eq.trans ?_
    unfold ReadsFit
    by_cases hcond : w 1 = 0
    · rw [if_neg (not_not.mpr hcond)]
      exact ⟨fun _ => Or.inl hcond, fun _ => hnext⟩
    · rw [if_pos hcond, or_iff_right hcond]
  | calldatacopy =>
    simp only [ReadsAt]
    rw [ReadsFit, or_iff_not_imp_left, or_iff_not_imp_left]
    refine ⟨?_, ?_⟩
    · intro h hdest hdata
      exact hblock.mp fun i hi => h i (Or.inr ⟨hdest, hdata, hi⟩)
    · intro h i hi
      rcases hi with rfl | ⟨hdest, hdata, hi⟩
      · exact hnext
      · exact hblock.mpr (h hdest hdata) i hi
  | codecopy =>
    simp only [ReadsAt]
    rw [ReadsFit, or_iff_not_imp_left]
    by_cases hshort : w 2 < 100
    · simp only [if_pos hshort]
      rw [← blocks_inside_iff (UInt64.lt_iff_toNat_lt.mp hshort)]
      refine ⟨?_, ?_⟩
      · intro h hdest k hk
        exact h _ (Or.inr ⟨hdest, k, hk, rfl⟩)
      · intro h i hi
        rcases hi with rfl | ⟨hdest, k, hk, rfl⟩
        · exact hnext
        · exact h hdest k hk
    · simp only [if_neg hshort]
      refine ⟨?_, ?_⟩
      · intro h hdest
        exact hblock.mp fun i hi => h i (Or.inr ⟨hdest, hi⟩)
      · intro h i hi
        rcases hi with rfl | ⟨hdest, hi⟩
        · exact hnext
        · exact hblock.mpr (h hdest) i hi
  | _ =>
    refine ⟨fun _ => trivial, ?_⟩
    rintro - i rfl
    exact hnext

/-- **One round** reads inside the code exactly when its instruction fits. -/
theorem roundReads_iff {c : Code} {s : Vm} (hn : 1 ≤ c.size) :
    (∀ i, RoundReads c s i → i < c.size) ↔ ReadsInside c s := by
  refine ⟨?_, ?_⟩
  · intro h b hb w hw
    exact (readsAt_iff hn hb).mp fun i hi => h i (Or.inr ⟨b, w, hb, hw, hi⟩)
  · intro h i hi
    rcases hi with ⟨hinside, -, rfl⟩ | ⟨b, w, hb, hw, hi⟩
    · have hpc := (lt_sizeof_iff hn).mp hinside
      omega
    · exact (readsAt_iff hn hb).mpr (h b hb w hw) i hi

/-- The index at which a round of the model leaves the code is one of those it reads. -/
theorem roundReads_of_raises {c : Code} {s : Vm} (hn : 1 ≤ c.size)
    (h : Raises Fault.InCode (executeRound c c.sizeof) s) :
    ∃ i, RoundReads c s i ∧ c.size ≤ i := by
  by_contra hnone
  have hinside : ReadsInside c s := (roundReads_iff hn).mp fun i hi => by
    by_contra hout
    exact hnone ⟨i, hi, Nat.not_lt.mp hout⟩
  by_cases hdec : ∃ b, Decodes c c.sizeof s b
  · obtain ⟨b, hb⟩ := hdec
    exact not_fit_of_readsPast hn hb ((round_raises_iff hb).mp h) (hinside b hb _ fun _ _ _ => rfl)
  -- no instruction is decoded: the loop is left at its head, and the fetch is inside
  · by_cases hpc : s.pc < c.sizeof - 1
    · by_cases hgas : s.gasCharge > gasLimit
      · exact raises_of_ok (executeRound_outOfGas hpc hgas) h
      · have hlt := (lt_sizeof_iff hn).mp hpc
        have hbyte := List.getElem?_eq_getElem (l := c.bytes) (i := s.pc.toNat)
          (by unfold Code.size at hlt; omega)
        exact hdec ⟨_, hpc, hgas, hbyte⟩
    · exact raises_of_ok (executeRound_endOfCode hpc) h

/-- A round that reads outside the code is a fault, of the code or before it. -/
theorem raises_of_roundReads {c : Code} {s : Vm} {i : Nat} (hn : 1 ≤ c.size)
    (h : RoundReads c s i) (hout : c.size ≤ i) : Raises Fault.Outside (executeRound c c.sizeof) s := by
  rcases h with ⟨hinside, -, rfl⟩ | ⟨b, w, hb, hw, hi⟩
  · have hpc := (lt_sizeof_iff hn).mp hinside
    omega
  · refine raises_of_not_fit hn hb hw fun hfit => ?_
    have hin := (readsAt_iff hn hb).mpr hfit i hi
    omega

/-- **The code is read inside its bounds** in a run exactly when each instruction the
run decodes reads inside them, together with the look behind it; and an index outside is
read by exactly such rounds as the model ends in a fault. -/
theorem code_reads_iff {c : Code} (hn : 1 ≤ c.size) (vm : Vm) :
    ((∀ s, Reaches (executeRound c c.sizeof) (after (initMachine vm)) s →
        ∀ i, RoundReads c s i → i < c.size) ↔
      ∀ s, Reaches (executeRound c c.sizeof) (after (initMachine vm)) s → ReadsInside c s) ∧
    ∀ s, Reaches (executeRound c c.sizeof) (after (initMachine vm)) s →
      (Raises Fault.InCode (executeRound c c.sizeof) s → ∃ i, RoundReads c s i ∧ c.size ≤ i) ∧
      ((∃ i, RoundReads c s i ∧ c.size ≤ i) → Raises Fault.Outside (executeRound c c.sizeof) s) := by
  refine ⟨⟨?_, ?_⟩, ?_⟩
  · intro hsafe s hreach
    exact (roundReads_iff hn).mp (hsafe s hreach)
  · intro hinside s hreach
    exact (roundReads_iff hn).mpr (hinside s hreach)
  · intro s _
    refine ⟨roundReads_of_raises hn, ?_⟩
    intro h
    obtain ⟨i, hi, hout⟩ := h
    exact raises_of_roundReads hn hi hout

/-- The heads of `PUSH1 3 JUMP JUMPDEST STOP` read inside. -/
theorem hop_readsInside {s : Vm}
    (h : Reaches (executeRound hop hop.sizeof) (after (initMachine Vm.zeroed)) s) :
    ReadsInside hop s := by
  intro b hb w hw
  rcases hop_heads h with rfl | rfl
  · obtain rfl : 0x60 = b := Option.some.inj hb.byte
    exact Or.inr (by decide)
  · obtain rfl : 0x56 = b := Option.some.inj hb.byte
    have hdest : w 0 = atHop.operand 0 := hw 0 (by decide) (by decide)
    show ((w 0).toUInt32 + 1).toNat < hop.size
    rw [hdest]
    decide

/-- Its jump looks at the last byte, and its round stays inside. -/
theorem code_reads_iff_hop : RoundReads hop atHop 4 ∧
    ¬Raises Fault.InCode (executeRound hop hop.sizeof) atHop := by
  have hreach : Reaches (executeRound hop hop.sizeof) (after (initMachine Vm.zeroed)) atHop :=
    Relation.ReflTransGen.single rfl
  have hinside := (code_reads_iff (c := hop) (by decide) Vm.zeroed).1.mpr fun _ => hop_readsInside
  have hlook : (4 : Nat) = ((atHop.operand 0).toUInt32 + 1).toNat := by decide
  refine ⟨Or.inr ⟨0x56, atHop.operand, atHop_decodes, fun _ _ _ => rfl, hlook⟩, ?_⟩
  intro h
  obtain ⟨i, hi, hout⟩ := ((code_reads_iff (c := hop) (by decide) Vm.zeroed).2 atHop hreach).1 h
  have hlt := hinside atHop hreach i hi
  omega

/-- `PUSH1 5` and nothing behind it: the look for `STOP` reads byte 2 of 2. -/
def cutShort : Code := ⟨[0x60, 0x05], by decide⟩

theorem code_reads_fails : ∃ s, Reaches (executeRound cutShort cutShort.sizeof)
      (after (initMachine Vm.zeroed)) s ∧ RoundReads cutShort s cutShort.size ∧
    Raises Fault.InCode (executeRound cutShort cutShort.sizeof) s := by
  refine ⟨_, Relation.ReflTransGen.refl, Or.inr ⟨0x60, fun _ => 0, ⟨by decide, by decide, rfl⟩, ?_, ?_⟩,
    _, _, rfl, 2, rfl⟩
  · exact fun k hk => absurd hk (Nat.not_lt_zero k)
  · exact ⟨by decide, 1, by decide, by decide⟩

end TinyEvm
