import TinyEvm.Vm.Faults

/-!
# The bounds of memory

Seven opcodes index `MEM` with operands from the stack, and they check their range in
four ways: `MLOAD`, `MSTORE`, `MSTORE8`, `SHA3` and `REVERT` compare the offset alone
with `MEMORY_SPACE`, by `>`; `CALLDATACOPY` compares a 64-bit sum that can wrap;
`CODECOPY` compares the offset and, for a short copy, writes eight bytes there whatever
the length. None of the checks covers the range that is accessed.

`OpCode.memBlocks` are the blocks an opcode accesses for the words it has popped,
wherever these came from and whatever a copy finds at its source: one `memcpy` names
both of its ends. `memSafe_iff` says for which words they all lie in `MEM`, and that
`decode_instruction` faults in `MEM` for exactly the others, unless a copy has faulted
at its source before.
-/

namespace TinyEvm

open Lib.Buffer Lib.Exec

/-- The lowest limb of the operand `k` below the top. -/
def Vm.operand (s : Vm) (k : Nat) : UInt64 := (s.slot (s.sp - k)).lower.lower

/-- The operands of an opcode are in slots of `STACK`. -/
def OperandsInside (op : OpCode) (s : Vm) : Prop := ∀ k : Nat, k < op.arity → InStack (s.sp - k)

/-- The opcodes that access `MEM` and do not return. -/
def OpCode.touchesMem : OpCode → Bool
  | mload | mstore | mstore8 | sha3 | calldatacopy | codecopy | revert => true
  | _ => false

/-- The blocks of `MEM`, as first index and length, that an opcode accesses when it has
popped words with the lowest limbs `w 0`, `w 1` and so on. For every 32 bytes of code a
short `CODECOPY` writes the same eight bytes four times. -/
def OpCode.memBlocks (op : OpCode) (w : Nat → UInt64) : List (Nat × Nat) :=
  match op with
  | mload | mstore => if (w 0).toNat > memorySpace then [] else [((w 0).toNat, 32)]
  | mstore8 => if (w 0).toNat > memorySpace then [] else [((w 0).toNat, 1)]
  | sha3 =>
    if w 1 > 256 then []
    else if (w 0).toNat > memorySpace then []
    else [((w 0).toNat, (w 1).toNat)]
  | calldatacopy =>
    if (w 0 + w 2).toNat > memorySpace then []
    else if (w 1 + w 2).toNat > messageDataSize then []
    else [((w 0).toNat, sizeT (w 2))]
  | codecopy =>
    if (w 0).toNat > memorySpace then []
    else if w 2 < 100 then List.replicate (4 * (((w 2).toNat + 31) / 32)) ((w 0).toNat, 8)
    else [((w 0).toNat, sizeT (w 2))]
  | revert => if (w 0).toNat > memorySpace then [] else [((w 0).toNat, sizeT (w 1))]
  | _ => []

/-- No index outside `MEM` is accessed. -/
def MemSafe (op : OpCode) (w : Nat → UInt64) : Prop :=
  ∀ block ∈ op.memBlocks w, ∀ i, block.1 ≤ i → i < block.1 + block.2 → i < memorySpace

/-- The words for which an opcode stays inside `MEM`: its check skips the access, or the
range it accesses fits. -/
def MemInside (op : OpCode) (w : Nat → UInt64) : Prop :=
  match op with
  | .mload | .mstore => memorySpace < (w 0).toNat ∨ (w 0).toNat + 32 ≤ memorySpace
  | .mstore8 => memorySpace < (w 0).toNat ∨ (w 0).toNat + 1 ≤ memorySpace
  | .sha3 =>
    256 < w 1 ∨ memorySpace < (w 0).toNat ∨ Fits memorySpace (w 0).toNat (w 1).toNat
  | .revert => memorySpace < (w 0).toNat ∨ Fits memorySpace (w 0).toNat (sizeT (w 1))
  | .calldatacopy =>
    memorySpace < (w 0 + w 2).toNat ∨ messageDataSize < (w 1 + w 2).toNat ∨
      Fits memorySpace (w 0).toNat (sizeT (w 2))
  | .codecopy =>
    memorySpace < (w 0).toNat ∨
      if w 2 < 100 then w 2 = 0 ∨ (w 0).toNat + 8 ≤ memorySpace
      else Fits memorySpace (w 0).toNat (sizeT (w 2))
  | _ => True

/-- What an opcode reads before it writes to `MEM` is in the code. -/
def SourceInside (op : OpCode) (c : Code) (w : Nat → UInt64) : Prop :=
  match op with
  | .calldatacopy => Fits c.size (w 1).toNat (sizeT (w 2))
  | .codecopy =>
    if w 2 < 100 then ∀ j < 32, ByteInside c (w 1) j else Fits c.size (w 1).toNat (sizeT (w 2))
  | _ => True

/-! ## The blocks -/

theorem fits_of_pos {n off len : Nat} (h : len ≠ 0) : Fits n off len ↔ off + len ≤ n :=
  ⟨fun hfits => hfits.resolve_left h, Or.inr⟩

theorem memSafe_iff_fits {op : OpCode} {w : Nat → UInt64} :
    MemSafe op w ↔ ∀ block ∈ op.memBlocks w, Fits memorySpace block.1 block.2 := by
  unfold MemSafe
  simp only [fits_iff_forall]

/-- A check that skips the access, in front of blocks. -/
theorem forall_mem_ite_nil {α : Type} {p : Prop} [Decidable p] {l : List α} {q : α → Prop} :
    (∀ a ∈ if p then [] else l, q a) ↔ p ∨ ∀ a ∈ l, q a := by
  by_cases hp : p
  · rw [if_pos hp]
    exact ⟨fun _ => Or.inl hp, fun _ a ha => absurd ha List.not_mem_nil⟩
  · rw [if_neg hp, or_iff_right hp]

/-- **The words for which no index outside `MEM` is accessed.** -/
theorem memSafe_iff_inside (op : OpCode) (w : Nat → UInt64) : MemSafe op w ↔ MemInside op w := by
  rw [memSafe_iff_fits]
  unfold OpCode.memBlocks MemInside
  cases op with
  | mload =>
    rw [forall_mem_ite_nil, List.forall_mem_singleton]
    exact or_congr Iff.rfl (fits_of_pos (Nat.succ_ne_zero _))
  | mstore =>
    rw [forall_mem_ite_nil, List.forall_mem_singleton]
    exact or_congr Iff.rfl (fits_of_pos (Nat.succ_ne_zero _))
  | mstore8 =>
    rw [forall_mem_ite_nil, List.forall_mem_singleton]
    exact or_congr Iff.rfl (fits_of_pos (Nat.succ_ne_zero _))
  | sha3 => rw [forall_mem_ite_nil, forall_mem_ite_nil, List.forall_mem_singleton]
  | calldatacopy => rw [forall_mem_ite_nil, forall_mem_ite_nil, List.forall_mem_singleton]
  | revert => rw [forall_mem_ite_nil, List.forall_mem_singleton]
  | codecopy =>
    rw [forall_mem_ite_nil]
    refine or_congr Iff.rfl ?_
    by_cases hshort : w 2 < 100
    · rw [if_pos hshort, if_pos hshort]
      have hzero : w 2 = 0 ↔ (w 2).toNat = 0 := UInt64.toNat_inj.symm
      have hblock : Fits memorySpace (w 0).toNat 8 ↔ (w 0).toNat + 8 ≤ memorySpace :=
        fits_of_pos (by decide)
      rw [← hblock, hzero]
      simp only [List.mem_replicate]
      refine ⟨fun h => ?_, ?_⟩
      · by_cases hnone : (w 2).toNat = 0
        · exact Or.inl hnone
        · exact Or.inr (h _ ⟨by omega, rfl⟩)
      · rintro (hnone | hfits) block ⟨hcount, rfl⟩
        · omega
        · exact hfits
    · rw [if_neg hshort, if_neg hshort]
      exact List.forall_mem_singleton
  | _ => exact ⟨fun _ => trivial, fun _ block hblock => absurd hblock List.not_mem_nil⟩

/-! ## Where each opcode leaves memory -/

section

variable {s : Vm}

theorem operand_zero : (s.slot s.sp).lower.lower = s.operand 0 := by
  unfold Vm.operand
  rw [show s.sp - ((0 : Nat) : Int) = s.sp by omega]

theorem operand_popped (k : Nat) : s.popped.operand k = s.operand (k + 1) := by
  unfold Vm.operand
  rw [Vm.slot_popped, Vm.sp_popped, show s.sp - 1 - (k : Int) = s.sp - ((k + 1 : Nat) : Int) by omega]

theorem operand_one : (s.popped.slot s.popped.sp).lower.lower = s.operand 1 := rfl

theorem operand_two : (s.popped.popped.slot s.popped.popped.sp).lower.lower = s.operand 2 := by
  unfold Vm.operand
  rw [show s.sp - ((2 : Nat) : Int) = s.sp - 1 - 1 by omega]
  rfl

/-- Two operands popped by an opcode that faults elsewhere when one is missing. -/
theorem Elsewhere.raises_popLow₂ {E : Fault → Prop} (hE : Elsewhere E) {α : Type}
    {f : UInt64 → UInt64 → VmM α} :
    Raises E (stackPopLow >>= fun a => stackPopLow >>= fun b => f a b) s ↔
      InStack s.sp ∧ InStack (s.sp - 1) ∧ Raises E (f (s.operand 0) (s.operand 1)) s.popped.popped := by
  rw [hE.raises_popLow, operand_zero]
  refine and_congr_right fun _ => ?_
  rw [hE.raises_popLow, operand_one]
  exact Iff.rfl

/-- Three operands. -/
theorem Elsewhere.raises_popLow₃ {E : Fault → Prop} (hE : Elsewhere E) {α : Type}
    {f : UInt64 → UInt64 → UInt64 → VmM α} :
    Raises E (stackPopLow >>= fun a => stackPopLow >>= fun b => stackPopLow >>= fun c => f a b c) s ↔
      InStack s.sp ∧ InStack (s.sp - 1) ∧ InStack (s.sp - 1 - 1) ∧
        Raises E (f (s.operand 0) (s.operand 1) (s.operand 2)) s.popped.popped.popped := by
  rw [hE.raises_popLow, operand_zero]
  refine and_congr_right fun _ => ?_
  rw [hE.raises_popLow₂, operand_popped, operand_popped]
  exact Iff.rfl

theorem never_paid (gas : UInt32) :
    Never Fault.InMem (charge gas >>= fun _ => (pure 0 : VmM Int)) :=
  elsewhere_mem.walk.paid gas

theorem opMload_raises : Raises Fault.InMem opMload s ↔
    InStack s.sp ∧ ¬memorySpace < (s.operand 0).toNat ∧ ¬(s.operand 0).toNat + 32 ≤ memorySpace := by
  unfold opMload
  rw [elsewhere_mem.raises_popLow, operand_zero]
  refine and_congr_right fun _ => ?_
  rw [raises_ite_left (never_paid _), raises_memBlock fun _ => (elsewhere_mem.push _).bind fun _ =>
    never_paid _, fits_of_pos (by decide)]

theorem opMstore_raises : Raises Fault.InMem opMstore s ↔
    InStack s.sp ∧ InStack (s.sp - 1) ∧ ¬memorySpace < (s.operand 0).toNat ∧
      ¬(s.operand 0).toNat + 32 ≤ memorySpace := by
  unfold opMstore
  rw [elsewhere_mem.raises_popLow, operand_zero]
  refine and_congr_right fun _ => ?_
  rw [elsewhere_mem.raises_pop]
  refine and_congr_right fun _ => ?_
  rw [raises_ite_left (never_paid _), raises_setMemBlock fun _ => (Never.update _).bind fun _ =>
    never_paid _, fits_of_pos (by decide)]

theorem opMstore8_raises : Raises Fault.InMem opMstore8 s ↔
    InStack s.sp ∧ InStack (s.sp - 1) ∧ ¬memorySpace < (s.operand 0).toNat ∧
      ¬(s.operand 0).toNat + 1 ≤ memorySpace := by
  unfold opMstore8
  rw [elsewhere_mem.raises_popLow₂]
  refine and_congr_right fun _ => and_congr_right fun _ => ?_
  rw [raises_ite_left (never_paid _), raises_setMemBlock fun _ => never_paid _,
    fits_of_pos (by decide)]

/-- `SHA3` copies before it hashes; above `MEMORY_SPACE` it does not copy at all. -/
theorem opSha3_raises : Raises Fault.InMem opSha3 s ↔
    InStack s.sp ∧ InStack (s.sp - 1) ∧ ¬256 < s.operand 1 ∧ ¬memorySpace < (s.operand 0).toNat ∧
      ¬Fits memorySpace (s.operand 0).toNat (s.operand 1).toNat := by
  have hresult : ∀ length data, Never Fault.InMem (sha3Result length data) :=
    elsewhere_mem.walk.sha3Result fun _ => Never.throw (by simp [Fault.InMem])
  have hframe : Never Fault.InMem automaticFrame := fun _ => raises_of_ok rfl
  unfold opSha3
  rw [elsewhere_mem.raises_popLow₂]
  refine and_congr_right fun _ => and_congr_right fun _ => ?_
  rw [raises_ite_left (Never.pure _)]
  refine and_congr_right fun _ => ?_
  rw [raises_ite_left (hframe.bind fun _ => hresult _ _), raises_memBlock fun _ => hresult _ _]

theorem opRevert_raises : Raises Fault.InMem opRevert s ↔
    InStack s.sp ∧ InStack (s.sp - 1) ∧ ¬memorySpace < (s.operand 0).toNat ∧
      ¬Fits memorySpace (s.operand 0).toNat (sizeT (s.operand 1)) := by
  unfold opRevert
  rw [elsewhere_mem.raises_popLow₂]
  refine and_congr_right fun _ => and_congr_right fun _ => ?_
  rw [raises_ite_left (never_paid _), raises_memBlock fun _ => Never.pure _]

/-- A copy of code into memory: the code is read first. -/
theorem copy_raises {c : Code} {off len dest : Nat} {f : Unit → VmM Int}
    (hf : ∀ a, Never Fault.InMem (f a)) :
    Raises Fault.InMem (codeBlock c off len >>= fun bytes => setMemBlock dest len bytes >>= f) s ↔
      Fits c.size off len ∧ ¬Fits memorySpace dest len := by
  by_cases h : Fits c.size off len
  · rw [raises_bind_ok (codeBlock_inside h), raises_setMemBlock hf]
    exact ⟨fun hnot => ⟨h, hnot⟩, fun hboth => hboth.2⟩
  · rw [raises_bind_error (codeBlock_outside h)]
    exact ⟨fun habs => absurd habs (by simp [Fault.InMem]), fun hboth => absurd hboth.1 h⟩

theorem opCalldatacopy_raises {c : Code} : Raises Fault.InMem (opCalldatacopy c) s ↔
    InStack s.sp ∧ InStack (s.sp - 1) ∧ InStack (s.sp - 1 - 1) ∧
      ¬memorySpace < (s.operand 0 + s.operand 2).toNat ∧
      ¬messageDataSize < (s.operand 1 + s.operand 2).toNat ∧
      Fits c.size (s.operand 1).toNat (sizeT (s.operand 2)) ∧
      ¬Fits memorySpace (s.operand 0).toNat (sizeT (s.operand 2)) := by
  unfold opCalldatacopy
  rw [elsewhere_mem.raises_popLow₃]
  refine and_congr_right fun _ => and_congr_right fun _ => and_congr_right fun _ => ?_
  rw [raises_ite_left (never_paid _)]
  refine and_congr_right fun _ => ?_
  rw [raises_ite_left (never_paid _), copy_raises fun _ => (Never.update _).bind fun _ => never_paid _]

theorem opCodecopy_raises {c : Code} : Raises Fault.InMem (opCodecopy c) s ↔
    InStack s.sp ∧ InStack (s.sp - 1) ∧ InStack (s.sp - 1 - 1) ∧
      ¬memorySpace < (s.operand 0).toNat ∧
      if s.operand 2 < 100 then s.operand 2 ≠ 0 ∧ ¬(s.operand 0).toNat + 8 ≤ memorySpace ∧
        ∀ j < 32, ByteInside c (s.operand 1) j
      else Fits c.size (s.operand 1).toNat (sizeT (s.operand 2)) ∧
        ¬Fits memorySpace (s.operand 0).toNat (sizeT (s.operand 2)) := by
  unfold opCodecopy
  rw [elsewhere_mem.raises_popLow₃]
  refine and_congr_right fun _ => and_congr_right fun _ => and_congr_right fun _ => ?_
  rw [raises_ite_left (never_paid _)]
  refine and_congr_right fun _ => ?_
  by_cases hshort : s.operand 2 < 100
  · rw [if_pos hshort, if_pos hshort, raises_modify, raises_bind_never fun _ => never_paid _,
      raises_mem_codecopyLoop c _ _ _ _ _ (Int.le_refl _)]
    refine and_congr_left fun _ => ?_
    rw [Int.natCast_pos, Nat.pos_iff_ne_zero, ne_eq, ne_eq, not_iff_not]
    exact UInt64.toNat_inj (b := 0)
  · rw [if_neg hshort, if_neg hshort]
    exact copy_raises fun _ => never_paid _

end

/-! ## Every opcode -/

theorem operandsInside_one {op : OpCode} {s : Vm} (h : op.arity = 1) :
    OperandsInside op s ↔ InStack s.sp := by
  unfold OperandsInside
  rw [h]
  refine ⟨fun hall => ?_, fun hin k hk => ?_⟩
  · have hin := hall 0 (by decide)
    rwa [show s.sp - ((0 : Nat) : Int) = s.sp by omega] at hin
  · rwa [show s.sp - (k : Int) = s.sp by omega]

theorem operandsInside_two {op : OpCode} {s : Vm} (h : op.arity = 2) :
    OperandsInside op s ↔ InStack s.sp ∧ InStack (s.sp - 1) := by
  unfold OperandsInside
  rw [h]
  refine ⟨fun hall => ⟨?_, hall 1 (by decide)⟩, fun hin k hk => ?_⟩
  · have hin := hall 0 (by decide)
    rwa [show s.sp - ((0 : Nat) : Int) = s.sp by omega] at hin
  · obtain rfl | rfl : k = 0 ∨ k = 1 := by omega
    · rw [show s.sp - ((0 : Nat) : Int) = s.sp by omega]
      exact hin.1
    · exact hin.2

theorem operandsInside_three {op : OpCode} {s : Vm} (h : op.arity = 3) :
    OperandsInside op s ↔ InStack s.sp ∧ InStack (s.sp - 1) ∧ InStack (s.sp - 1 - 1) := by
  unfold OperandsInside
  rw [h]
  refine ⟨fun hall => ⟨?_, hall 1 (by decide), ?_⟩, fun hin k hk => ?_⟩
  · have hin := hall 0 (by decide)
    rwa [show s.sp - ((0 : Nat) : Int) = s.sp by omega] at hin
  · have hin := hall 2 (by decide)
    rwa [show s.sp - ((2 : Nat) : Int) = s.sp - 1 - 1 by omega] at hin
  · obtain rfl | rfl | rfl : k = 0 ∨ k = 1 ∨ k = 2 := by omega
    · rw [show s.sp - ((0 : Nat) : Int) = s.sp by omega]
      exact hin.1
    · exact hin.2.1
    · rw [show s.sp - ((2 : Nat) : Int) = s.sp - 1 - 1 by omega]
      exact hin.2.2

/-- A fault in `MEM` of an opcode with its operands in `STACK`. -/
theorem decode_raises_mem_iff {b : UInt8} {c : Code} {s : Vm}
    (hop : (OpCode.ofByte b).touchesMem = true) (hin : OperandsInside (OpCode.ofByte b) s) :
    Raises Fault.InMem (decodeInstruction b c) s ↔
      SourceInside (OpCode.ofByte b) c s.operand ∧ ¬MemInside (OpCode.ofByte b) s.operand := by
  unfold decodeInstruction
  cases h : OpCode.ofByte b with
  | mload =>
    rw [h, operandsInside_one rfl] at hin
    show Raises Fault.InMem opMload s ↔ True ∧ ¬(_ ∨ _)
    rw [opMload_raises, and_iff_right hin, true_and, not_or]
  | mstore =>
    rw [h, operandsInside_two rfl] at hin
    show Raises Fault.InMem opMstore s ↔ True ∧ ¬(_ ∨ _)
    rw [opMstore_raises, and_iff_right hin.1, and_iff_right hin.2, true_and, not_or]
  | mstore8 =>
    rw [h, operandsInside_two rfl] at hin
    show Raises Fault.InMem opMstore8 s ↔ True ∧ ¬(_ ∨ _)
    rw [opMstore8_raises, and_iff_right hin.1, and_iff_right hin.2, true_and, not_or]
  | sha3 =>
    rw [h, operandsInside_two rfl] at hin
    show Raises Fault.InMem opSha3 s ↔ True ∧ ¬(_ ∨ _ ∨ _)
    rw [opSha3_raises, and_iff_right hin.1, and_iff_right hin.2, true_and, not_or, not_or]
  | revert =>
    rw [h, operandsInside_two rfl] at hin
    show Raises Fault.InMem opRevert s ↔ True ∧ ¬(_ ∨ _)
    rw [opRevert_raises, and_iff_right hin.1, and_iff_right hin.2, true_and, not_or]
  | calldatacopy =>
    rw [h, operandsInside_three rfl] at hin
    show Raises Fault.InMem (opCalldatacopy c) s ↔ Fits _ _ _ ∧ ¬(_ ∨ _ ∨ _)
    rw [opCalldatacopy_raises, and_iff_right hin.1, and_iff_right hin.2.1, and_iff_right hin.2.2,
      not_or, not_or]
    tauto
  | codecopy =>
    rw [h, operandsInside_three rfl] at hin
    show Raises Fault.InMem (opCodecopy c) s ↔ _
    rw [opCodecopy_raises, and_iff_right hin.1, and_iff_right hin.2.1, and_iff_right hin.2.2,
      SourceInside, MemInside, not_or]
    by_cases hshort : s.operand 2 < 100
    · rw [if_pos hshort, if_pos hshort, if_pos hshort, not_or]
      tauto
    · rw [if_neg hshort, if_neg hshort, if_neg hshort]
      tauto
  | _ => rw [h] at hop; cases hop

/-- **The bounds of memory.** For all words an opcode can have popped, it accesses `MEM`
inside its bounds exactly when they are as `MemInside` says. With its operands in `STACK`
the instruction faults in `MEM` for exactly the other words, unless the source of a copy
lies outside the code. -/
theorem memSafe_iff {b : UInt8} (hop : (OpCode.ofByte b).touchesMem = true) :
    (∀ w, MemSafe (OpCode.ofByte b) w ↔ MemInside (OpCode.ofByte b) w) ∧
    ∀ (c : Code) (s : Vm), OperandsInside (OpCode.ofByte b) s →
      (Raises Fault.InMem (decodeInstruction b c) s ↔
        SourceInside (OpCode.ofByte b) c s.operand ∧ ¬MemSafe (OpCode.ofByte b) s.operand) := by
  refine ⟨memSafe_iff_inside _, ?_⟩
  intro c s hin
  rw [memSafe_iff_inside]
  exact decode_raises_mem_iff hop hin

/-- `MLOAD` of the last word that fits. -/
theorem memSafe_iff_last : MemSafe .mload (fun _ => 8057) ∧
    ¬Raises Fault.InMem (decodeInstruction 0x51 ⟨[0x51], by decide⟩)
      { Vm.zeroed with sp := 1, stack := fun _ => lowWord 8057 } := by
  have hsafe : MemSafe .mload (fun _ => 8057) :=
    ((memSafe_iff (b := 0x51) rfl).1 _).mpr (Or.inr (by decide))
  refine ⟨hsafe, ?_⟩
  rw [(memSafe_iff (b := 0x51) rfl).2 ⟨[0x51], by decide⟩
    { Vm.zeroed with sp := 1, stack := fun _ => lowWord 8057 }
    ((operandsInside_one rfl).mpr (by decide))]
  intro h
  exact h.2 ((memSafe_iff_inside _ _).mpr (Or.inr (by decide)))

/-- `MSTORE8` at `MEMORY_SPACE` passes its check and writes one past the array,
`CALLDATACOPY` of nine bytes to `2^64 - 9` passes a check whose sum has wrapped, and
`CODECOPY` of 200 bytes to 8000 passes a check that leaves out the length. -/
theorem memSafe_fails :
    ¬MemSafe .mstore8 (fun _ => 8089) ∧
    Raises Fault.InMem (decodeInstruction 0x53 ⟨[0x53], by decide⟩)
      { Vm.zeroed with sp := 2, stack := fun _ => lowWord 8089 } ∧
    ¬MemSafe .calldatacopy (fun k => if k = 0 then 0xFFFFFFFFFFFFFFF7 else if k = 1 then 0 else 9) ∧
    ¬MemSafe .codecopy (fun k => if k = 0 then 8000 else if k = 1 then 0 else 200) := by
  refine ⟨?_, ⟨_, _, rfl, 8090, rfl⟩, ?_, ?_⟩
  · rw [memSafe_iff_inside, MemInside]
    decide
  · rw [memSafe_iff_inside, MemInside]
    decide
  · rw [memSafe_iff_inside, MemInside]
    decide

end TinyEvm
