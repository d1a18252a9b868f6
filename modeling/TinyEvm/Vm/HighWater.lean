import TinyEvm.Lib.HighWater
import TinyEvm.Vm.Execute
import TinyEvm.Vm.Frame
import TinyEvm.Vm.MemBounds

/-!
# The high-water mark of memory

`max_mem_offset` is a global that four opcodes are meant to raise to the end of the range of
`MEM` they write, and that nothing resets. Two of them do: `CALLDATACOPY`, and `CODECOPY` on
its path for short lengths. `MSTORE` compares `sizeof( word )` with the mark instead of the
end of the word, so it stores the mark only while the mark is below 32; the long path of
`CODECOPY` and `MSTORE8` do not touch it.

`decode_mark` says what each instruction makes of the mark. No instruction lowers it, so by
`Lib.HighWater` a run has it above every range it has written, at every point, exactly when
each of its instructions has (`mark_covers_iff`); `Marks` is that condition for one
instruction, read off the state before it.
-/

namespace TinyEvm

open Lib.Buffer Lib.Exec Lib.Loop Lib.HighWater

/-! ## Ranges -/

/-- The end offset of the range of `MEM` an instruction writes when it succeeds, if it
writes one: the offset and the length are the operands, the length as `memcpy` takes it. -/
def Vm.writeEnd (s : Vm) : OpCode → Option Nat
  | .mstore =>
    if (s.operand 0).toNat ≤ memorySpace then some ((s.operand 0).toNat + 32) else none
  | .mstore8 =>
    if (s.operand 0).toNat ≤ memorySpace then some ((s.operand 0).toNat + 1) else none
  | .calldatacopy =>
    if (s.operand 0 + s.operand 2).toNat ≤ memorySpace ∧
        (s.operand 1 + s.operand 2).toNat ≤ messageDataSize ∧ sizeT (s.operand 2) ≠ 0 then
      some ((s.operand 0).toNat + sizeT (s.operand 2))
    else none
  | .codecopy =>
    if (s.operand 0).toNat ≤ memorySpace ∧ sizeT (s.operand 2) ≠ 0 then
      some ((s.operand 0).toNat + sizeT (s.operand 2))
    else none
  | _ => none

/-- The mark after an instruction that succeeds. -/
def Vm.markAfter (s : Vm) : OpCode → Nat
  | .mstore =>
    if (s.operand 0).toNat ≤ memorySpace ∧ s.maxMemOffset < 32 then (s.operand 0).toNat + 32
    else s.maxMemOffset
  | .calldatacopy =>
    if (s.operand 0 + s.operand 2).toNat ≤ memorySpace ∧
        (s.operand 1 + s.operand 2).toNat ≤ messageDataSize then
      max s.maxMemOffset (s.operand 0 + s.operand 2).toNat
    else s.maxMemOffset
  | .codecopy =>
    if (s.operand 0).toNat ≤ memorySpace ∧ s.operand 2 < 100 then
      max s.maxMemOffset (s.operand 0 + s.operand 2).toNat
    else s.maxMemOffset
  | _ => s.maxMemOffset

/-- What the instruction writes ends at or below the mark behind it, in terms of the
state before it: `MSTORE` on a mark below 32, or below the mark already; `MSTORE8` and
`CODECOPY` from 100 bytes on below the mark already. The others always do. -/
def Marks (op : OpCode) (s : Vm) : Prop :=
  match op with
  | .mstore => (s.operand 0).toNat ≤ memorySpace →
      s.maxMemOffset < 32 ∨ (s.operand 0).toNat + 32 ≤ s.maxMemOffset
  | .mstore8 => (s.operand 0).toNat ≤ memorySpace → (s.operand 0).toNat + 1 ≤ s.maxMemOffset
  | .codecopy => (s.operand 0).toNat ≤ memorySpace → 100 ≤ s.operand 2 → sizeT (s.operand 2) ≠ 0 →
      (s.operand 0).toNat + sizeT (s.operand 2) ≤ s.maxMemOffset
  | _ => True

/-! ## What an instruction makes of the mark -/

/-- A run from the mark `m` that succeeds with the mark `n`, and does not lower it where it
faults. -/
def Marked {α : Type} (m n : Nat) : EStateM.Result Fault Vm α → Prop
  | .ok _ s => s.maxMemOffset = n
  | .error _ s => m ≤ s.maxMemOffset

theorem calm_mark : Calm (fun s : Vm => s.maxMemOffset) where
  sp _ _ := rfl
  stack _ _ := rfl
  slots _ _ := rfl
  gasCharge _ _ := rfl
  rtimer _ _ := rfl
  frames _ _ := rfl

section

variable {α β : Type} {s : Vm} {m n : Nat}

theorem Marked.keeps {x : VmM α} (hx : Keeps (·.maxMemOffset) x) (hm : s.maxMemOffset = m) :
    Marked m m (x s) := by
  have h : (after (x s)).maxMemOffset = s.maxMemOffset := hx s
  rw [hm] at h
  cases hrun : x s with
  | ok a s' =>
    rw [hrun] at h
    exact h
  | error e s' =>
    rw [hrun] at h
    exact h.ge

/-- A first part that keeps the mark. -/
theorem Marked.bind {x : VmM α} {f : α → VmM β} (hx : Keeps (·.maxMemOffset) x)
    (hm : s.maxMemOffset = m)
    (hf : ∀ a s', x s = .ok a s' → s'.maxMemOffset = m → Marked m n (f a s')) :
    Marked m n ((x >>= f) s) := by
  have h := Marked.keeps hx hm
  cases hrun : x s with
  | ok a s' =>
    rw [hrun] at h
    rw [bind_ok hrun]
    exact hf a s' hrun h
  | error e s' =>
    rw [hrun] at h
    rw [bind_error hrun]
    exact h

theorem Marked.ite {p : Prop} [Decidable p] {x y : VmM α} (hx : p → Marked m n (x s))
    (hy : ¬p → Marked m n (y s)) : Marked m n ((if p then x else y) s) := by
  by_cases hp : p
  · rw [if_pos hp]
    exact hx hp
  · rw [if_neg hp]
    exact hy hp

theorem Marked.popLow {f : UInt64 → VmM β} (hm : s.maxMemOffset = m)
    (hf : Marked m n (f (s.operand 0) s.popped)) : Marked m n ((stackPopLow >>= f) s) := by
  refine Marked.bind calm_mark.walk.popLow hm ?_
  intro a s' hrun _
  obtain ⟨-, rfl, rfl⟩ := stackPopLow_returns hrun
  rw [operand_zero]
  exact hf

/-- Three operands. -/
theorem Marked.popLow₃ {f : UInt64 → UInt64 → UInt64 → VmM β} (hm : s.maxMemOffset = m)
    (hf : Marked m n (f (s.operand 0) (s.operand 1) (s.operand 2) s.popped.popped.popped)) :
    Marked m n
      ((stackPopLow >>= fun a => stackPopLow >>= fun b => stackPopLow >>= fun c => f a b c) s) := by
  refine Marked.popLow hm (Marked.popLow hm (Marked.popLow hm ?_))
  rw [operand_popped, operand_popped, operand_popped]
  exact hf

/-- From a higher mark on. -/
theorem Marked.mono {m' : Nat} {r : EStateM.Result Fault Vm α} (h : Marked m' n r) (hle : m ≤ m') :
    Marked m n r := by
  cases r with
  | ok a s' => exact h
  | error e s' => exact Nat.le_trans hle h

end

theorem keeps_mark_setMemBlock (off len : Nat) (bytes : Nat → UInt8) :
    Keeps (·.maxMemOffset) (setMemBlock off len bytes) :=
  Blind.setMemBlock (fun _ _ => rfl) off len bytes

theorem keeps_mark_codecopyLoop (c : Code) (memOffset rounds : Nat) (len : Int) (offset : UInt64) :
    Keeps (·.maxMemOffset) (codecopyLoop c memOffset rounds len offset) :=
  calm_mark.walk.codecopyLoop keeps_mark_setMemBlock c (Blind.codeAt c) memOffset rounds len offset

/-- The end of the opcodes that write memory. -/
theorem marked_paid {s : Vm} {m n : Nat} (hm : s.maxMemOffset = n) (gas : UInt32) :
    Marked m n ((charge gas >>= fun _ => (pure 0 : VmM Int)) s) := hm

/-! ### Opcode by opcode -/

theorem opMstore_mark (s : Vm) : Marked s.maxMemOffset (s.markAfter .mstore) (opMstore s) := by
  unfold opMstore
  refine Marked.popLow rfl (Marked.bind calm_mark.pop rfl ?_)
  intro word s₁ _ hs₁
  refine Marked.ite (fun hfar => marked_paid ?_ _) fun hnear => ?_
  · rw [Vm.markAfter, if_neg fun h => absurd h.1 (Nat.not_le.mpr hfar)]
    exact hs₁
  · refine Marked.bind (keeps_mark_setMemBlock _ _ _) hs₁ ?_
    intro _ s₂ _ hs₂
    show (if 32 > s₂.maxMemOffset then (s.operand 0).toNat + 32 else s₂.maxMemOffset) = _
    rw [hs₂, Vm.markAfter]
    exact if_congr ⟨fun h => ⟨Nat.not_lt.mp hnear, h⟩, fun h => h.2⟩ rfl rfl

theorem opCalldatacopy_mark (c : Code) (s : Vm) :
    Marked s.maxMemOffset (s.markAfter .calldatacopy) (opCalldatacopy c s) := by
  refine Marked.popLow₃ rfl (Marked.ite (fun hfar => ?_) fun hnear => ?_)
  · rw [Vm.markAfter, if_neg fun h => absurd h.1 (Nat.not_le.mpr hfar)]
    exact marked_paid rfl _
  refine Marked.ite (fun hlong => ?_) fun hdata => ?_
  · rw [Vm.markAfter, if_neg fun h => absurd h.2 (Nat.not_le.mpr hlong)]
    exact marked_paid rfl _
  · refine Marked.bind (Blind.codeBlock c _ _) rfl ?_
    intro bytes s₁ _ hs₁
    refine Marked.bind (keeps_mark_setMemBlock _ _ _) hs₁ ?_
    intro _ s₂ _ hs₂
    show max s₂.maxMemOffset (s.operand 0 + s.operand 2).toNat = _
    rw [hs₂, Vm.markAfter, if_pos ⟨Nat.not_lt.mp hnear, Nat.not_lt.mp hdata⟩]

/-- `CODECOPY` notes a short copy before it makes it. -/
theorem opCodecopy_mark (c : Code) (s : Vm) :
    Marked s.maxMemOffset (s.markAfter .codecopy) (opCodecopy c s) := by
  refine Marked.popLow₃ rfl (Marked.ite (fun hfar => ?_) fun hnear => ?_)
  · rw [Vm.markAfter, if_neg fun h => absurd h.1 (Nat.not_le.mpr hfar)]
    exact marked_paid rfl _
  refine Marked.ite (fun hshort => ?_) fun hlong => ?_
  · rw [Vm.markAfter, if_pos ⟨Nat.not_lt.mp hnear, hshort⟩, modify_bind]
    refine Marked.mono (Marked.bind (keeps_mark_codecopyLoop c _ _ _ _) rfl ?_)
      (Nat.le_max_left s.maxMemOffset (s.operand 0 + s.operand 2).toNat)
    intro _ s₁ _ hs₁
    exact marked_paid hs₁ _
  · rw [Vm.markAfter, if_neg fun h => hlong h.2]
    refine Marked.bind (Blind.codeBlock c _ _) rfl ?_
    intro bytes s₁ _ hs₁
    refine Marked.bind (keeps_mark_setMemBlock _ _ _) hs₁ ?_
    intro _ s₂ _ hs₂
    exact marked_paid hs₂ _

/-- **What an instruction makes of the mark.** -/
theorem decode_mark (b : UInt8) (c : Code) (s : Vm) :
    Marked s.maxMemOffset (s.markAfter (OpCode.ofByte b)) (decodeInstruction b c s) := by
  by_cases hnote : (OpCode.ofByte b).notesMem = true
  · unfold decodeInstruction
    cases hop : OpCode.ofByte b with
    | mstore => exact opMstore_mark s
    | calldatacopy => exact opCalldatacopy_mark c s
    | codecopy => exact opCodecopy_mark c s
    | _ =>
      rw [hop] at hnote
      cases hnote
  · have hkeeps : Keeps (·.maxMemOffset) (decodeInstruction b c) :=
      decode_calm calm_mark c (fun _ _ _ => rfl) (fun h => absurd h hnote) (fun _ _ _ => rfl)
        (fun _ _ _ => rfl) (fun _ _ _ => rfl) (fun _ _ _ => rfl) (fun _ _ _ => rfl)
    have hsame : s.markAfter (OpCode.ofByte b) = s.maxMemOffset := by
      unfold Vm.markAfter
      split
      next hop =>
        rw [hop] at hnote
        exact absurd rfl hnote
      next hop =>
        rw [hop] at hnote
        exact absurd rfl hnote
      next hop =>
        rw [hop] at hnote
        exact absurd rfl hnote
      next => rfl
    rw [hsame]
    exact Marked.keeps hkeeps rfl

theorem Vm.mark_le_markAfter (s : Vm) (op : OpCode) : s.maxMemOffset ≤ s.markAfter op := by
  unfold Vm.markAfter
  split
  · split
    · omega
    · exact Nat.le_refl _
  · split
    · exact Nat.le_max_left _ _
    · exact Nat.le_refl _
  · split
    · exact Nat.le_max_left _ _
    · exact Nat.le_refl _
  · exact Nat.le_refl _

theorem decode_mark_le (b : UInt8) (c : Code) (s : Vm) :
    s.maxMemOffset ≤ (after (decodeInstruction b c s)).maxMemOffset := by
  have hmarked := decode_mark b c s
  cases hrun : decodeInstruction b c s with
  | ok status s' =>
    rw [hrun] at hmarked
    have hafter : s'.maxMemOffset = s.markAfter (OpCode.ofByte b) := hmarked
    rw [after_ok, hafter]
    exact s.mark_le_markAfter _
  | error e s' =>
    rw [hrun] at hmarked
    exact hmarked

/-! ## Whether its range ends below the mark -/

/-- A range that `CALLDATACOPY` has copied lies in memory, so the sum it notes did not wrap
and its length was not narrowed. -/
theorem sum_toNat_of_fits {dest length : UInt64} (hsum : (dest + length).toNat ≤ memorySpace)
    (hfits : dest.toNat + sizeT length ≤ memorySpace) :
    (dest + length).toNat = dest.toNat + sizeT length := by
  have hspace : memorySpace = 8089 := rfl
  have hlength := length.toNat_lt
  unfold sizeT at hfits ⊢
  rw [UInt64.toNat_add] at hsum ⊢
  rw [UInt64.toNat_toUInt32] at hfits ⊢
  omega

theorem popLow₃_returns {α : Type} {f : UInt64 → UInt64 → UInt64 → VmM α} {s s' : Vm} {a : α}
    (hrun : (stackPopLow >>= fun x => stackPopLow >>= fun y => stackPopLow >>= fun z => f x y z) s
      = .ok a s') :
    f (s.operand 0) (s.operand 1) (s.operand 2) s.popped.popped.popped = .ok a s' := by
  obtain ⟨x, s₁, h₁, hrun⟩ := bind_eq_ok.mp hrun
  obtain ⟨-, rfl, rfl⟩ := stackPopLow_returns h₁
  obtain ⟨y, s₂, h₂, hrun⟩ := bind_eq_ok.mp hrun
  obtain ⟨-, rfl, rfl⟩ := stackPopLow_returns h₂
  obtain ⟨z, s₃, h₃, hrun⟩ := bind_eq_ok.mp hrun
  obtain ⟨-, rfl, rfl⟩ := stackPopLow_returns h₃
  rw [operand_zero, operand_one, operand_two] at hrun
  exact hrun

theorem opCalldatacopy_fits {c : Code} {s s' : Vm} {status : Int}
    (hrun : opCalldatacopy c s = .ok status s')
    (hmem : (s.operand 0 + s.operand 2).toNat ≤ memorySpace)
    (hdata : (s.operand 1 + s.operand 2).toNat ≤ messageDataSize) :
    Fits memorySpace (s.operand 0).toNat (sizeT (s.operand 2)) := by
  have hcopy := popLow₃_returns hrun
  rw [if_neg (Nat.not_lt.mpr hmem), if_neg (Nat.not_lt.mpr hdata)] at hcopy
  obtain ⟨bytes, s₁, -, hcopy⟩ := bind_eq_ok.mp hcopy
  obtain ⟨_, s₂, hset, -⟩ := bind_eq_ok.mp hcopy
  by_contra hfits
  rw [setMemBlock_outside _ hfits] at hset
  cases hset

/-- **The mark and the range of an instruction that succeeds.** -/
theorem writeEnd_le_iff {b : UInt8} {c : Code} {s s' : Vm} {status : Int}
    (hrun : decodeInstruction b c s = .ok status s') :
    (∀ e, s.writeEnd (OpCode.ofByte b) = some e → e ≤ s'.maxMemOffset) ↔
      Marks (OpCode.ofByte b) s := by
  have hafter : s'.maxMemOffset = s.markAfter (OpCode.ofByte b) := by
    have hmarked := decode_mark b c s
    rw [hrun] at hmarked
    exact hmarked
  rw [hafter]
  unfold decodeInstruction at hrun
  cases hop : OpCode.ofByte b with
  | mstore =>
    unfold Vm.writeEnd Vm.markAfter Marks
    by_cases hnear : (s.operand 0).toNat ≤ memorySpace
    · simp only [hnear, if_true, true_and, Option.some.injEq, forall_eq', forall_const]
      split
      next hlow => simp [hlow]
      next hhigh => simp [hhigh]
    · simp [hnear]
  | mstore8 => simp [Vm.writeEnd, Vm.markAfter, Marks]
  | calldatacopy =>
    rw [hop] at hrun
    refine iff_of_true ?_ trivial
    intro e hend
    rw [Vm.writeEnd] at hend
    rw [Vm.markAfter]
    split at hend
    next hin =>
      obtain rfl := Option.some.inj hend
      have hfits := (opCalldatacopy_fits hrun hin.1 hin.2.1).resolve_left hin.2.2
      rw [if_pos ⟨hin.1, hin.2.1⟩, sum_toNat_of_fits hin.1 hfits]
      exact Nat.le_max_right _ _
    next => cases hend
  | codecopy =>
    unfold Vm.writeEnd Vm.markAfter Marks
    by_cases hnear : (s.operand 0).toNat ≤ memorySpace
    · by_cases hshort : s.operand 2 < 100
      · -- the short path notes a sum that neither wraps nor was narrowed
        have hspace : memorySpace = 8089 := rfl
        have hlt : (s.operand 2).toNat < 100 := UInt64.lt_iff_toNat_lt.mp hshort
        have hsum : (s.operand 0 + s.operand 2).toNat = (s.operand 0).toNat + sizeT (s.operand 2) := by
          rw [sizeT_of_lt rfl (by omega), UInt64.toNat_add]
          omega
        have hlong : ¬100 ≤ s.operand 2 := UInt64.not_le.mpr hshort
        simp [hnear, hshort, hlong, hsum]
      · have hlong : 100 ≤ s.operand 2 := UInt64.not_lt.mp hshort
        simp [hnear, hshort, hlong]
    · simp [hnear]
  | _ => simp [Vm.writeEnd, Marks]

/-! ## Rounds -/

/-- The end of the range of `MEM` that the round from a head writes, if it decodes an
instruction that succeeds and writes one. -/
def roundEnds (c : Code) (size : UInt32) (s : Vm) : List Nat :=
  if s.pc < size - 1 ∧ ¬s.gasCharge > gasLimit then
    match c.bytes[s.pc.toNat]? with
    | some b => match decodeInstruction b c s with
      | .ok _ _ => (s.writeEnd (OpCode.ofByte b)).toList
      | .error _ _ => []
    | none => []
  else []

/-- The ends of the ranges that at most `rounds` rounds write, the oldest first. -/
def writtenEnds (c : Code) (size : UInt32) (rounds : Nat) (s : Vm) : List Nat :=
  outputs (roundEnds c size) (executeRound c size) rounds s

/-- The instruction that the round from a head executes, if it succeeds, ends its range at
or below the mark. -/
def RoundMarks (c : Code) (size : UInt32) (s : Vm) : Prop :=
  ∀ b status s₁, Decodes c size s b → decodeInstruction b c s = .ok status s₁ →
    Marks (OpCode.ofByte b) s

section

variable {c : Code} {size : UInt32} {s : Vm}

theorem mem_roundEnds_iff {e : Nat} : e ∈ roundEnds c size s ↔ ∃ b status s₁,
    Decodes c size s b ∧ decodeInstruction b c s = .ok status s₁ ∧
      s.writeEnd (OpCode.ofByte b) = some e := by
  refine ⟨?_, ?_⟩
  · intro he
    unfold roundEnds at he
    split at he
    next hhead =>
      split at he
      next b hbyte =>
        split at he
        next status s₁ hrun =>
          exact ⟨b, status, s₁, ⟨hhead.1, hhead.2, hbyte⟩, hrun, Option.mem_toList.mp he⟩
        next => cases he
      next => cases he
    next => cases he
  · rintro ⟨b, status, s₁, hb, hrun, hend⟩
    unfold roundEnds
    rw [if_pos ⟨hb.inside, hb.paid⟩, hb.byte]
    simp only [hrun]
    exact Option.mem_toList.mpr hend

theorem round_mark_le (c : Code) (size : UInt32) (s : Vm) :
    s.maxMemOffset ≤ (after (executeRound c size s)).maxMemOffset :=
  round_invariant (I := fun t => s.maxMemOffset ≤ t.maxMemOffset) (fun _ h => h) (fun _ h => h)
    (Nat.le_refl _) fun b _ => decode_mark_le b c s

/-- Behind the instruction the round leaves the mark alone. -/
theorem round_mark {b : UInt8} {status : Int} {s₁ : Vm} (hb : Decodes c size s b)
    (hrun : decodeInstruction b c s = .ok status s₁) :
    (after (executeRound c size s)).maxMemOffset = s₁.maxMemOffset := by
  rw [executeRound_decode hb.inside hb.paid hb.byte hrun]
  rcases after_afterDecode c status s₁ with heq | heq
  · rw [heq]
    rfl
  · rw [heq]
    rfl

theorem roundEnds_le_iff :
    (∀ e ∈ roundEnds c size s, e ≤ (after (executeRound c size s)).maxMemOffset) ↔
      RoundMarks c size s := by
  refine ⟨?_, ?_⟩
  · intro hends b status s₁ hb hrun
    rw [← writeEnd_le_iff hrun]
    intro e hend
    rw [← round_mark hb hrun]
    exact hends e (mem_roundEnds_iff.mpr ⟨b, status, s₁, hb, hrun, hend⟩)
  · intro hmarks e he
    obtain ⟨b, status, s₁, hb, hrun, hend⟩ := mem_roundEnds_iff.mp he
    rw [round_mark hb hrun]
    exact (writeEnd_le_iff hrun).mpr (hmarks b status s₁ hb hrun) e hend

end

/-! ## Whole runs -/

/-- After at most `rounds` rounds of `execute_contract` the mark is not below where it was,
and at or above the end of every range written. -/
def MarkCovers (c : Code) (size : UInt32) (rounds : Nat) (s : Vm) : Prop :=
  s.maxMemOffset ≤ (after (executeContract c size rounds s)).maxMemOffset ∧
    ∀ e ∈ writtenEnds c size rounds s,
      e ≤ (after (executeContract c size rounds s)).maxMemOffset

/-- **When the mark is right.** In every state of a run, exactly when each instruction of the
run that succeeds is as `Marks` says. -/
theorem mark_covers_iff (c : Code) (size : UInt32) (s : Vm) :
    (∀ rounds, MarkCovers c size rounds s) ↔
      ∀ s', Reaches (executeRound c size) s s' → RoundMarks c size s' := by
  have hcovers : (∀ rounds, MarkCovers c size rounds s) ↔
      ∀ s', Reaches (executeRound c size) s s' →
        ∀ e ∈ roundEnds c size s', e ≤ (after (executeRound c size s')).maxMemOffset :=
    covers_iff (round_mark_le c size) s
  rw [hcovers]
  refine forall_congr' fun s' => ?_
  rw [roundEnds_le_iff]

/-- `PUSH1 7 PUSH1 0 MSTORE`. -/
def storeWordAtZero : Code := ⟨[0x60, 0x07, 0x60, 0x00, 0x52, 0x00], by decide⟩

/-- The three heads of its run, with the opcode at each. -/
theorem storeWordAtZero_marks {s' : Vm}
    (h : Reaches (executeRound storeWordAtZero storeWordAtZero.sizeof) Vm.zeroed s') :
    RoundMarks storeWordAtZero storeWordAtZero.sizeof s' := by
  obtain ⟨n, hgo, rfl⟩ := goesOn_of_reaches h
  have hlt : n < 3 := by
    by_contra hge
    exact absurd (goesOn_of_le (Nat.not_lt.mp hge) hgo) (by decide +kernel)
  intro b status s₁ hb _
  have hbyte := hb.byte
  have hcases : n = 0 ∨ n = 1 ∨ n = 2 := by omega
  rcases hcases with rfl | rfl | rfl
  · obtain rfl : 0x60 = b := Option.some.inj hbyte
    exact trivial
  · rw [show (afterRounds (executeRound storeWordAtZero storeWordAtZero.sizeof) 1 Vm.zeroed).pc = 2
      by decide +kernel] at hbyte
    obtain rfl : 0x60 = b := Option.some.inj hbyte
    exact trivial
  · rw [show (afterRounds (executeRound storeWordAtZero storeWordAtZero.sizeof) 2 Vm.zeroed).pc = 4
      by decide +kernel] at hbyte
    obtain rfl : 0x52 = b := Option.some.inj hbyte
    exact fun _ => Or.inl (by decide +kernel)

/-- The first store of a run notes its end. -/
theorem mark_covers_storeWordAtZero :
    ∀ rounds, MarkCovers storeWordAtZero storeWordAtZero.sizeof rounds Vm.zeroed :=
  (mark_covers_iff storeWordAtZero storeWordAtZero.sizeof Vm.zeroed).mpr fun _ h =>
    storeWordAtZero_marks h

/-- `PUSH1 7 PUSH1 0 MSTORE PUSH1 7 PUSH1 0x20 MSTORE`. -/
def storeTwoWords : Code :=
  ⟨[0x60, 0x07, 0x60, 0x00, 0x52, 0x60, 0x07, 0x60, 0x20, 0x52, 0x00], by decide⟩

/-- The run ends at `STOP`, its second store ends at 64, and the mark is still 32. -/
theorem mark_stale_storeTwoWords :
    (∃ s', executeContract storeTwoWords storeTwoWords.sizeof 6 Vm.zeroed = .ok (some .stop) s') ∧
      ¬MarkCovers storeTwoWords storeTwoWords.sizeof 6 Vm.zeroed := by
  refine ⟨⟨_, runLoop_of_goesOn 5 (by decide +kernel) (by decide +kernel)⟩, ?_⟩
  intro hcovers
  have hle := hcovers.2 64 (by decide +kernel)
  exact absurd hle (by decide +kernel)

end TinyEvm
