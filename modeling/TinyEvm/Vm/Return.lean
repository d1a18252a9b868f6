import TinyEvm.Vm.Alike
import TinyEvm.Vm.Arithmetic

/-!
# `RETURN`

`RETURN` publishes `MEM[offset .. offset + length)` as the deployed contract. Three
expressions stand for the length: the bytes copied, `length` narrowed to the `size_t` of
`memcpy`; the published `DeployLength`, which is `offset + length`; and the bound check,
which adds in wrapping 64-bit arithmetic and, where it fails, goes on with `offset = 0` and
`length = MEMORY_SPACE - 1`, more than `deployed_contract` has room for.

In range the bytes are right and the length is not, unless `offset` is zero. Out of range
the fallback always overruns `deployed_contract`. What gets past the check stays inside the
two arrays when the low limbs of the operands are in range themselves, or when they wrap
around and the narrowed length is zero (`reach_iff`).
-/

namespace TinyEvm

open Lib.Buffer Lib.Exec

/-- An access outside `MEM`, or a store outside `deployed_contract`. -/
def Fault.Stray (e : Fault) : Prop := (∃ i, e = .mem i) ∨ ∃ i, e = .deployed i

/-! ## Behind the bound check -/

theorem publish_ok {s : Vm} {offset length : UInt64}
    (hmem : Fits memorySpace offset.toNat (sizeT length)) (hspace : Fits deploySpace 0 (sizeT length)) :
    publish offset length s = .ok returnStatus { s with
      deployLength := offset + length
      deployedContract := blit s.deployedContract 0 (sizeT length)
        fun k => peek s.mem 0 (offset.toNat + k) } := by
  unfold publish
  rw [bind_ok (memBlock_ok hmem), modify_bind, if_pos hspace]
  rfl

theorem publish_stray_iff {s : Vm} {offset length : UInt64} :
    Raises Fault.Stray (publish offset length) s ↔
      ¬(Fits memorySpace offset.toNat (sizeT length) ∧ Fits deploySpace 0 (sizeT length)) := by
  by_cases hmem : Fits memorySpace offset.toNat (sizeT length)
  · by_cases hspace : Fits deploySpace 0 (sizeT length)
    · exact iff_of_false (raises_of_ok (publish_ok hmem hspace)) (fun h => h ⟨hmem, hspace⟩)
    · refine iff_of_true ?_ (fun h => hspace h.2)
      unfold publish
      rw [raises_bind_ok (memBlock_ok hmem), raises_modify, if_neg hspace]
      exact ⟨_, _, rfl, Or.inr ⟨_, rfl⟩⟩
  · refine iff_of_true ?_ (fun h => hmem h.1)
    unfold publish
    rw [raises_bind_error (memBlock_outside hmem)]
    exact Or.inl ⟨_, rfl⟩

/-- The narrowed operands that get past the check and stay inside both arrays. -/
theorem reach_iff {offset length : UInt64}
    (hcheck : (offset + length).toNat ≤ memorySpace) :
    Fits memorySpace offset.toNat (sizeT length) ∧ Fits deploySpace 0 (sizeT length) ↔
      offset.toNat + length.toNat ≤ memorySpace ∧ length.toNat ≤ deploySpace ∨
        length.toNat % 2 ^ 32 = 0 := by
  have ho := offset.toNat_lt
  have hl := length.toNat_lt
  have hcount : sizeT length = length.toNat % 2 ^ 32 := UInt64.toNat_toUInt32 length
  rw [UInt64.toNat_add] at hcheck
  rw [hcount]
  unfold Fits
  change _ ≤ 8089 at hcheck
  show (_ ∨ _ ≤ 8089) ∧ (_ ∨ _ ≤ 3000) ↔ (_ ≤ 8089 ∧ _ ≤ 3000) ∨ _
  omega

/-! ## `RETURN`, run -/

theorem operand_zero_toNat (s : Vm) : (s.operand 0).toNat = (s.slot s.sp).val % 2 ^ 64 := by
  rw [← operand_zero, Uint256.lowest_toNat]

theorem operand_one_toNat (s : Vm) : (s.operand 1).toNat = (s.slot (s.sp - 1)).val % 2 ^ 64 :=
  Uint256.lowest_toNat (s.slot (s.sp - 1))

theorem return_eq {c : Code} {s : Vm} (h1 : 2 ≤ s.sp) (h2 : s.sp < stackSpace) :
    decodeInstruction 0xf3 c s
      = (if (s.operand 0 + s.operand 1).toNat > memorySpace then publish 0 8088
          else publish (s.operand 0) (s.operand 1)) s.popped.popped := by
  have hpop : InStack (s.sp - 1) := ⟨by omega, by omega⟩
  show opReturn s = _
  rw [opReturn_eq, bind_ok (stackPopLow_ok ⟨by omega, h2⟩), bind_ok (stackPopLow_ok (s := s.popped) hpop),
    operand_zero, operand_one]

/-- The fallback is 8088 bytes long and overruns `deployed_contract`. -/
theorem return_stray_iff {sContract : Code} {s : Vm} (h1 : 2 ≤ s.sp) (h2 : s.sp < stackSpace) :
    Raises Fault.Stray (decodeInstruction 0xf3 sContract) s ↔
      ¬((s.operand 0 + s.operand 1).toNat ≤ memorySpace ∧
        ((s.operand 0).toNat + (s.operand 1).toNat ≤ memorySpace ∧ (s.operand 1).toNat ≤ deploySpace ∨
          (s.operand 1).toNat % 2 ^ 32 = 0)) := by
  unfold Raises
  rw [return_eq h1 h2]
  by_cases hcheck : (s.operand 0 + s.operand 1).toNat ≤ memorySpace
  · rw [if_neg (Nat.not_lt.mpr hcheck)]
    refine publish_stray_iff.trans (not_congr ?_)
    rw [reach_iff hcheck]
    exact ⟨fun h => ⟨hcheck, h⟩, fun h => h.2⟩
  · rw [if_pos (Nat.lt_of_not_le hcheck)]
    refine publish_stray_iff.trans (iff_of_true ?_ fun h => hcheck h.1)
    decide

/-- Narrowed operands in range are published as they are. -/
theorem return_publishes {c : Code} {s : Vm} {o l : Nat} (h1 : 2 ≤ s.sp) (h2 : s.sp < stackSpace)
    (ho : (s.operand 0).toNat = o) (hl : (s.operand 1).toNat = l) (hmem : o + l ≤ memorySpace)
    (hlen : l ≤ deploySpace) :
    decodeInstruction 0xf3 c s = .ok returnStatus { s.popped.popped with
      deployLength := s.operand 0 + s.operand 1
      deployedContract := blit s.deployedContract 0 l fun k => peek s.mem 0 (o + k) } ∧
    (s.operand 0 + s.operand 1).toNat = o + l := by
  have hspace : o + l ≤ 8089 := hmem
  have hsum : (s.operand 0 + s.operand 1).toNat = o + l := by
    rw [UInt64.toNat_add, ho, hl]
    omega
  have hcount : sizeT (s.operand 1) = l := sizeT_of_lt hl (by omega)
  refine ⟨?_, hsum⟩
  rw [return_eq h1 h2, if_neg (by rw [hsum]; exact Nat.not_lt.mpr hmem),
    publish_ok (Or.inr (by rw [ho, hcount]; exact hmem)) (Or.inr (by rw [hcount]; omega)), hcount, ho]
  rfl

/-- In range the bytes are published, with `offset + length` for their length. -/
theorem return_inside {c : Code} {s : Vm} (h1 : 2 ≤ s.sp) (h2 : s.sp < stackSpace)
    (hmem : (s.slot s.sp).val + (s.slot (s.sp - 1)).val ≤ memorySpace)
    (hlen : (s.slot (s.sp - 1)).val ≤ deploySpace) :
    ∃ s', decodeInstruction 0xf3 c s = .ok returnStatus s' ∧
      s'.deployLength.toNat = (s.slot s.sp).val + (s.slot (s.sp - 1)).val ∧
      ∀ i, i < (s.slot (s.sp - 1)).val →
        peek s'.deployedContract 0 i = peek s.mem 0 ((s.slot s.sp).val + i) := by
  have hspace : (s.slot s.sp).val + (s.slot (s.sp - 1)).val ≤ 8089 := hmem
  have ho : (s.operand 0).toNat = (s.slot s.sp).val := by
    rw [operand_zero_toNat]
    omega
  have hl : (s.operand 1).toNat = (s.slot (s.sp - 1)).val := by
    rw [operand_one_toNat]
    omega
  obtain ⟨hrun, hsum⟩ := return_publishes (c := c) h1 h2 ho hl hmem hlen
  refine ⟨_, hrun, hsum, ?_⟩
  intro i hi
  dsimp only
  rw [peek_blit_of_mem _ _ _ (by omega) (Nat.zero_le i) (by omega)]
  rfl

/-! ## What `RETURN` promises -/

/-- `RETURN` behaves as it should: in range it publishes the returned bytes and their number,
out of range it leaves both arrays alone. -/
def ReturnMeets (sContract : Code) (s : Vm) : Prop :=
  if (s.slot s.sp).val + (s.slot (s.sp - 1)).val ≤ memorySpace ∧
      (s.slot (s.sp - 1)).val ≤ deploySpace then
    ∃ s', decodeInstruction 0xf3 sContract s = .ok returnStatus s' ∧
      s'.deployLength.toNat = (s.slot (s.sp - 1)).val ∧
      ∀ i, i < (s.slot (s.sp - 1)).val →
        peek s'.deployedContract 0 i = peek s.mem 0 ((s.slot s.sp).val + i)
  else ¬Raises Fault.Stray (decodeInstruction 0xf3 sContract) s

/-- The operands `RETURN` gets right. In range: no offset. Out of range: the 64-bit sum is
still in bounds, and either the low limbs are in range or the low 32 bits of the length are
zero. -/
def ReturnRight (offset length : Nat) : Prop :=
  if offset + length ≤ memorySpace ∧ length ≤ deploySpace then offset = 0
  else (offset + length) % 2 ^ 64 ≤ memorySpace ∧
    (offset % 2 ^ 64 + length % 2 ^ 64 ≤ memorySpace ∧ length % 2 ^ 64 ≤ deploySpace ∨
      length % 2 ^ 32 = 0)

instance (offset length : Nat) : Decidable (ReturnRight offset length) :=
  inferInstanceAs (Decidable (if offset + length ≤ memorySpace ∧ length ≤ deploySpace then offset = 0
    else (offset + length) % 2 ^ 64 ≤ memorySpace ∧
      (offset % 2 ^ 64 + length % 2 ^ 64 ≤ memorySpace ∧ length % 2 ^ 64 ≤ deploySpace ∨
        length % 2 ^ 32 = 0)))

/-- **When `RETURN` is right.** -/
theorem return_iff (sContract : Code) (s : Vm) (h1 : 2 ≤ s.sp) (h2 : s.sp < stackSpace) :
    ReturnMeets sContract s ↔ ReturnRight (s.slot s.sp).val (s.slot (s.sp - 1)).val := by
  unfold ReturnMeets ReturnRight
  split
  next hin =>
    obtain ⟨s', hrun, hlength, hbytes⟩ := return_inside (c := sContract) h1 h2 hin.1 hin.2
    refine ⟨?_, ?_⟩
    · intro hmeets
      obtain ⟨s'', hrun', hlength', -⟩ := hmeets
      rw [hrun] at hrun'
      cases hrun'
      omega
    · intro hzero
      exact ⟨s', hrun, by omega, hbytes⟩
  next hout =>
    rw [return_stray_iff h1 h2, not_not, UInt64.toNat_add, operand_zero_toNat, operand_one_toNat,
      ← Nat.add_mod,
      Nat.mod_mod_of_dvd _ (Nat.pow_dvd_pow 2 (by omega))]

/-- Ten bytes from the bottom of memory. -/
theorem return_iff_bottom :
    ReturnMeets ⟨[0xf3], by decide⟩ (stacked [clear256, lowWord 10]) :=
  (return_iff _ (stacked [clear256, lowWord 10]) (by decide) (by decide)).mpr (by decide)

/-- Ten bytes at offset 32 are published with a length of 42, and a length of 9000 overruns
`deployed_contract`. -/
theorem return_offset_fails :
    ¬ReturnMeets ⟨[0xf3], by decide⟩ (stacked [lowWord 32, lowWord 10]) ∧
    ¬ReturnMeets ⟨[0xf3], by decide⟩ (stacked [clear256, lowWord 9000]) := by
  refine ⟨?_, ?_⟩
  · intro hmeets
    obtain ⟨s', hrun, hlength, -⟩ := hmeets
    obtain ⟨s'', hrun', hlength', -⟩ := return_inside (c := ⟨[0xf3], by decide⟩)
      (s := stacked [lowWord 32, lowWord 10]) (by decide) (by decide) (by decide) (by decide)
    rw [hrun] at hrun'
    cases hrun'
    rw [hlength] at hlength'
    exact absurd hlength' (by decide)
  · intro hsafe
    refine hsafe ((return_stray_iff (by decide) (by decide)).mpr ?_)
    decide

end TinyEvm
