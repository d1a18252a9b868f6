import TinyEvm.Vm.Arithmetic
import TinyEvm.Vm.WordBytes

/-!
# `CALLDATALOAD`

The EVM reads the 32 bytes of the call data from `offset` on, padded with zeros behind
`datasize`. The code narrows the offset to 32 bits and then does one of three things:

* above `MESSAGEDATASIZE` it pushes nothing, so the offset is gone and no word stands in
  its place;
* at zero it reads four bytes, the function selector, and clears the other 28
  (`selectorByte`), without a look at `datasize`;
* in between it copies 32 bytes from the nine of `message.data`, which never fit.

So only the first branch of the source can be right, and it is right when the bytes it
drops and the bytes it takes too many are zero (`calldataload_iff`).
-/

namespace TinyEvm

open Lib.BigEndian Lib.Buffer Lib.Exec

/-- Byte `i` of the call data, zero from `datasize` on. -/
def MessageExt.byte (m : MessageExt) (i : Nat) : UInt8 :=
  if i < m.datasize.toNat then peek m.data 0 i else 0

/-- `CALLDATALOAD` behaves as the EVM's: the offset on top is replaced by the big-endian
word of the 32 bytes there, and no byte outside `message.data` is read. -/
def CalldataloadMeets (sContract : Code) (s : Vm) : Prop :=
  Leaves 0x35 sContract s (beNat (fun k => s.message.byte ((s.slot s.sp).val + k)) 32)

/-! ## The three branches -/

/-- Byte `k` of the word pushed for the offset zero. -/
def selectorByte (m : MessageExt) (k : Nat) : UInt8 := if k < 4 then peek m.data 0 k else 0

theorem selectorWord_eq (m : MessageExt) :
    (⟨⟨swapLong (loadLE64 fun k => if k < 4 then peek m.data 0 k else 0), 0⟩, clear128⟩ : Uint256)
      = readu256BE (selectorByte m) := by
  have hzero : ∀ j, 4 ≤ j → readUint64BE (fun i => selectorByte m (i + j)) = 0 := by
    intro j hj
    have hbytes : (fun i => selectorByte m (i + j)) = fun _ => 0 := by
      funext i
      exact if_neg (by omega)
    rw [hbytes]
    rfl
  rw [swapLong_loadLE64]
  unfold readu256BE readu128BE
  simp only [Nat.add_assoc, Nat.reduceAdd]
  rw [hzero 8 (by omega), hzero 16 (by omega), hzero 24 (by omega)]
  rfl

theorem calldataload_selector {sContract : Code} {s : Vm} (hin : InStack s.sp)
    (hoff : (s.slot s.sp).val % 2 ^ 32 = 0) :
    decodeInstruction 0x35 sContract s
      = .ok 0 (s.popped.pushed (readu256BE (selectorByte s.message))) := by
  have hzero : (s.slot s.sp).lower.lower.toUInt32.toNat = 0 := by
    rw [Uint256.lowest_toUInt32]
    exact hoff
  show opCalldataload s = _
  unfold opCalldataload
  rw [bind_ok (stackPopLow_ok hin)]
  simp only [hzero]
  rw [get_bind, if_neg (by omega), if_pos trivial, selectorWord_eq,
    bind_ok (stackPush_ok _ (Vm.room_popped hin))]
  rfl

/-- In range and not zero: 32 bytes are read where nine are. -/
theorem calldataload_overrun {c : Code} {s : Vm} (hin : InStack s.sp)
    (hpos : (s.slot s.sp).val % 2 ^ 32 ≠ 0) (hle : (s.slot s.sp).val % 2 ^ 32 ≤ messageDataSize) :
    ∃ i s', decodeInstruction 0x35 c s = .error (.data i) s' := by
  rw [← Uint256.lowest_toUInt32] at hpos hle
  have hfits : ¬Fits messageDataSize (s.slot s.sp).lower.lower.toUInt32.toNat 32 := by
    unfold Fits
    show ¬(32 = 0 ∨ _ + 32 ≤ 9)
    omega
  refine ⟨(s.slot s.sp).lower.lower.toUInt32.toNat + 32, s.popped, ?_⟩
  show opCalldataload s = _
  unfold opCalldataload
  rw [bind_ok (stackPopLow_ok hin), get_bind, if_neg (by omega), if_neg hpos, if_neg hfits]
  rfl

/-- Above `MESSAGEDATASIZE` the offset is popped and nothing is pushed. -/
theorem calldataload_outside {sContract : Code} {s : Vm} (hin : InStack s.sp)
    (hgt : messageDataSize < (s.slot s.sp).val % 2 ^ 32) :
    decodeInstruction 0x35 sContract s = .ok 0 s.popped := by
  rw [← Uint256.lowest_toUInt32] at hgt
  show opCalldataload s = _
  unfold opCalldataload
  rw [bind_ok (stackPopLow_ok hin), get_bind, if_pos hgt]
  rfl

/-! ## When the selector is the word -/

/-- The call data and offsets `CALLDATALOAD` gets right: at zero, nothing but zeros between
the fourth byte and `datasize`, on whichever side `datasize` is; from `2^32` on, where the
narrowed offset is zero again, no selector at all. -/
def LoadRight (m : MessageExt) (offset : Nat) : Prop :=
  (offset = 0 ∧ ∀ k, (4 ≤ k ∧ k < m.datasize.toNat) ∨ (m.datasize.toNat ≤ k ∧ k < 4) →
    peek m.data 0 k = 0) ∨
  (offset ≠ 0 ∧ offset % 2 ^ 32 = 0 ∧ ∀ k, k < 4 → peek m.data 0 k = 0)

theorem selectorByte_zero_iff {m : MessageExt} (hsize : m.datasize.toNat ≤ messageDataSize) :
    (∀ k, k < 32 → selectorByte m k = m.byte (0 + k)) ↔
      ∀ k, (4 ≤ k ∧ k < m.datasize.toNat) ∨ (m.datasize.toNat ≤ k ∧ k < 4) →
        peek m.data 0 k = 0 := by
  unfold selectorByte MessageExt.byte
  refine ⟨?_, ?_⟩
  · intro h k hk
    have hspace : messageDataSize = 9 := rfl
    have hbyte := h k (by omega)
    rw [Nat.zero_add] at hbyte
    rcases hk with ⟨hge, hlt⟩ | ⟨hge, hlt⟩
    · rw [if_neg (by omega), if_pos hlt] at hbyte
      exact hbyte.symm
    · rw [if_pos hlt, if_neg (by omega)] at hbyte
      exact hbyte
  · intro h k _
    rw [Nat.zero_add]
    split
    next hlt =>
      split
      next => rfl
      next hout => exact h k (Or.inr ⟨by omega, hlt⟩)
    next hge =>
      split
      next hin => exact (h k (Or.inl ⟨by omega, hin⟩)).symm
      next => rfl

theorem selectorByte_far_iff {m : MessageExt} {offset : Nat}
    (hfar : m.datasize.toNat ≤ offset) :
    (∀ k, k < 32 → selectorByte m k = m.byte (offset + k)) ↔ ∀ k, k < 4 → peek m.data 0 k = 0 := by
  unfold selectorByte MessageExt.byte
  refine ⟨?_, ?_⟩
  · intro h k hk
    have hbyte := h k (by omega)
    rw [if_pos hk, if_neg (by omega)] at hbyte
    exact hbyte
  · intro h k _
    rw [if_neg (show ¬offset + k < m.datasize.toNat by omega)]
    split
    next hlt => exact h k hlt
    next => rfl

theorem selector_meets_iff {sContract : Code} {s : Vm} (h1 : 1 ≤ s.sp) (h2 : s.sp < stackSpace)
    (hsize : s.message.datasize.toNat ≤ messageDataSize) (hoff : (s.slot s.sp).val % 2 ^ 32 = 0) :
    CalldataloadMeets sContract s ↔ LoadRight s.message (s.slot s.sp).val := by
  have hin : InStack s.sp := ⟨by omega, h2⟩
  have hrun : decodeInstruction 0x35 sContract s
      = .ok 0 { s.popped.pushed (readu256BE (selectorByte s.message)) with
          gasCharge := s.gasCharge } := calldataload_selector hin hoff
  unfold CalldataloadMeets LoadRight
  rw [leaves_pushed_iff hrun rfl (Vm.room_popped hin), readu256BE_val, beNat_eq_iff]
  by_cases hzero : (s.slot s.sp).val = 0
  · rw [hzero, selectorByte_zero_iff hsize]
    simp
  · have hfar : messageDataSize < (s.slot s.sp).val := by
      show 9 < _
      omega
    rw [selectorByte_far_iff (by omega), or_iff_right (fun h => hzero h.1)]
    exact ⟨fun h => ⟨hzero, hoff, h⟩, fun h => h.2.2⟩

/-- **When `CALLDATALOAD` is right.** -/
theorem calldataload_iff (sContract : Code) (s : Vm) (h1 : 1 ≤ s.sp) (h2 : s.sp < stackSpace)
    (hsize : s.message.datasize.toNat ≤ messageDataSize) :
    CalldataloadMeets sContract s ↔ LoadRight s.message (s.slot s.sp).val := by
  have hin : InStack s.sp := ⟨by omega, h2⟩
  by_cases hoff : (s.slot s.sp).val % 2 ^ 32 = 0
  · exact selector_meets_iff h1 h2 hsize hoff
  -- the other two branches are never right
  refine iff_of_false ?_ ?_
  · rcases Nat.lt_or_ge messageDataSize ((s.slot s.sp).val % 2 ^ 32) with hgt | hle
    · intro hmeets
      obtain ⟨s', hrun, hsp, -⟩ := hmeets
      rw [calldataload_outside hin hgt] at hrun
      cases hrun
      rw [Vm.sp_popped] at hsp
      change s.sp - 1 = s.sp - 1 + 1 at hsp
      omega
    · obtain ⟨i, s', hrun⟩ := calldataload_overrun (c := sContract) hin hoff hle
      exact not_leaves_of_error hrun
  · intro hright
    rcases hright with ⟨hzero, -⟩ | ⟨-, hmod, -⟩
    · rw [hzero] at hoff
      exact hoff rfl
    · exact hoff hmod

/-- A call with `size` bytes of data, all of them one. -/
def onesMessage (size : UInt32) : MessageExt :=
  { Vm.zeroed.message with data := fun i => if i.val < size.toNat then 1 else 0, datasize := size }

/-- A bare selector is loaded. -/
theorem calldataload_iff_selector :
    CalldataloadMeets ⟨[0x35], by decide⟩ { stacked [clear256] with message := onesMessage 4 } := by
  refine (calldataload_iff _ { stacked [clear256] with message := onesMessage 4 } (by decide)
    (by decide) (by decide)).mpr (Or.inl ⟨rfl, ?_⟩)
  intro k hk
  change (4 ≤ k ∧ k < 4) ∨ (4 ≤ k ∧ k < 4) at hk
  omega

/-- With nine bytes of data the first word loses the bytes behind the selector, and the word
at offset four is read past the end of `message.data`. -/
theorem calldataload_arguments_fail :
    ¬CalldataloadMeets ⟨[0x35], by decide⟩ { stacked [clear256] with message := onesMessage 9 } ∧
    ¬CalldataloadMeets ⟨[0x35], by decide⟩ { stacked [lowWord 4] with message := onesMessage 9 } := by
  refine ⟨?_, ?_⟩
  · intro hmeets
    rw [selector_meets_iff (by decide) (by decide) (by decide) rfl] at hmeets
    rcases hmeets with ⟨-, hzeros⟩ | ⟨hne, -, -⟩
    · exact absurd (hzeros 4 (Or.inl ⟨Nat.le_refl 4, by decide⟩)) (by decide)
    · exact hne rfl
  · obtain ⟨i, s', hrun⟩ := calldataload_overrun (c := ⟨[0x35], by decide⟩)
      (s := { stacked [lowWord 4] with message := onesMessage 9 }) (by decide) (by decide) (by decide)
    exact not_leaves_of_error hrun

end TinyEvm
