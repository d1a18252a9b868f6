import TinyEvm.Lib.Loop
import TinyEvm.Vm.Decode

/-!
# `execute_contract`

The loop of the interpreter, one round at a time: the bound `PC < size - 1` in
wrapping 32-bit arithmetic, the gas test, the fetch and the decoding, the two
ways to leave on the status, `PC ++`, and the look at the next byte for `STOP`.
`Halt` records which of the exits was taken; the final statistics are printed
from `maxSp`, `maxMemOffset` and `maxStorageCounter` and change nothing.
-/

namespace TinyEvm

open Lib.Exec Lib.Loop

/-- Why the loop was left. -/
inductive Halt where
  /-- `PC < size - 1` failed. -/
  | endOfCode
  /-- `GAS_Charge > GAS_LIMIT`. -/
  | outOfGas
  /-- `status == RETURN`. -/
  | returned
  /-- `status < 0`. -/
  | error
  /-- The byte after the instruction is `STOP`. -/
  | stop
deriving DecidableEq, Repr

/-- One round of the loop of `execute_contract`. -/
def executeRound (sContract : Code) (size : UInt32) : VmM (Option Halt) := do
  let s ← get
  if s.pc < size - 1 then
    if s.gasCharge > gasLimit then return some .outOfGas
    let opCode ← codeAt sContract s.pc.toNat
    let status ← decodeInstruction opCode sContract
    modify fun s => { s with maxSp := max s.maxSp s.sp }
    if status = returnStatus then return some .returned
    if status < 0 then return some .error
    modify fun s => { s with pc := s.pc + 1 }
    let next ← codeAt sContract (← get).pc.toNat
    if next = 0x00 then return some .stop
    return none
  else return some .endOfCode

/-- `execute_contract` for at most `rounds` rounds of its loop. -/
def executeContract (sContract : Code) (size : UInt32) (rounds : Nat) : VmM (Option Halt) :=
  runLoop (executeRound sContract size) rounds

/-- `sizeof(code)`, as the callers pass it. -/
def Code.sizeof (c : Code) : UInt32 := UInt32.ofNat c.size

theorem Code.sizeof_toNat (c : Code) : c.sizeof.toNat = c.size := by
  rw [Code.sizeof, UInt32.toNat_ofNat']
  exact Nat.mod_eq_of_lt c.size_lt

/-- The check of the loop head, as numbers. -/
theorem lt_sizeof_iff {c : Code} {s : Vm} (h : 0 < c.size) :
    s.pc < c.sizeof - 1 ↔ s.pc.toNat + 1 < c.size := by
  have hsize := c.sizeof_toNat
  have hone : (1 : UInt32).toNat = 1 := rfl
  rw [UInt32.lt_iff_toNat_lt, UInt32.toNat_sub_of_le _ _ (by rw [UInt32.le_iff_toNat_le]; omega)]
  omega

/-- The bytes at `i` and past it that `s_contract[i]` can read. -/
theorem codeAt_of_lt {c : Code} {i : Nat} {b : UInt8} (h : c.bytes[i]? = some b) (s : Vm) :
    codeAt c i s = .ok b s := by
  unfold codeAt
  rw [h]
  rfl

theorem codeAt_of_ge {c : Code} {i : Nat} (h : c.bytes[i]? = none) (s : Vm) :
    codeAt c i s = .error (.code i) s := by
  unfold codeAt
  rw [h]
  rfl

/-- The statistics after a decoded instruction. -/
def Vm.noteSp (s : Vm) : Vm := { s with maxSp := max s.maxSp s.sp }

/-- The state at the next loop head, from the state `decode_instruction` left. -/
def Vm.next (s : Vm) : Vm := { s.noteSp with pc := s.pc + 1 }

/-- The rest of a round, once `decode_instruction` has returned `status`. -/
def afterDecode (c : Code) (status : Int) (s : Vm) : EStateM.Result Fault Vm (Option Halt) :=
  if status = returnStatus then .ok (some .returned) s.noteSp
  else if status < 0 then .ok (some .error) s.noteSp
  else match c.bytes[s.next.pc.toNat]? with
    | none => .error (.code s.next.pc.toNat) s.next
    | some b => if b = 0x00 then .ok (some .stop) s.next else .ok none s.next

/-! ## Rounds, case by case -/

theorem executeRound_endOfCode {c : Code} {size : UInt32} {s : Vm} (h : ¬s.pc < size - 1) :
    executeRound c size s = .ok (some .endOfCode) s := by
  unfold executeRound
  rw [get_bind, if_neg h]
  rfl

theorem executeRound_outOfGas {c : Code} {size : UInt32} {s : Vm} (h : s.pc < size - 1)
    (hg : s.gasCharge > gasLimit) : executeRound c size s = .ok (some .outOfGas) s := by
  unfold executeRound
  rw [get_bind, if_pos h, if_pos hg]
  rfl

theorem executeRound_fetch_fault {c : Code} {size : UInt32} {s : Vm} (h : s.pc < size - 1)
    (hg : ¬s.gasCharge > gasLimit) (hb : c.bytes[s.pc.toNat]? = none) :
    executeRound c size s = .error (.code s.pc.toNat) s := by
  unfold executeRound
  rw [get_bind, if_pos h, if_neg hg]
  exact bind_error (codeAt_of_ge hb s) _

theorem executeRound_decode_fault {c : Code} {size : UInt32} {s s₁ : Vm} {b : UInt8} {e : Fault}
    (h : s.pc < size - 1) (hg : ¬s.gasCharge > gasLimit) (hb : c.bytes[s.pc.toNat]? = some b)
    (hd : decodeInstruction b c s = .error e s₁) : executeRound c size s = .error e s₁ := by
  unfold executeRound
  rw [get_bind, if_pos h, if_neg hg]
  refine (bind_ok (codeAt_of_lt hb s) _).trans ?_
  exact bind_error hd _

theorem executeRound_decode {c : Code} {size : UInt32} {s s₁ : Vm} {b : UInt8} {status : Int}
    (h : s.pc < size - 1) (hg : ¬s.gasCharge > gasLimit) (hb : c.bytes[s.pc.toNat]? = some b)
    (hd : decodeInstruction b c s = .ok status s₁) :
    executeRound c size s = afterDecode c status s₁ := by
  unfold executeRound afterDecode
  rw [get_bind, if_pos h, if_neg hg]
  refine (bind_ok (codeAt_of_lt hb s) _).trans ?_
  refine (bind_ok hd _).trans ?_
  show (if status = returnStatus then (pure (some Halt.returned) : VmM _) else _) s₁.noteSp = _
  split
  next hret => rfl
  next hret =>
    show (if status < 0 then (pure (some Halt.error) : VmM _) else _) s₁.noteSp = _
    split
    next hneg => rfl
    next hneg =>
      -- `PC ++` and the look at the next byte, `s_contract[PC] == STOP`
      show ((codeAt c s₁.next.pc.toNat) >>= fun next => if next = 0x00 then
        (pure (some Halt.stop) : VmM _) else pure none) s₁.next = _
      cases hn : c.bytes[s₁.next.pc.toNat]? with
      | none => exact bind_error (codeAt_of_ge hn s₁.next) _
      | some b' =>
        refine (bind_ok (codeAt_of_lt hn s₁.next) _).trans ?_
        dsimp only
        split <;> rfl

/-- An instruction `b` is decoded at the loop head `s`. -/
structure Decodes (c : Code) (size : UInt32) (s : Vm) (b : UInt8) : Prop where
  inside : s.pc < size - 1
  paid : ¬s.gasCharge > gasLimit
  byte : c.bytes[s.pc.toNat]? = some b

/-- A round either leaves the machine as it was or decodes one instruction. -/
theorem executeRound_cases (c : Code) (size : UInt32) (s : Vm) :
    ((∀ b, ¬Decodes c size s b) ∧ (executeRound c size s = .ok (some .endOfCode) s ∨
      executeRound c size s = .ok (some .outOfGas) s ∨
      executeRound c size s = .error (.code s.pc.toNat) s)) ∨
    ∃ b, Decodes c size s b ∧
      ((∃ f s₁, decodeInstruction b c s = .error f s₁ ∧ executeRound c size s = .error f s₁) ∨
        ∃ status s₁, decodeInstruction b c s = .ok status s₁ ∧
          executeRound c size s = afterDecode c status s₁) := by
  by_cases hpc : s.pc < size - 1
  · by_cases hgas : s.gasCharge > gasLimit
    · exact Or.inl ⟨fun _ hb => hb.paid hgas, Or.inr (Or.inl (executeRound_outOfGas hpc hgas))⟩
    · cases hb : c.bytes[s.pc.toNat]? with
      | none =>
        refine Or.inl ⟨fun b hdec => ?_, Or.inr (Or.inr (executeRound_fetch_fault hpc hgas hb))⟩
        rw [hdec.byte] at hb
        cases hb
      | some b =>
        refine Or.inr ⟨b, ⟨hpc, hgas, hb⟩, ?_⟩
        cases hd : decodeInstruction b c s with
        | error f s₁ => exact Or.inl ⟨f, s₁, rfl, executeRound_decode_fault hpc hgas hb hd⟩
        | ok status s₁ => exact Or.inr ⟨status, s₁, rfl, executeRound_decode hpc hgas hb hd⟩
  · exact Or.inl ⟨fun _ hb => hpc hb.inside, Or.inl (executeRound_endOfCode hpc)⟩

/-- What the round does behind `decode_instruction` is to note `SP` and to
advance `PC`. -/
theorem after_afterDecode (c : Code) (status : Int) (s : Vm) :
    after (afterDecode c status s) = s.noteSp ∨ after (afterDecode c status s) = s.next := by
  unfold afterDecode
  split
  · exact Or.inl rfl
  · split
    · exact Or.inl rfl
    · right
      split
      · rfl
      · split
        · rfl
        · rfl

/-- A round that returns has decoded nothing and left the machine alone, or has decoded
an instruction, and behind it only `max_sp` and `PC` change. -/
theorem executeRound_returns {c : Code} {size : UInt32} {s s' : Vm} {r : Option Halt}
    (hrun : executeRound c size s = .ok r s') :
    ((∀ b, ¬Decodes c size s b) ∧ s' = s) ∨ ∃ b status s₁, Decodes c size s b ∧
      decodeInstruction b c s = .ok status s₁ ∧ (s' = s₁.noteSp ∨ s' = s₁.next) := by
  rcases executeRound_cases c size s with
    ⟨hnone, h | h | h⟩ | ⟨b, hb, ⟨f, s₁, hd, h⟩ | ⟨status, s₁, hd, h⟩⟩
  · rw [h] at hrun
    cases hrun
    exact Or.inl ⟨hnone, rfl⟩
  · rw [h] at hrun
    cases hrun
    exact Or.inl ⟨hnone, rfl⟩
  · rw [h] at hrun
    cases hrun
  · rw [h] at hrun
    cases hrun
  · have hafter := after_afterDecode c status s₁
    rw [← h, hrun, after_ok] at hafter
    exact Or.inr ⟨b, status, s₁, hb, hd, hafter⟩

/-- A property that does not look at `PC` and the statistics survives a round as
soon as it survives the decoding. -/
theorem round_invariant {I : Vm → Prop} {c : Code} {size : UInt32} {s : Vm}
    (hnote : ∀ s, I s → I s.noteSp) (hnext : ∀ s, I s → I s.next) (hs : I s)
    (hdec : ∀ b, Decodes c size s b → I (after (decodeInstruction b c s))) :
    I (after (executeRound c size s)) := by
  rcases executeRound_cases c size s with
    ⟨-, h | h | h⟩ | ⟨b, hb, ⟨f, s₁, hd, h⟩ | ⟨status, s₁, hd, h⟩⟩
  · rw [h]
    exact hs
  · rw [h]
    exact hs
  · rw [h]
    exact hs
  -- the last two ways out have decoded something
  · have hI := hdec b hb
    rw [hd, after_error] at hI
    rw [h]
    exact hI
  · have hI := hdec b hb
    rw [hd, after_ok] at hI
    rw [h]
    rcases after_afterDecode c status s₁ with heq | heq
    · rw [heq]
      exact hnote s₁ hI
    · rw [heq]
      exact hnext s₁ hI

/-- **A round that goes on** decoded an instruction, got a status that does not
end the run, and saw a byte other than `STOP` behind it. -/
theorem again_cases {c : Code} {size : UInt32} {s s' : Vm} (h : Again (executeRound c size) s s') :
    ∃ b status s₁ b', Decodes c size s b ∧ decodeInstruction b c s = .ok status s₁ ∧
      status ≠ returnStatus ∧ 0 ≤ status ∧ s' = s₁.next ∧ c.bytes[s'.pc.toNat]? = some b' ∧
      b' ≠ 0x00 := by
  unfold Again at h
  rcases executeRound_cases c size s with
    ⟨-, hr | hr | hr⟩ | ⟨b, hb, ⟨f, s₁, hd, hr⟩ | ⟨status, s₁, hd, hr⟩⟩
  · rw [hr] at h
    cases h
  · rw [hr] at h
    cases h
  · rw [hr] at h
    cases h
  · rw [hr] at h
    cases h
  -- only the end of a round that decoded can go on; its three tests in turn
  · rw [hr, afterDecode] at h
    split at h
    · cases h
    next hret =>
      split at h
      · cases h
      next hneg =>
        split at h
        · cases h
        next b' hb' =>
          split at h
          · cases h
          next hne =>
            cases h
            exact ⟨b, status, s₁, b', hb, hd, hret, by omega, rfl, hb', hne⟩

theorem again_of_decode {c : Code} {size : UInt32} {s s₁ : Vm} {b : UInt8} (b' : UInt8)
    (hb : Decodes c size s b)
    (hrun : decodeInstruction b c s = .ok 0 s₁) (hb' : c.bytes[s₁.next.pc.toNat]? = some b')
    (hne : b' ≠ 0x00) : Again (executeRound c size) s s₁.next := by
  unfold Again
  rw [executeRound_decode hb.inside hb.paid hb.byte hrun, afterDecode, if_neg (by decide),
    if_neg (by decide), hb']
  exact if_neg hne

end TinyEvm
