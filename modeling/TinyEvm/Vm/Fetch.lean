import TinyEvm.Vm.Execute
import TinyEvm.Vm.Footprint
import TinyEvm.Vm.Push

/-!
# The fetch loop

What `execute_contract` should be: a loop that decodes `code[PC]` while `PC` is
inside the code and ends behind `STOP`, `RETURN`, `REVERT`, `INVALID` and the
unsupported opcodes. `refNext` is one turn of it, with the same
`decode_instruction`, the same gas test and the same end on a negative status.

The code has three tests that do not fit it: the bound is `PC < size - 1`, in
unsigned arithmetic; `STOP` is recognised in front of an instruction, so not in
front of the first one; and `INVALID` and a `REVERT` with a bad offset return
zero. `fetchMeets_iff` says exactly which codes are decoded as the reference loop
decodes them: the two run in step as long as every head the reference loop comes
to is `HeadOk`.

Both sides are compared on the positions of the instructions they decode, with
`STOP` left out: the code sees most `STOP`s without decoding them.
-/

namespace TinyEvm

open Lib.Exec Lib.Loop

/-- The opcodes that end a run. -/
def OpCode.ends : OpCode → Bool
  | stop | ret | revert | invalid | unsupported => true
  | _ => false

/-- One turn of the reference loop: the next loop head, if there is one. -/
def refNext (c : Code) (s : Vm) : Option Vm :=
  match c.bytes[s.pc.toNat]? with
  | none => none
  | some b =>
    if s.gasCharge > gasLimit ∨ (OpCode.ofByte b).ends then none
    else match decodeInstruction b c s with
      | .ok status s₁ => if status < 0 then none else some s₁.next
      | .error _ _ => none

/-- The positions the reference loop decodes in its first turns, `STOP` aside. -/
def refPcs (c : Code) : Nat → Vm → List UInt32
  | 0, _ => []
  | k + 1, s =>
    match c.bytes[s.pc.toNat]? with
    | none => []
    | some b =>
      if s.gasCharge > gasLimit ∨ b = 0x00 then []
      else s.pc :: match refNext c s with
        | some s' => refPcs c k s'
        | none => []

/-- The positions `execute_contract` decodes in its first rounds, `STOP` aside. -/
def decodedPcs (c : Code) : Nat → Vm → List UInt32
  | 0, _ => []
  | k + 1, s =>
    if s.pc < c.sizeof - 1 ∧ ¬s.gasCharge > gasLimit then
      (if c.bytes[s.pc.toNat]? = some 0x00 then [] else [s.pc]) ++
        match executeRound c c.sizeof s with
        | .ok none s' => decodedPcs c k s'
        | _ => []
    else []

/-- From a fresh machine the two decode the same instructions. -/
def FetchMeets (c : Code) (vm : Vm) : Prop :=
  ∀ k, decodedPcs c k (after (initMachine vm)) = refPcs c k (after (initMachine vm))

/-- Nothing is decoded behind position `p`: what stands there is `STOP`, or the
last byte, or nothing. -/
def Quiet (c : Code) (p : Nat) : Prop := c.size ≤ p + 2 ∨ c.byte (p + 1) = 0x00

/-- An ending instruction `b` that lets the run go on to a further one. -/
def FallsThrough (c : Code) (b : UInt8) (s : Vm) : Prop :=
  (OpCode.ofByte b = .invalid ∨ (OpCode.ofByte b = .revert ∧ InStack s.sp ∧ InStack (s.sp - 1) ∧
    memorySpace < (s.slot s.sp).lower.lower.toNat)) ∧
  ¬Quiet c s.pc.toNat ∧ ¬s.gasCharge + (OpCode.ofByte b).gas > gasLimit

/-- A head at which the code does what the reference loop does: the instruction
is not the last byte of the code, and it does not fall through. -/
def HeadOk (c : Code) (s : Vm) : Prop :=
  ∀ b, c.bytes[s.pc.toNat]? = some b → ¬s.gasCharge > gasLimit → b ≠ 0x00 →
    s.pc.toNat + 1 < c.size ∧ ¬FallsThrough c b s

/-- The heads of the reference loop. -/
def RefReaches (c : Code) : Vm → Vm → Prop :=
  Relation.ReflTransGen fun s s' => refNext c s = some s'

/-! ## The bound, and the look at the next byte -/

theorem bytes_eq_byte {c : Code} {i : Nat} (h : i < c.size) : c.bytes[i]? = some (c.byte i) := by
  unfold Code.byte
  rw [List.getElem?_eq_getElem h]
  rfl

/-- What the code decodes from the point where it looks at the next byte. -/
def aheadPcs (c : Code) (k : Nat) (s : Vm) : List UInt32 :=
  match c.bytes[s.pc.toNat]? with
  | none => []
  | some b => if b = 0x00 then [] else decodedPcs c k s

/-- A round of the code, seen from behind the decoding. -/
def tailPcs (c : Code) (k : Nat) (b : UInt8) (s : Vm) : List UInt32 :=
  match decodeInstruction b c s with
  | .error _ _ => []
  | .ok status s₁ => if status = returnStatus ∨ status < 0 then [] else aheadPcs c k s₁.next

theorem decodedPcs_succ {c : Code} {s : Vm} {b : UInt8} (hb : c.bytes[s.pc.toNat]? = some b)
    (hpc : s.pc.toNat + 1 < c.size) (hgas : ¬s.gasCharge > gasLimit) (k : Nat) :
    decodedPcs c (k + 1) s = (if b = 0x00 then [] else [s.pc]) ++ tailPcs c k b s := by
  have hlt : s.pc < c.sizeof - 1 := (lt_sizeof_iff (by omega)).mpr hpc
  rw [decodedPcs, if_pos ⟨hlt, hgas⟩, hb]
  congr 1
  · by_cases hzero : b = 0x00
    · rw [if_pos (by rw [hzero]), if_pos hzero]
    · rw [if_neg (fun h => hzero (Option.some.inj h)), if_neg hzero]
  · unfold tailPcs
    cases hd : decodeInstruction b c s with
    | error f s₁ => rw [executeRound_decode_fault hlt hgas hb hd]
    | ok status s₁ =>
      rw [executeRound_decode hlt hgas hb hd, afterDecode]
      show _ = if status = returnStatus ∨ status < 0 then [] else aheadPcs c k s₁.next
      by_cases hret : status = returnStatus
      · rw [if_pos hret, if_pos (Or.inl hret)]
      · by_cases hneg : status < 0
        · rw [if_neg hret, if_pos hneg, if_pos (Or.inr hneg)]
        · rw [if_neg hret, if_neg hneg, if_neg (by rintro (h | h) <;> contradiction), aheadPcs]
          cases hn : c.bytes[s₁.next.pc.toNat]? with
          | none => rfl
          | some b' =>
            dsimp only
            by_cases hz : b' = 0x00
            · rw [if_pos hz, if_pos hz]
            · rw [if_neg hz, if_neg hz]

/-! ## Instructions that end the run -/

/-- Only `RETURN` and `REVERT` return the status `RETURN`. -/
theorem outcome_return {op : OpCode} {d : UInt32} (h : op.outcome returnStatus = some d) :
    op = .ret ∨ op = .revert := by
  cases op with
  | ret => exact Or.inl rfl
  | revert => exact Or.inr rfl
  | _ => cases h

/-- Everything a `REVERT` that returns can do. -/
theorem opRevert_cases {s s₁ : Vm} {status : Int} (h : opRevert s = .ok status s₁) :
    InStack s.sp ∧ InStack (s.sp - 1) ∧
    ((memorySpace < (s.slot s.sp).lower.lower.toNat ∧ status = 0 ∧
        s₁ = { s.popped.popped with gasCharge := s.gasCharge + 3 }) ∨
      (¬memorySpace < (s.slot s.sp).lower.lower.toNat ∧ status = returnStatus)) := by
  have hin : InStack s.sp := by
    by_contra hout
    unfold opRevert stackPopLow at h
    rw [bind_error (bind_error (stackPop_fault hout) _)] at h
    cases h
  have hin' : InStack s.popped.sp := by
    by_contra hout
    unfold opRevert at h
    rw [bind_ok (stackPopLow_ok hin)] at h
    unfold stackPopLow at h
    rw [bind_error (bind_error (stackPop_fault hout) _)] at h
    cases h
  refine ⟨hin, hin', ?_⟩
  unfold opRevert at h
  rw [bind_ok (stackPopLow_ok hin), bind_ok (stackPopLow_ok hin')] at h
  by_cases hbad : (s.slot s.sp).lower.lower.toNat > memorySpace
  · rw [if_pos hbad] at h
    cases h
    exact Or.inl ⟨hbad, rfl, rfl⟩
  · rw [if_neg hbad] at h
    obtain ⟨_, s₂, -, h⟩ := bind_eq_ok.mp h
    cases h
    exact Or.inr ⟨hbad, rfl⟩

theorem opRevert_falls {s : Vm} (hin : InStack s.sp) (hin' : InStack (s.sp - 1))
    (hbad : memorySpace < (s.slot s.sp).lower.lower.toNat) :
    opRevert s = .ok 0 { s.popped.popped with gasCharge := s.gasCharge + 3 } := by
  unfold opRevert
  rw [bind_ok (stackPopLow_ok hin), bind_ok (stackPopLow_ok (s := s.popped) hin'), if_pos hbad]
  rfl

/-- Behind position `p` nothing is decoded exactly when it is quiet there or the
gas is spent. -/
theorem aheadPcs_nil_iff {c : Code} {s : Vm} {p : Nat} (hpc : s.pc.toNat = p + 1)
    (hp : p + 1 < c.size) :
    (∀ k, aheadPcs c k s = []) ↔ Quiet c p ∨ s.gasCharge > gasLimit := by
  have hb : c.bytes[s.pc.toNat]? = some (c.byte (p + 1)) := by rw [hpc, bytes_eq_byte hp]
  have hahead : ∀ k, aheadPcs c k s = if c.byte (p + 1) = 0x00 then [] else decodedPcs c k s := by
    intro k
    rw [aheadPcs, hb]
  refine ⟨?_, ?_⟩
  · intro hnil
    by_contra hloud
    obtain ⟨hquiet, hgas⟩ := not_or.mp hloud
    obtain ⟨hsize, hbyte⟩ := not_or.mp hquiet
    -- one round already decodes the instruction behind `p`
    have hone := hnil 1
    rw [hahead, if_neg hbyte, decodedPcs_succ hb (by omega) hgas, if_neg hbyte] at hone
    cases hone
  · intro h k
    rw [hahead]
    split
    · rfl
    next hbyte =>
      cases k with
      | zero => rfl
      | succ k =>
        rw [decodedPcs, if_neg]
        intro hcase
        obtain ⟨hlt, hgas⟩ := hcase
        rw [lt_sizeof_iff (by omega)] at hlt
        rcases h with (hsize | hzero) | hspent
        · omega
        · exact hbyte hzero
        · exact hgas hspent

/-- The reference stops at an ending instruction. -/
theorem refNext_ends {c : Code} {s : Vm} {b : UInt8} (hb : c.bytes[s.pc.toNat]? = some b)
    (hends : (OpCode.ofByte b).ends = true) : refNext c s = none := by
  rw [refNext, hb]
  exact if_pos (Or.inr hends)

/-- Behind an ending instruction the code decodes nothing more, unless that
instruction falls through. -/
theorem tailPcs_nil_iff {c : Code} {s : Vm} {b : UInt8} (hpc : s.pc.toNat + 1 < c.size)
    (hends : (OpCode.ofByte b).ends) (hb0 : b ≠ 0x00) :
    (∀ k, tailPcs c k b s = []) ↔ ¬FallsThrough c b s := by
  have hsize : c.size < 2 ^ 32 := c.size_lt
  have hnext : ∀ s₁ : Vm, s₁.pc = s.pc → s₁.next.pc.toNat = s.pc.toNat + 1 := by
    intro s₁ heq
    show (s₁.pc + 1).toNat = _
    rw [heq, UInt32.toNat_add]
    show (_ + 1) % 2 ^ 32 = _
    omega
  have hstop : OpCode.ofByte b ≠ .stop := fun h => hb0 (OpCode.ofByte_eq_stop h)
  have hout := fun status s₁ => (decode_footprint c hstop).ok s status s₁
  unfold tailPcs FallsThrough
  cases hop : OpCode.ofByte b with
  | stop => exact absurd hop hstop
  -- `RETURN` either faults or ends with the status `RETURN`
  | ret =>
    refine ⟨fun _ h => ?_, fun _ k => ?_⟩
    · rcases h.1 with h | ⟨h, -⟩ <;> cases h
    · cases hrun : decodeInstruction b c s with
      | error f s₁ => rfl
      | ok status s₁ =>
        obtain ⟨-, d, hd, -⟩ := hout status s₁ hrun
        rw [hop] at hd
        refine if_pos (Or.inl ?_)
        have hd : exits [returnStatus] status = some d := hd
        unfold exits at hd
        split at hd
        next hmem => exact List.mem_singleton.mp hmem
        next => cases hd
  | unsupported =>
    refine ⟨fun _ h => ?_, fun _ k => ?_⟩
    · rcases h.1 with h | ⟨h, -⟩ <;> cases h
    · unfold decodeInstruction
      rw [hop]
      rfl
  -- `INVALID` only breaks: what follows it decides
  | invalid =>
    have hrun : decodeInstruction b c s = .ok 0 s := by
      unfold decodeInstruction
      rw [hop]
      rfl
    rw [hrun]
    refine (aheadPcs_nil_iff (s := s.next) (hnext s rfl) hpc).trans ?_
    have hgas : s.next.gasCharge = s.gasCharge + OpCode.invalid.gas := (UInt32.add_zero _).symm
    rw [hgas]
    tauto
  | revert =>
    have hdec : decodeInstruction b c = opRevert := by
      unfold decodeInstruction
      rw [hop]
    rw [hdec]
    -- `REVERT` ends the run only when its offset passes the range check
    by_cases hfalls : InStack s.sp ∧ InStack (s.sp - 1) ∧ memorySpace < (s.slot s.sp).lower.lower.toNat
    · rw [opRevert_falls hfalls.1 hfalls.2.1 hfalls.2.2]
      refine (aheadPcs_nil_iff (s := Vm.next { s.popped.popped with gasCharge := s.gasCharge + 3 })
        (hnext { s.popped.popped with gasCharge := s.gasCharge + 3 } rfl) hpc).trans ?_
      show _ ∨ s.gasCharge + OpCode.revert.gas > gasLimit ↔ _
      tauto
    · refine ⟨fun _ h => ?_, fun _ k => ?_⟩
      · rcases h.1 with h | ⟨-, h⟩
        · cases h
        · exact hfalls h
      · cases hrun : opRevert s with
        | error f s₁ => rfl
        | ok status s₁ =>
          obtain ⟨hin, hin', ⟨hbad, -⟩ | ⟨-, hret⟩⟩ := opRevert_cases hrun
          · exact absurd ⟨hin, hin', hbad⟩ hfalls
          · exact if_pos (Or.inl hret)
  | _ => rw [hop] at hends; cases hends

/-! ## The two loops in step -/

/-- Behind any other instruction the code stands where the reference loop stands,
about to look at the next byte. -/
theorem tailPcs_eq {c : Code} {s : Vm} {b : UInt8} (hb : c.bytes[s.pc.toNat]? = some b)
    (hgas : ¬s.gasCharge > gasLimit) (hends : ¬(OpCode.ofByte b).ends) (k : Nat) :
    tailPcs c k b s = match refNext c s with
      | some s' => aheadPcs c k s'
      | none => [] := by
  have hstop : OpCode.ofByte b ≠ .stop := by
    intro hop
    rw [hop] at hends
    exact hends rfl
  rw [refNext, hb]
  dsimp only
  rw [if_neg (by rintro (h | h) <;> contradiction), tailPcs]
  cases hrun : decodeInstruction b c s with
  | error f s₁ => rfl
  | ok status s₁ =>
    dsimp only
    by_cases hneg : status < 0
    · rw [if_pos (Or.inr hneg), if_pos hneg]
    -- the status `RETURN` belongs to ending instructions only
    · have hret : status ≠ returnStatus := by
        intro hret
        obtain ⟨-, d, hd, -⟩ := (decode_footprint c hstop).ok s status s₁ hrun
        rw [hret] at hd
        rcases outcome_return hd with hop | hop
        · rw [hop] at hends
          exact hends rfl
        · rw [hop] at hends
          exact hends rfl
      rw [if_neg (by rintro (h | h) <;> contradiction), if_neg hneg]

theorem refPcs_succ {c : Code} {s : Vm} {b : UInt8} (hb : c.bytes[s.pc.toNat]? = some b)
    (hgas : ¬s.gasCharge > gasLimit) (hb0 : b ≠ 0x00) (k : Nat) :
    refPcs c (k + 1) s = s.pc :: match refNext c s with
      | some s' => refPcs c k s'
      | none => [] := by
  rw [refPcs, hb]
  dsimp only
  rw [if_neg (by rintro (h | h) <;> contradiction)]

/-- The code, from where it looks at the next byte, and the reference loop decode
the same. -/
def Agree (c : Code) (s : Vm) : Prop := ∀ k, aheadPcs c k s = refPcs c k s

/-- Where nothing is left to decode they agree. -/
theorem agree_of_idle {c : Code} {s : Vm}
    (h : ∀ b, c.bytes[s.pc.toNat]? = some b → s.gasCharge > gasLimit ∨ b = 0x00) : Agree c s := by
  intro k
  unfold aheadPcs
  cases k with
  | zero =>
    split
    · rfl
    · split <;> rfl
  | succ k =>
    rw [refPcs]
    cases hb : c.bytes[s.pc.toNat]? with
    | none => rfl
    | some b =>
      dsimp only
      rw [if_pos (h b hb)]
      split
      · rfl
      next hb0 =>
        rw [decodedPcs, if_neg]
        intro hcase
        obtain ⟨-, hgas⟩ := hcase
        rcases h b hb with hspent | hzero
        · exact hgas hspent
        · exact hb0 hzero

/-- At an instruction, they agree exactly when the head is `HeadOk` and they agree
at the next one. -/
theorem agree_iff {c : Code} {s : Vm} {b : UInt8} (hb : c.bytes[s.pc.toNat]? = some b)
    (hgas : ¬s.gasCharge > gasLimit) (hb0 : b ≠ 0x00) :
    Agree c s ↔ (s.pc.toNat + 1 < c.size ∧ ¬FallsThrough c b s) ∧
      ∀ s', refNext c s = some s' → Agree c s' := by
  have hahead : ∀ k, aheadPcs c k s = decodedPcs c k s := by
    intro k
    rw [aheadPcs, hb]
    exact if_neg hb0
  -- with the bound passed, agreement is agreement behind the decoding
  have htails : s.pc.toNat + 1 < c.size → (Agree c s ↔ ∀ k, tailPcs c k b s = match refNext c s with
      | some s' => refPcs c k s'
      | none => []) := by
    intro hpc
    refine ⟨?_, ?_⟩
    · intro hagree k
      have hk := hagree (k + 1)
      rw [hahead, decodedPcs_succ hb hpc hgas, if_neg hb0, refPcs_succ hb hgas hb0] at hk
      exact List.tail_eq_of_cons_eq hk
    · intro htail k
      rw [hahead]
      cases k with
      | zero => rfl
      | succ k =>
        rw [decodedPcs_succ hb hpc hgas, if_neg hb0, refPcs_succ hb hgas hb0, htail]
        rfl
  by_cases hpc : s.pc.toNat + 1 < c.size
  · rw [htails hpc]
    by_cases hends : (OpCode.ofByte b).ends = true
    · rw [refNext_ends hb hends]
      refine (tailPcs_nil_iff hpc hends hb0).trans ?_
      refine ⟨?_, ?_⟩
      · intro hfalls
        exact ⟨⟨hpc, hfalls⟩, fun s' h => by cases h⟩
      · intro h
        exact h.1.2
    · have hfalls : ¬FallsThrough c b s := by
        intro hcase
        obtain ⟨hop | ⟨hop, -⟩, -⟩ := hcase
        · rw [hop] at hends
          exact hends rfl
        · rw [hop] at hends
          exact hends rfl
      refine ⟨?_, ?_⟩
      · intro htail
        refine ⟨⟨hpc, hfalls⟩, ?_⟩
        intro s' hs' k
        have hk := htail k
        rw [tailPcs_eq hb hgas hends, hs'] at hk
        exact hk
      · rintro ⟨-, hnext⟩ k
        rw [tailPcs_eq hb hgas hends]
        cases hs' : refNext c s with
        | none => rfl
        | some s' => exact hnext s' hs' k
  · refine ⟨?_, ?_⟩
    · intro hagree
      -- the last byte: the reference loop decodes it, the code does not
      exfalso
      have hlt : s.pc.toNat < c.size := (List.getElem?_eq_some_iff.mp hb).1
      have hone := hagree 1
      rw [hahead, refPcs_succ hb hgas hb0, decodedPcs, if_neg] at hone
      · cases hone
      · intro hcase
        obtain ⟨h, -⟩ := hcase
        exact hpc ((lt_sizeof_iff (by omega)).mp h)
    · intro h
      exact absurd h.1.1 hpc

/-- **In step.** They agree from a head exactly when every head the reference loop
comes to from there is `HeadOk`. -/
theorem agree_iff_headOk {c : Code} {s : Vm} :
    Agree c s ↔ ∀ s', RefReaches c s s' → HeadOk c s' := by
  refine ⟨?_, ?_⟩
  · intro hagree s' hreach
    have hs' : Agree c s' := by
      induction hreach with
      | refl => exact hagree
      | @tail s₁ s₂ _ hlast ih =>
        -- a head with a successor has decoded an instruction
        obtain ⟨b, hb, hgas, hb0⟩ : ∃ b, c.bytes[s₁.pc.toNat]? = some b ∧
            ¬s₁.gasCharge > gasLimit ∧ b ≠ 0x00 := by
          rw [refNext] at hlast
          split at hlast
          · cases hlast
          next b hb =>
            split at hlast
            · cases hlast
            next hgo =>
              obtain ⟨hgas, hends⟩ := not_or.mp hgo
              refine ⟨b, hb, hgas, ?_⟩
              rintro rfl
              exact hends rfl
        exact ((agree_iff hb hgas hb0).mp ih).2 s₂ hlast
    intro b hb hgas hb0
    exact ((agree_iff hb hgas hb0).mp hs').1
  · intro hok k
    induction k generalizing s with
    | zero =>
      unfold aheadPcs
      split
      · rfl
      · split <;> rfl
    | succ k ih =>
      by_cases hbusy : ∃ b, c.bytes[s.pc.toNat]? = some b ∧ ¬s.gasCharge > gasLimit ∧ b ≠ 0x00
      · obtain ⟨b, hb, hgas, hb0⟩ := hbusy
        obtain ⟨hpc, hfalls⟩ := hok s Relation.ReflTransGen.refl b hb hgas hb0
        rw [aheadPcs, hb]
        dsimp only
        rw [if_neg hb0, decodedPcs_succ hb hpc hgas, if_neg hb0, refPcs_succ hb hgas hb0]
        refine congrArg (s.pc :: ·) ?_
        by_cases hends : (OpCode.ofByte b).ends = true
        · rw [refNext_ends hb hends]
          exact (tailPcs_nil_iff hpc hends hb0).mpr hfalls k
        · rw [tailPcs_eq hb hgas hends]
          cases hs' : refNext c s with
          | none => rfl
          | some s' =>
            exact ih fun h hreach => hok h (Relation.ReflTransGen.head hs' hreach)
      · refine agree_of_idle ?_ (k + 1)
        intro b hb
        by_contra hnot
        obtain ⟨hgas, hb0⟩ := not_or.mp hnot
        exact hbusy ⟨b, hb, hgas, hb0⟩

/-- The first head is reached without a look at its byte: a `STOP` there is
decoded, and the run goes on behind it. -/
theorem first_stop_iff {c : Code} {s : Vm} (hpc : s.pc = 0) (hgas : ¬s.gasCharge > gasLimit)
    (hb : c.bytes[s.pc.toNat]? = some 0x00) :
    (∀ k, decodedPcs c k s = refPcs c k s) ↔ Quiet c 0 := by
  have hzero : s.pc.toNat = 0 := by
    rw [hpc]
    rfl
  have hsize : 0 < c.size := by
    have hlt := (List.getElem?_eq_some_iff.mp hb).1
    exact Nat.lt_of_le_of_lt (Nat.zero_le _) hlt
  have href : ∀ k, refPcs c k s = [] := by
    intro k
    cases k with
    | zero => rfl
    | succ k =>
      rw [refPcs, hb]
      exact if_pos (Or.inr rfl)
  by_cases hone : 1 < c.size
  · -- `STOP` is decoded: `PC` and the gas counter are zero again
    have hcode : ∀ k, decodedPcs c (k + 1) s
        = aheadPcs c k (Vm.next { s with pc := 0, sp := 0, gasCharge := 0 }) := by
      intro k
      rw [decodedPcs_succ hb (by omega) hgas, if_pos rfl, List.nil_append, tailPcs]
      rfl
    have hnil := aheadPcs_nil_iff (c := c) (s := Vm.next { s with pc := 0, sp := 0, gasCharge := 0 })
      (p := 0) rfl hone
    have hspent : ¬(Vm.next { s with pc := 0, sp := 0, gasCharge := 0 }).gasCharge > gasLimit := by
      show ¬(0 : UInt32) > gasLimit
      decide
    rw [or_iff_left hspent] at hnil
    rw [← hnil]
    refine ⟨?_, ?_⟩
    · intro h k
      rw [← hcode, h, href]
    · intro h k
      rw [href]
      cases k with
      | zero => rfl
      | succ k => rw [hcode, h]
  · refine ⟨fun _ => Or.inl (by omega), fun _ k => ?_⟩
    rw [href]
    cases k with
    | zero => rfl
    | succ k =>
      rw [decodedPcs, if_neg]
      intro hcase
      obtain ⟨h, -⟩ := hcase
      rw [lt_sizeof_iff hsize] at h
      omega

/-- **The fetch loop.** From a fresh machine `execute_contract` decodes what the
reference loop decodes exactly when the code is not empty, a `STOP` in front has
nothing behind it, and every head the reference loop comes to is `HeadOk`. -/
theorem fetchMeets_iff (c : Code) (vm : Vm) :
    FetchMeets c vm ↔ 0 < c.size ∧ (c.byte 0 = 0x00 → Quiet c 0) ∧
      ∀ s, RefReaches c (after (initMachine vm)) s → HeadOk c s := by
  have hpc : (after (initMachine vm)).pc = 0 := rfl
  have hgas : ¬(after (initMachine vm)).gasCharge > gasLimit := by
    show ¬(0 : UInt32) > gasLimit
    decide
  unfold FetchMeets
  generalize after (initMachine vm) = s at hpc hgas ⊢
  have hzero : s.pc.toNat = 0 := by
    rw [hpc]
    rfl
  by_cases hsize : 0 < c.size
  · have hb : c.bytes[s.pc.toNat]? = some (c.byte 0) := by rw [hzero, bytes_eq_byte hsize]
    by_cases hstop : c.byte 0 = 0x00
    · rw [hstop] at hb
      rw [first_stop_iff hpc hgas hb]
      refine ⟨fun hquiet => ⟨hsize, fun _ => hquiet, ?_⟩, fun h => h.2.1 hstop⟩
      have hagree : Agree c s := agree_of_idle fun b hb' => by
        rw [hb] at hb'
        exact Or.inr (Option.some.inj hb').symm
      exact agree_iff_headOk.mp hagree
    · have hahead : ∀ k, decodedPcs c k s = aheadPcs c k s := by
        intro k
        rw [aheadPcs, hb]
        exact (if_neg hstop).symm
      simp only [hahead]
      refine (agree_iff_headOk (c := c) (s := s)).trans ?_
      refine ⟨fun h => ⟨hsize, fun habs => absurd habs hstop, h⟩, fun h => h.2.2⟩
  · -- an empty code: `size - 1` wraps, and the code reads `s_contract[0]`
    refine ⟨fun h => ?_, fun h => absurd h.1 hsize⟩
    exfalso
    have hnil : c.bytes[s.pc.toNat]? = none :=
      List.getElem?_eq_none (show c.size ≤ _ by omega)
    have hlt : s.pc < c.sizeof - 1 := by
      have hzs : c.sizeof = 0 := UInt32.toNat_inj.mp (by rw [c.sizeof_toNat]; show _ = 0; omega)
      rw [hpc, hzs]
      decide
    have hone := h 1
    rw [decodedPcs, if_pos ⟨hlt, hgas⟩, refPcs, hnil] at hone
    cases hone

/-- The last instruction is skipped, a `STOP` in front is run over, and so is
`INVALID`; an empty code is fetched from. -/
theorem fetch_diverges :
    ¬FetchMeets ⟨[0x5b], by decide⟩ Vm.zeroed ∧
    ¬FetchMeets ⟨[0x00, 0x5b, 0x5b], by decide⟩ Vm.zeroed ∧
    ¬FetchMeets ⟨[0xfe, 0x5b, 0x5b], by decide⟩ Vm.zeroed ∧
    ¬FetchMeets ⟨[], by decide⟩ Vm.zeroed := by
  refine ⟨?_, ?_, ?_, ?_⟩
  · intro h
    exact absurd (h 1) (by decide)
  · intro h
    exact absurd (h 2) (by decide)
  · intro h
    exact absurd (h 2) (by decide)
  · intro h
    exact absurd (h 1) (by decide)

end TinyEvm
