import TinyEvm.Vm.Execute
import TinyEvm.Vm.Frame
import TinyEvm.Vm.Push

/-!
# Jumps and instruction boundaries

`Boundary c p` says that the linear disassembly of `c` has an instruction at `p`.
A destination is valid when a `JUMPDEST` stands at such a position; a jump taken
to any other should end the run with a negative status.

`JUMP` and `JUMPI` check nothing: the test `destination < 0` of `JUMP` is never
true of a `uint64_t`. They keep the low 32 bits of the destination, and `JUMPI`
the low 64 bits of the condition. Where they are right the loop still has to get to
the instruction behind the `JUMPDEST`, and it never decodes the last byte of the
code (`goesOnTo_iff`). `jump_iff` says for which operands that is what the EVM asks
for, and that a run all of whose jumps have valid destinations stays on instruction
boundaries.
-/

namespace TinyEvm

open Lib.Exec Lib.Loop

/-- The positions of instructions in the linear disassembly. -/
inductive Boundary (c : Code) : Nat → Prop
  | zero : Boundary c 0
  | next {p : Nat} {b : UInt8} : Boundary c p → c.bytes[p]? = some b →
      Boundary c (p + 1 + (OpCode.ofByte b).immediate)

/-- `d` is the position of a `JUMPDEST` that is an instruction. -/
def ValidDest (c : Code) (d : Nat) : Prop :=
  d < c.size ∧ c.bytes[d]? = some 0x5b ∧ Boundary c d

/-- From `s`, which `decode_instruction` left with status zero, the loop goes on to the
instruction at `p`: it decodes it at the next head, or sees there the `STOP` that ends
the run. -/
def GoesOnTo (c : Code) (p : Nat) (s : Vm) : Prop :=
  s.next.pc.toNat = p ∧
    (afterDecode c 0 s = .ok (some .stop) s.next ∨
      afterDecode c 0 s = .ok none s.next ∧ ∃ b, Decodes c c.sizeof s.next b)

/-- The instruction behind `d` is one the loop gets to: it is not the last byte of the
code, or it is a `STOP`. -/
def Followed (c : Code) (d : Nat) : Prop := d + 2 < c.size ∨ c.bytes[d + 1]? = some 0x00

/-- The jump `b` to `d`, `taken` or not, does what the EVM asks: it falls through,
or goes on with the instruction behind the `JUMPDEST`, or ends with a negative status. -/
def BranchMeets (c : Code) (b : UInt8) (taken : Prop) (d : Nat) (s : Vm) : Prop :=
  (¬taken → ∃ s', decodeInstruction b c s = .ok 0 s' ∧ s'.pc = s.pc) ∧
  (taken → ValidDest c d → ∃ s', decodeInstruction b c s = .ok 0 s' ∧ GoesOnTo c (d + 1) s') ∧
  (taken → ¬ValidDest c d → ∃ status s', decodeInstruction b c s = .ok status s' ∧ status < 0)

/-! ## Destinations and conditions -/

/-- A word below `2^32` is what `PC` keeps of it. -/
theorem toUInt32_of_lt {w : Uint256} (h : w.val < 2 ^ 32) : w.lower.lower.toUInt32.toNat = w.val := by
  rw [w.lowest_toUInt32]
  exact Nat.mod_eq_of_lt h

/-- `JUMPI` tests the lowest limb of its condition. -/
theorem low_ne_zero_iff (w : Uint256) : w.lower.lower ≠ 0 ↔ w.val % 2 ^ 64 ≠ 0 :=
  not_congr w.lowest_eq_zero_iff

/-- The head behind a valid destination. -/
theorem next_pc_of_dest {c : Code} {s : Vm} {d : Nat} (hd : d < c.size) (hpc : s.pc.toNat = d) :
    s.next.pc.toNat = d + 1 := by
  have hsize : c.size < 2 ^ 32 := c.size_lt
  show (s.pc + 1).toNat = _
  rw [UInt32.toNat_add, hpc]
  show (d + 1) % 2 ^ 32 = _
  omega

/-- From `d` the loop gets to the instruction behind it exactly when `d` is followed. -/
theorem goesOnTo_iff {c : Code} {s : Vm} {d : Nat} (hd : d < c.size) (hpc : s.pc.toNat = d)
    (hpaid : ¬s.gasCharge > gasLimit) : GoesOnTo c (d + 1) s ↔ Followed c d := by
  have hnext := next_pc_of_dest hd hpc
  have hinside : s.next.pc < c.sizeof - 1 ↔ d + 2 < c.size := by
    rw [lt_sizeof_iff (by omega), hnext]
  unfold GoesOnTo Followed afterDecode
  rw [if_neg (by decide), if_neg (by decide), hnext]
  cases hb : c.bytes[d + 1]? with
  | none =>
    have hend : c.size ≤ d + 1 := List.getElem?_eq_none_iff.mp hb
    refine ⟨?_, ?_⟩
    · intro h
      obtain ⟨-, habs | ⟨habs, -⟩⟩ := h
      · cases habs
      · cases habs
    · intro h
      obtain hlt | habs := h
      · omega
      · cases habs
  | some b =>
    simp only
    by_cases hstop : b = 0x00
    · rw [if_pos hstop, hstop]
      exact ⟨fun _ => Or.inr rfl, fun _ => ⟨trivial, Or.inl rfl⟩⟩
    · rw [if_neg hstop]
      refine ⟨?_, ?_⟩
      · intro h
        obtain ⟨-, habs | ⟨-, b', hb'⟩⟩ := h
        · cases habs
        · exact Or.inl (hinside.mp hb'.inside)
      · intro h
        obtain hlt | habs := h
        · have hbyte : c.bytes[s.next.pc.toNat]? = some b := by
            rw [hnext]
            exact hb
          exact ⟨trivial, Or.inr ⟨rfl, b, hinside.mpr hlt, hpaid, hbyte⟩⟩
        · exact absurd (Option.some.inj habs) hstop

/-- **`JUMP`** is right exactly at a valid destination that is followed. -/
theorem jump_meets_iff {c : Code} {s : Vm} (hin : InStack s.sp) (hb : Decodes c c.sizeof s 0x56) :
    BranchMeets c 0x56 True (s.slot s.sp).val s ↔
      ValidDest c (s.slot s.sp).val ∧ Followed c (s.slot s.sp).val := by
  have hrun : decodeInstruction 0x56 c s = _ := opJump_ok hin
  have hsize : c.size < 2 ^ 32 := c.size_lt
  have hlands : ValidDest c (s.slot s.sp).val →
      (GoesOnTo c ((s.slot s.sp).val + 1) { s.popped with pc := (s.slot s.sp).lower.lower.toUInt32 } ↔
        Followed c (s.slot s.sp).val) := by
    intro hvalid
    have hlt := hvalid.1
    exact goesOnTo_iff hlt (toUInt32_of_lt (by omega)) hb.paid
  refine ⟨?_, ?_⟩
  · intro hmeets
    obtain ⟨-, hgood, hbad⟩ := hmeets
    have hvalid : ValidDest c (s.slot s.sp).val := by
      by_contra hinvalid
      obtain ⟨status, s', hok, hneg⟩ := hbad trivial hinvalid
      rw [hrun] at hok
      cases hok
      omega
    obtain ⟨s', hok, hnext⟩ := hgood trivial hvalid
    rw [hrun] at hok
    cases hok
    exact ⟨hvalid, (hlands hvalid).mp hnext⟩
  · intro h
    obtain ⟨hvalid, hfollowed⟩ := h
    exact ⟨fun h => absurd trivial h, fun _ _ => ⟨_, hrun, (hlands hvalid).mpr hfollowed⟩,
      fun _ h => absurd hvalid h⟩

/-- **`JUMPI`** is right exactly when its condition is zero, or not zero in its
lowest limb with a valid destination that is followed. -/
theorem jumpi_meets_iff {c : Code} {s : Vm} (hin : InStack s.sp) (hin' : InStack (s.sp - 1))
    (hb : Decodes c c.sizeof s 0x57) :
    BranchMeets c 0x57 ((s.slot (s.sp - 1)).val ≠ 0) (s.slot s.sp).val s ↔
      (s.slot (s.sp - 1)).val = 0 ∨ (ValidDest c (s.slot s.sp).val ∧
        Followed c (s.slot s.sp).val ∧ (s.slot (s.sp - 1)).val % 2 ^ 64 ≠ 0) := by
  have hrun : decodeInstruction 0x57 c s = _ := opJumpi_ok hin hin'
  have hsize : c.size < 2 ^ 32 := c.size_lt
  -- where a condition that is not zero in its lowest limb takes the loop
  have hlands : ValidDest c (s.slot s.sp).val → (s.slot (s.sp - 1)).val % 2 ^ 64 ≠ 0 →
      (GoesOnTo c ((s.slot s.sp).val + 1) { s.popped.popped with
        pc := if (s.slot (s.sp - 1)).lower.lower ≠ 0 then (s.slot s.sp).lower.lower.toUInt32
          else s.pc } ↔ Followed c (s.slot s.sp).val) := by
    intro hvalid hlow
    have hlt := hvalid.1
    refine goesOnTo_iff hlt ?_ hb.paid
    show (if (s.slot (s.sp - 1)).lower.lower ≠ 0 then _ else s.pc).toNat = _
    rw [if_pos ((low_ne_zero_iff _).mpr hlow)]
    exact toUInt32_of_lt (by omega)
  refine ⟨?_, ?_⟩
  · intro hmeets
    obtain ⟨-, hgood, hbad⟩ := hmeets
    by_cases hzero : (s.slot (s.sp - 1)).val = 0
    · exact Or.inl hzero
    · right
      have hvalid : ValidDest c (s.slot s.sp).val := by
        by_contra hinvalid
        obtain ⟨status, s', hok, hneg⟩ := hbad hzero hinvalid
        rw [hrun] at hok
        cases hok
        omega
      obtain ⟨s', hok, hgoes⟩ := hgood hzero hvalid
      rw [hrun] at hok
      cases hok
      suffices hlow : (s.slot (s.sp - 1)).val % 2 ^ 64 ≠ 0 from
        ⟨hvalid, (hlands hvalid hlow).mp hgoes, hlow⟩
      intro hlow
      -- a condition whose lowest limb is zero falls through, to `PC + 1`
      have hpc := hgoes.1
      have hfalls : ¬(s.slot (s.sp - 1)).lower.lower ≠ 0 := fun h => (low_ne_zero_iff _).mp h hlow
      have hnext : (s.pc + 1).toNat = (s.slot s.sp).val + 1 := by
        rw [← hpc]
        show _ = ((if (s.slot (s.sp - 1)).lower.lower ≠ 0 then _ else s.pc) + 1).toNat
        rw [if_neg hfalls]
      have hsame : s.pc.toNat = (s.slot s.sp).val := by
        have hpclt := s.pc.toNat_lt
        rw [UInt32.toNat_add] at hnext
        have hone : (1 : UInt32).toNat = 1 := rfl
        omega
      have hdest := hvalid.2.1
      rw [← hsame, hb.byte] at hdest
      exact absurd hdest (by decide)
  · intro hcond
    refine ⟨fun hnot => ⟨_, hrun, ?_⟩, fun htaken hvalid => ⟨_, hrun, ?_⟩, fun htaken hinvalid => ?_⟩
    · have hzero : (s.slot (s.sp - 1)).val = 0 := by
        by_contra hne
        exact hnot hne
      have hfalls : ¬(s.slot (s.sp - 1)).lower.lower ≠ 0 := by
        rw [low_ne_zero_iff, hzero]
        decide
      exact if_neg hfalls
    · rcases hcond with hzero | ⟨-, hfollowed, hlow⟩
      · exact absurd hzero htaken
      · exact (hlands hvalid hlow).mpr hfollowed
    · rcases hcond with hzero | ⟨hvalid, -⟩
      · exact absurd hzero htaken
      · exact absurd hvalid hinvalid

/-! ## Runs -/

/-- The jump of a round, if there is one, goes to a valid destination or falls through. -/
def JumpsRight (c : Code) (s : Vm) : Prop :=
  ∀ b, Decodes c c.sizeof s b →
    (OpCode.ofByte b = .jump → ValidDest c (s.slot s.sp).val) ∧
    (OpCode.ofByte b = .jumpi → (s.slot (s.sp - 1)).val = 0 ∨
      (ValidDest c (s.slot s.sp).val ∧ (s.slot (s.sp - 1)).val % 2 ^ 64 ≠ 0))

/-- A loop head on a boundary; a `STOP` is only ever looked at there as the first
instruction. -/
def OnBoundary (c : Code) (s : Vm) : Prop :=
  Boundary c s.pc.toNat ∧ (c.bytes[s.pc.toNat]? = some 0x00 → s.pc = 0)

/-- The position behind a valid destination is a boundary. -/
theorem boundary_of_dest {c : Code} {d : Nat} (h : ValidDest c d) : Boundary c (d + 1) :=
  Boundary.next h.2.2 h.2.1

/-- An opcode that pops faults unless there is something in `STACK` to pop. -/
theorem inStack_of_jump {s s' : Vm} {status : Int} (hrun : opJump s = .ok status s') :
    InStack s.sp := by
  by_contra hout
  unfold opJump stackPopLow at hrun
  rw [bind_error (bind_error (stackPop_fault hout) _)] at hrun
  cases hrun

theorem inStack_of_jumpi {s s' : Vm} {status : Int} (hrun : opJumpi s = .ok status s') :
    InStack s.sp ∧ InStack (s.sp - 1) := by
  have hin : InStack s.sp := by
    by_contra hout
    unfold opJumpi stackPopLow at hrun
    rw [bind_error (bind_error (stackPop_fault hout) _)] at hrun
    cases hrun
  refine ⟨hin, ?_⟩
  by_contra hout
  unfold opJumpi at hrun
  rw [bind_ok (stackPopLow_ok hin)] at hrun
  unfold stackPopLow at hrun
  rw [bind_error (bind_error (stackPop_fault (s := s.popped) hout) _)] at hrun
  cases hrun

/-- The position `PC ++` leads to from an opcode that was decoded on a boundary. -/
theorem decode_boundary {c : Code} {s s₁ : Vm} {b : UInt8} {status : Int}
    (hb : Decodes c c.sizeof s b)
    (hs : OnBoundary c s) (hjumps : JumpsRight c s) (hrun : decodeInstruction b c s = .ok status s₁)
    (hneg : 0 ≤ status) : Boundary c s₁.next.pc.toNat := by
  have hsize : c.size < 2 ^ 32 := c.size_lt
  have hlt : s.pc.toNat < c.size := (List.getElem?_eq_some_iff.mp hb.byte).1
  have hnext := Boundary.next hs.1 hb.byte
  by_cases hpc : (OpCode.ofByte b).setsPc = false
  · -- the usual case: `PC` moves on by one
    have himm : (OpCode.ofByte b).immediate = 0 := by
      cases hop : OpCode.ofByte b with
      | push n =>
        rw [hop] at hpc
        cases hpc
      | _ => rfl
    rw [himm, Nat.add_zero] at hnext
    rw [next_pc_of_dest hlt (by rw [decode_pc hpc hrun])]
    exact hnext
  · obtain ⟨hjump, hjumpi⟩ := hjumps b hb
    unfold decodeInstruction at hrun
    cases hop : OpCode.ofByte b with
    | stop =>
      rw [hop] at hrun
      obtain rfl : 0x00 = b := (OpCode.ofByte_eq_stop hop).symm
      have hzero := hs.2 hb.byte
      cases hrun
      have hfirst : s.pc.toNat = 0 := by
        rw [hzero]
        rfl
      rw [hfirst] at hnext
      exact hnext
    | push n =>
      rw [hop] at hrun hnext
      rcases opPush_cases (by omega) (by omega) hrun with ⟨habs, -⟩ | ⟨-, -, -, hinside, w, rfl⟩
      · omega
      · have hroom := (immediateInside_iff hlt).mp hinside
        have hadv : (s.afterPush (n.val + 1) w).pc.toNat = s.pc.toNat + (n.val + 1) :=
          Vm.advance_pc_toNat (s := s) hroom
        rw [next_pc_of_dest hroom hadv]
        have himm : (OpCode.push n).immediate = n.val + 1 := rfl
        rw [himm, Nat.add_right_comm] at hnext
        exact hnext
    | jump =>
      rw [hop] at hrun
      have hrun : opJump s = .ok status s₁ := hrun
      have hvalid := hjump hop
      have hdlt := hvalid.1
      rw [opJump_ok (inStack_of_jump hrun)] at hrun
      cases hrun
      rw [next_pc_of_dest hdlt (toUInt32_of_lt (by omega))]
      exact boundary_of_dest hvalid
    | jumpi =>
      rw [hop] at hrun hnext
      have hrun : opJumpi s = .ok status s₁ := hrun
      obtain ⟨hin, hin'⟩ := inStack_of_jumpi hrun
      rw [opJumpi_ok hin hin'] at hrun
      cases hrun
      by_cases hlow : (s.slot (s.sp - 1)).lower.lower ≠ 0
      · have hne := (low_ne_zero_iff _).mp hlow
        rcases hjumpi hop with hzero | ⟨hvalid, -⟩
        · rw [hzero] at hne
          exact absurd rfl hne
        · have hdlt := hvalid.1
          rw [if_pos hlow, next_pc_of_dest hdlt (toUInt32_of_lt (by omega))]
          exact boundary_of_dest hvalid
      · rw [if_neg hlow]
        show Boundary c s.next.pc.toNat
        rw [next_pc_of_dest hlt rfl]
        exact hnext
    | _ =>
      rw [hop] at hpc
      exact absurd rfl hpc

/-- **Control-flow integrity.** A `JUMP` or `JUMPI` that is decoded does what the EVM
asks exactly for the operands named here, and in a run all of whose jumps go to valid
destinations `PC` is at an instruction boundary at every loop head. -/
theorem jump_iff (c : Code) :
    (∀ s : Vm, InStack s.sp → Decodes c c.sizeof s 0x56 →
      (BranchMeets c 0x56 True (s.slot s.sp).val s ↔
        ValidDest c (s.slot s.sp).val ∧ Followed c (s.slot s.sp).val)) ∧
    (∀ s : Vm, InStack s.sp → InStack (s.sp - 1) → Decodes c c.sizeof s 0x57 →
      (BranchMeets c 0x57 ((s.slot (s.sp - 1)).val ≠ 0) (s.slot s.sp).val s ↔
        (s.slot (s.sp - 1)).val = 0 ∨ (ValidDest c (s.slot s.sp).val ∧
          Followed c (s.slot s.sp).val ∧ (s.slot (s.sp - 1)).val % 2 ^ 64 ≠ 0))) ∧
    ∀ vm s : Vm,
      ReachesWhile (JumpsRight c) (executeRound c c.sizeof) (after (initMachine vm)) s →
      Boundary c s.pc.toNat := by
  refine ⟨fun s hin hb => jump_meets_iff hin hb, fun s hin hin' hb => jumpi_meets_iff hin hin' hb, ?_⟩
  intro vm s hreach
  have hinv : OnBoundary c s := by
    refine reachesWhile_invariant ?_ hreach ⟨Boundary.zero, fun _ => rfl⟩
    intro s₁ s₂ hjumps hagain hs₁
    obtain ⟨b, status, s₃, b', hb, hrun, -, hneg, rfl, hb', hne⟩ := again_cases hagain
    refine ⟨decode_boundary hb hs₁ hjumps hrun hneg, fun hstop => ?_⟩
    rw [hb'] at hstop
    exact absurd (Option.some.inj hstop) hne
  exact hinv.1

/-- `PUSH1 3 JUMP JUMPDEST STOP`. -/
def hop : Code := ⟨[0x60, 0x03, 0x56, 0x5b, 0x00], by decide⟩

theorem hop_boundary : Boundary hop 3 := by
  have h2 : Boundary hop 2 := Boundary.next (b := 0x60) Boundary.zero rfl
  exact Boundary.next (b := 0x56) h2 rfl

/-- The head of its run that stands at the `JUMP`. -/
def atHop : Vm := after (executeRound hop hop.sizeof (after (initMachine Vm.zeroed)))

theorem atHop_decodes : Decodes hop hop.sizeof atHop 0x56 := ⟨by decide, by decide, rfl⟩

/-- There is no other head behind the first. -/
theorem hop_heads {s : Vm}
    (h : Reaches (executeRound hop hop.sizeof) (after (initMachine Vm.zeroed)) s) :
    s = after (initMachine Vm.zeroed) ∨ s = atHop := by
  obtain ⟨n, hgo, rfl⟩ := goesOn_of_reaches h
  have hn : n < 2 := by
    by_contra hge
    have htwo := goesOn_of_le (Nat.le_of_not_lt hge) hgo
    revert htwo
    decide
  obtain rfl | rfl : n = 0 ∨ n = 1 := by omega
  · exact Or.inl rfl
  · exact Or.inr rfl

/-- The jump to the `JUMPDEST`, a conditional jump not taken, and the head behind the
first round of the run. -/
theorem jump_iff_hop :
    BranchMeets hop 0x56 True (atHop.slot atHop.sp).val atHop ∧
    BranchMeets ⟨[0x57, 0x00], by decide⟩ 0x57 (0 ≠ 0) 0 { Vm.zeroed with sp := 2 } ∧
    Boundary hop atHop.pc.toNat := by
  refine ⟨((jump_iff hop).1 atHop (by decide) atHop_decodes).mpr
      ⟨⟨by decide, rfl, hop_boundary⟩, Or.inr rfl⟩,
    ((jump_iff ⟨[0x57, 0x00], by decide⟩).2.1 { Vm.zeroed with sp := 2 } (by decide) (by decide)
      ⟨by decide, by decide, rfl⟩).mpr (Or.inl rfl), ?_⟩
  refine (jump_iff hop).2.2 Vm.zeroed atHop (Relation.ReflTransGen.single ⟨?_, rfl⟩)
  intro b hb
  obtain rfl : 0x60 = b := Option.some.inj hb.byte
  exact ⟨nofun, nofun⟩

/-- `PUSH2 1 JUMP JUMPDEST`: the destination lies in the immediate of the `PUSH2`. -/
def stray : Code := ⟨[0x61, 0x00, 0x01, 0x56, 0x5b], by decide⟩

theorem stray_boundary : ¬Boundary stray 2 := by
  have hstep : ∀ p, Boundary stray p → p ≠ 1 ∧ p ≠ 2 := by
    intro p h
    induction h with
    | zero => decide
    | @next p b _ hb ih =>
      obtain ⟨h1, h2⟩ := ih
      by_cases hp : p = 0
      · subst hp
        obtain rfl : 0x61 = b := Option.some.inj hb
        decide
      · omega
  exact fun h => (hstep 2 h).2 rfl

/-- From a fresh machine, the second round of `stray` takes the jump, and the third
starts inside the immediate. -/
theorem jump_unchecked : ∃ s s', Reaches (executeRound stray stray.sizeof) (after (initMachine Vm.zeroed)) s ∧
    ¬BranchMeets stray 0x56 True (s.slot s.sp).val s ∧
    Again (executeRound stray stray.sizeof) s s' ∧ ¬Boundary stray s'.pc.toNat := by
  refine ⟨after (executeRound stray stray.sizeof (after (initMachine Vm.zeroed))), _,
    Relation.ReflTransGen.single rfl, ?_, rfl, stray_boundary⟩
  rw [jump_meets_iff (by decide) ⟨by decide, by decide, rfl⟩]
  intro h
  obtain ⟨hvalid, -⟩ := h
  exact absurd hvalid.2.1 (by decide)

end TinyEvm
