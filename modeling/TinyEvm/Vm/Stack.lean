import TinyEvm.Vm.Decode

/-!
# The primitives of the stack, run

What `stack_push`, `stack_pop` and the accesses to `STACK` do, one lemma per
outcome. `slot` reads a stack slot by the C index and `setSlot` writes one; both
are total, and agree with the array wherever the C access is inside it.
`popped` and `pushed` name the states the two primitives leave behind, so that
later proofs say which words are where instead of unfolding the array.
-/

namespace TinyEvm

open Lib.Buffer Lib.Exec

/-- An index inside `STACK`. -/
def InStack (i : Int) : Prop := 0 ≤ i ∧ i < stackSpace

instance (i : Int) : Decidable (InStack i) := inferInstanceAs (Decidable (_ ∧ _))

theorem inStack_of_le {i : Int} (h0 : 0 ≤ i) (h : i ≤ 95) : InStack i := by
  refine ⟨h0, ?_⟩
  show i < 96
  omega

theorem InStack.toNat_lt {i : Int} (h : InStack i) : i.toNat < stackSpace := by
  unfold InStack at h
  omega

/-- `STACK[i]`, zero outside the array. -/
def Vm.slot (s : Vm) (i : Int) : Uint256 :=
  if h : InStack i then s.stack ⟨i.toNat, h.toNat_lt⟩ else clear256

/-- `STACK[i] = w`. -/
def Vm.setSlot (s : Vm) (i : Int) (w : Uint256) : Vm :=
  { s with stack := fun j => if (j : Int) = i then w else s.stack j }

/-- The machine after `stack_pop`. -/
def Vm.popped (s : Vm) : Vm := { s with sp := s.sp - 1, slots := s.sp :: s.slots }

/-- The machine after `stack_push`. -/
def Vm.pushed (s : Vm) (w : Uint256) : Vm := { s with sp := s.sp + 1 }.setSlot (s.sp + 1) w

/-! ## Reading back -/

theorem Vm.slot_setSlot_same {s : Vm} {i : Int} (w : Uint256) (h : InStack i) :
    (s.setSlot i w).slot i = w := by
  unfold slot setSlot
  rw [dif_pos h]
  refine if_pos ?_
  unfold InStack at h
  exact Int.toNat_of_nonneg h.1

theorem Vm.slot_setSlot_ne {s : Vm} {i j : Int} (w : Uint256) (h : j ≠ i) :
    (s.setSlot i w).slot j = s.slot j := by
  unfold slot setSlot
  split
  next hj =>
    refine if_neg ?_
    unfold InStack at hj
    simp only
    omega
  next => rfl

theorem Vm.slot_pushed_same {s : Vm} {i : Int} (w : Uint256) (h : InStack i) (hi : i = s.sp + 1) :
    (s.pushed w).slot i = w := by
  subst hi
  exact slot_setSlot_same w h

theorem Vm.slot_pushed_ne {s : Vm} {j : Int} (w : Uint256) (h : j ≠ s.sp + 1) :
    (s.pushed w).slot j = s.slot j :=
  slot_setSlot_ne w h

@[simp] theorem Vm.slot_popped (s : Vm) (j : Int) : s.popped.slot j = s.slot j := rfl

@[simp] theorem Vm.sp_popped (s : Vm) : s.popped.sp = s.sp - 1 := rfl

@[simp] theorem Vm.sp_pushed (s : Vm) (w : Uint256) : (s.pushed w).sp = s.sp + 1 := rfl

/-! ## Runs -/

theorem stackAt_ok {s : Vm} {i : Int} (h : InStack i) :
    stackAt i s = .ok (s.slot i) { s with slots := i :: s.slots } := by
  unfold stackAt Vm.slot
  rw [get_bind, dif_pos h]
  unfold InStack at h
  rw [dif_pos h]
  rfl

theorem stackAt_fault {s : Vm} {i : Int} (h : ¬InStack i) :
    stackAt i s = .error (.stack i) s := by
  unfold stackAt
  unfold InStack at h
  rw [get_bind, dif_neg h]
  rfl

theorem setStackAt_ok {s : Vm} {i : Int} (w : Uint256) (h : InStack i) :
    setStackAt i w s = .ok () (s.setSlot i w) := by
  have hpoke : poke s.stack ⟨i.toNat, h.toNat_lt⟩ w
      = fun j : Fin stackSpace => if (j : Int) = i then w else s.stack j := by
    unfold InStack at h
    funext j
    unfold poke
    simp only [Fin.ext_iff]
    by_cases hj : (j : Int) = i
    · rw [if_pos hj, if_pos (by omega)]
    · rw [if_neg hj, if_neg (by omega)]
  unfold setStackAt Vm.setSlot
  unfold InStack at h
  rw [get_bind, dif_pos h, ← hpoke]
  rfl

theorem setStackAt_fault {s : Vm} {i : Int} (w : Uint256) (h : ¬InStack i) :
    setStackAt i w s = .error (.stack i) s := by
  unfold setStackAt
  unfold InStack at h
  rw [get_bind, dif_neg h]
  rfl

theorem stackPop_ok {s : Vm} (h : InStack s.sp) :
    stackPop s = .ok (s.slot s.sp) s.popped := by
  unfold stackPop
  rw [get_bind, bind_ok (stackAt_ok h)]
  rfl

theorem stackPop_fault {s : Vm} (h : ¬InStack s.sp) :
    stackPop s = .error (.stack s.sp) s := by
  unfold stackPop
  rw [get_bind]
  exact bind_error (stackAt_fault h) _

theorem stackPopLow_ok {s : Vm} (h : InStack s.sp) :
    stackPopLow s = .ok (s.slot s.sp).lower.lower s.popped := by
  unfold stackPopLow
  rw [bind_ok (stackPop_ok h)]
  rfl

theorem stackPopLow_fault {s : Vm} (h : ¬InStack s.sp) :
    stackPopLow s = .error (.stack s.sp) s :=
  bind_error (stackPop_fault h) _

/-- A pop that returns found its slot inside the array. -/
theorem stackPopLow_returns {s s' : Vm} {x : UInt64} (h : stackPopLow s = .ok x s') :
    InStack s.sp ∧ x = (s.slot s.sp).lower.lower ∧ s' = s.popped := by
  by_cases hin : InStack s.sp
  · rw [stackPopLow_ok hin] at h
    cases h
    exact ⟨hin, rfl, rfl⟩
  · rw [stackPopLow_fault hin] at h
    cases h

theorem stackPush_ok {s : Vm} (w : Uint256) (h : InStack (s.sp + 1)) :
    stackPush w s = .ok () (s.pushed w) := by
  unfold stackPush
  have hlt : ¬s.sp ≥ stackSpace := by
    unfold InStack at h
    omega
  rw [get_bind, if_neg hlt]
  exact setStackAt_ok w h

/-- At `SP == STACK_SPACE - 1` the check of `stack_push` passes and the store
misses the array. -/
theorem stackPush_fault {s : Vm} (w : Uint256) (h : ¬InStack (s.sp + 1)) (hlt : s.sp < stackSpace) :
    stackPush w s = .error (.stack (s.sp + 1)) { s with sp := s.sp + 1 } := by
  unfold stackPush
  rw [get_bind, if_neg (by omega)]
  exact setStackAt_fault w h

theorem stackPush_full {s : Vm} (w : Uint256) (h : s.sp ≥ stackSpace) :
    stackPush w s = .ok () s := by
  unfold stackPush
  rw [get_bind, if_pos h]
  rfl

/-! ## Families of opcodes, run -/

/-- There is room for a result where an operand was. -/
theorem Vm.room_popped {s : Vm} (h : InStack s.sp) : InStack (s.popped.sp + 1) := by
  rw [Vm.sp_popped, Int.sub_add_cancel]
  exact h

theorem Vm.room_popped₂ {s : Vm} (h1 : 1 ≤ s.sp) (h2 : s.sp < stackSpace) :
    InStack (s.popped.popped.sp + 1) := by
  show InStack (s.sp - 1 - 1 + 1)
  exact ⟨by omega, by omega⟩

/-- Two operands popped, the top first. -/
theorem popTwo_ok {α : Type} {s : Vm} (h1 : 1 ≤ s.sp) (h2 : s.sp < stackSpace)
    (f : Uint256 → Uint256 → VmM α) :
    (do
      let number1 ← stackPop
      let number2 ← stackPop
      f number1 number2 : VmM α) s
      = f (s.slot s.sp) (s.slot (s.sp - 1)) s.popped.popped := by
  have hpop : InStack s.popped.sp := by
    show InStack (s.sp - 1)
    exact ⟨by omega, by omega⟩
  rw [bind_ok (stackPop_ok ⟨by omega, h2⟩), bind_ok (stackPop_ok hpop)]
  rfl

/-- Two operands pushed, the second on top. -/
theorem pushTwo_ok {α : Type} {s : Vm} (w o : Uint256) (h0 : 0 ≤ s.sp) (h : s.sp ≤ 93) (x : VmM α) :
    (do
      stackPush w
      stackPush o
      x : VmM α) s
      = x ((s.pushed w).pushed o) := by
  have hsecond : InStack ((s.pushed w).sp + 1) := by
    rw [Vm.sp_pushed]
    exact inStack_of_le (by omega) (by omega)
  rw [bind_ok (stackPush_ok w (inStack_of_le (by omega) (by omega))), bind_ok (stackPush_ok o hsecond)]

theorem unary_ok {f : Uint256 → Uint256} {gas : UInt32} {s : Vm} (h : InStack s.sp) :
    unary f gas s = .ok 0 { s.popped.pushed (f (s.slot s.sp)) with gasCharge := s.gasCharge + gas } := by
  unfold unary
  rw [bind_ok (stackPop_ok h), bind_ok (stackPush_ok _ (Vm.room_popped h))]
  rfl

theorem binary_ok {f : Uint256 → Uint256 → Uint256} {gas : UInt32} {s : Vm} (h1 : 1 ≤ s.sp)
    (h2 : s.sp < stackSpace) :
    binary f gas s = .ok 0 { s.popped.popped.pushed (f (s.slot s.sp) (s.slot (s.sp - 1))) with
      gasCharge := s.gasCharge + gas } := by
  unfold binary
  rw [popTwo_ok h1 h2, bind_ok (stackPush_ok _ (Vm.room_popped₂ h1 h2))]
  rfl

/-- `SUB` has the body of the family but for the charge. -/
theorem opSub_ok {s : Vm} (h1 : 1 ≤ s.sp) (h2 : s.sp < stackSpace) :
    opSub s = .ok 0 (s.popped.popped.pushed (minus256 (s.slot s.sp) (s.slot (s.sp - 1)))) := by
  unfold opSub
  rw [popTwo_ok h1 h2, bind_ok (stackPush_ok _ (Vm.room_popped₂ h1 h2))]
  rfl

/-- `DUPn` of a live element, below the last slot. -/
theorem opDup_ok {s : Vm} {n : Nat} (h : n + 1 ≤ s.sp) (hsp : s.sp ≤ 94) :
    opDup n s = .ok 0 ({ s with slots := (s.sp - n) :: s.slots }.pushed (s.slot (s.sp - n))) := by
  have hread : InStack (s.sp - n) := inStack_of_le (by omega) (by omega)
  have hwrite : InStack (s.sp + 1) := inStack_of_le (by omega) (by omega)
  unfold opDup
  rw [get_bind, if_neg (by omega),
    bind_ok (stackAt_ok hread),
    bind_ok (stackPush_ok (s := { s with slots := (s.sp - n) :: s.slots }) _ hwrite)]
  rfl

theorem opJump_ok {s : Vm} (h : InStack s.sp) :
    opJump s = .ok 0 { s.popped with pc := (s.slot s.sp).lower.lower.toUInt32 } := by
  unfold opJump
  rw [bind_ok (stackPopLow_ok h)]
  rfl

theorem opJumpi_ok {s : Vm} (h : InStack s.sp) (h' : InStack (s.sp - 1)) :
    opJumpi s = .ok 0 { s.popped.popped with
      pc := if (s.slot (s.sp - 1)).lower.lower ≠ 0 then (s.slot s.sp).lower.lower.toUInt32 else s.pc } := by
  unfold opJumpi
  rw [bind_ok (stackPopLow_ok h), bind_ok (stackPopLow_ok (s := s.popped) h')]
  rfl

end TinyEvm
