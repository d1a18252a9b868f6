import TinyEvm.Vm.Frame
import TinyEvm.Vm.Memory

/-!
# Accesses outside an array

Which instructions can leave which array. The pieces of the stack opcodes fault only
on the stack and in the division (`walk_never`), so a fault in memory or in the code
comes from the accesses an opcode names: `memBlock` and `setMemBlock` fault exactly
when the block does not fit, `codeBlock` and the byte loops of `CODECOPY` exactly when
they read past the code. Here is what each of these does, for the proofs that go
through the opcodes one by one.
-/

namespace TinyEvm

open Lib.Buffer Lib.Exec

/-- A read or write outside `MEM`. -/
def Fault.InMem (e : Fault) : Prop := ∃ i, e = .mem i

/-- A read past the end of the code. -/
def Fault.InCode (e : Fault) : Prop := ∃ i, e = .code i

/-- A kind of faults that the pieces of the stack opcodes do not raise. -/
structure Elsewhere (E : Fault → Prop) : Prop where
  stack : ∀ i, ¬E (.stack i)
  endless : ¬E .endless
  null : ¬E .null
  data : ∀ i, ¬E (.data i)

theorem elsewhere_mem : Elsewhere Fault.InMem := by
  refine ⟨?_, ?_, ?_, ?_⟩ <;> simp [Fault.InMem]

theorem elsewhere_code : Elsewhere Fault.InCode := by
  refine ⟨?_, ?_, ?_, ?_⟩ <;> simp [Fault.InCode]

namespace Elsewhere

variable {E : Fault → Prop}

theorem stackAt (hE : Elsewhere E) (i : Int) : Never E (stackAt i) := by
  intro s
  by_cases hin : InStack i
  · exact raises_of_ok (stackAt_ok hin)
  · intro hraises
    obtain ⟨e, s', herror, he⟩ := hraises
    rw [stackAt_fault hin] at herror
    cases herror
    exact hE.stack i he

theorem setStackAt (hE : Elsewhere E) (i : Int) (w : Uint256) : Never E (setStackAt i w) := by
  intro s
  by_cases hin : InStack i
  · exact raises_of_ok (setStackAt_ok w hin)
  · intro hraises
    obtain ⟨e, s', herror, he⟩ := hraises
    rw [setStackAt_fault w hin] at herror
    cases herror
    exact hE.stack i he

theorem pop (hE : Elsewhere E) : Never E stackPop :=
  Never.get.bind fun _ => (hE.stackAt _).bind fun _ => (Never.update _).bind fun _ => Never.pure _

theorem push (hE : Elsewhere E) (w : Uint256) : Never E (stackPush w) :=
  Never.get.bind fun _ => Never.ite (Never.pure _)
    (Never.bind (fun _ => raises_of_ok rfl) fun _ => hE.setStackAt _ w)

theorem walk (hE : Elsewhere E) : Walk (fun _ => Never E) (fun _ => Never E) where
  last := id
  value := Never.pure
  endless _ := Never.throw hE.endless
  null _ := Never.throw hE.null
  data _ i := Never.throw (hE.data i)
  seq := Never.bind
  bind := Never.bind
  pop := hE.pop
  push := hE.push
  paid _ := fun _ => raises_of_ok rfl
  message hf := Never.get.bind fun s => hf s.message
  timestamp := Never.get.bind fun _ => Never.bind (fun _ => raises_of_ok rfl) fun _ =>
    (hE.push _).bind fun _ => Never.pure _
  dup _ := Never.get.bind fun _ => Never.ite (Never.pure _) ((hE.stackAt _).bind fun _ =>
    (hE.push _).bind fun _ => Never.pure _)
  swap _ := Never.get.bind fun _ => Never.ite (Never.pure _) ((hE.stackAt _).bind fun _ =>
    (hE.stackAt _).bind fun _ => (hE.setStackAt _ _).bind fun _ =>
      (hE.setStackAt _ _).bind fun _ => Never.pure _)

/-- A pop either misses the array or hands on the top. -/
theorem raises_pop (hE : Elsewhere E) {α : Type} {f : Uint256 → VmM α} {s : Vm} :
    Raises E (stackPop >>= f) s ↔ InStack s.sp ∧ Raises E (f (s.slot s.sp)) s.popped := by
  by_cases hin : InStack s.sp
  · rw [raises_bind_ok (stackPop_ok hin)]
    exact ⟨fun h => ⟨hin, h⟩, fun h => h.2⟩
  · rw [raises_bind_error (stackPop_fault hin)]
    exact ⟨fun h => absurd h (hE.stack _), fun h => absurd h.1 hin⟩

theorem raises_popLow (hE : Elsewhere E) {α : Type} {f : UInt64 → VmM α} {s : Vm} :
    Raises E (stackPopLow >>= f) s ↔
      InStack s.sp ∧ Raises E (f (s.slot s.sp).lower.lower) s.popped := by
  by_cases hin : InStack s.sp
  · rw [raises_bind_ok (stackPopLow_ok hin)]
    exact ⟨fun h => ⟨hin, h⟩, fun h => h.2⟩
  · have hfault : stackPopLow s = .error (.stack s.sp) s := bind_error (stackPop_fault hin) _
    rw [raises_bind_error hfault]
    exact ⟨fun h => absurd h (hE.stack _), fun h => absurd h.1 hin⟩

end Elsewhere

/-- A branch that never raises a fault of the kind takes the other one. -/
theorem raises_ite_left {E : Fault → Prop} {α : Type} {p : Prop} [Decidable p] {x y : VmM α} {s : Vm}
    (hx : Never E x) : Raises E (if p then x else y) s ↔ ¬p ∧ Raises E y s := by
  by_cases hp : p
  · rw [if_pos hp]
    exact ⟨fun h => absurd h (hx s), fun h => absurd hp h.1⟩
  · rw [if_neg hp]
    exact ⟨fun h => ⟨hp, h⟩, fun h => h.2⟩

/-! ## Blocks of memory and code -/

theorem memBlock_outside {s : Vm} {off len : Nat} (h : ¬Fits memorySpace off len) :
    memBlock off len s = .error (.mem (off + len)) s := by
  unfold memBlock
  rw [get_bind, if_neg h]
  rfl

theorem setMemBlock_outside {s : Vm} {off len : Nat} (bytes : Nat → UInt8)
    (h : ¬Fits memorySpace off len) : setMemBlock off len bytes s = .error (.mem (off + len)) s := by
  unfold setMemBlock
  rw [if_neg h]
  rfl

theorem codeBlock_inside {c : Code} {s : Vm} {off len : Nat} (h : Fits c.size off len) :
    codeBlock c off len s = .ok (fun k => (c.bytes[off + k]?).getD 0) s := by
  unfold codeBlock
  rw [if_pos h]
  rfl

theorem codeBlock_outside {c : Code} {s : Vm} {off len : Nat} (h : ¬Fits c.size off len) :
    codeBlock c off len s = .error (.code (off + len)) s := by
  unfold codeBlock
  rw [if_neg h]
  rfl

theorem raises_memBlock {α : Type} {f : (Nat → UInt8) → VmM α} {s : Vm} {off len : Nat}
    (hf : ∀ a, Never Fault.InMem (f a)) :
    Raises Fault.InMem (memBlock off len >>= f) s ↔ ¬Fits memorySpace off len := by
  by_cases h : Fits memorySpace off len
  · rw [raises_bind_ok (memBlock_ok h)]
    exact ⟨fun hraises => absurd hraises (hf _ s), fun habs => absurd h habs⟩
  · rw [raises_bind_error (memBlock_outside h)]
    exact ⟨fun _ => h, fun _ => ⟨_, rfl⟩⟩

theorem raises_setMemBlock {α : Type} {f : Unit → VmM α} {s : Vm} {off len : Nat}
    {bytes : Nat → UInt8} (hf : ∀ a, Never Fault.InMem (f a)) :
    Raises Fault.InMem (setMemBlock off len bytes >>= f) s ↔ ¬Fits memorySpace off len := by
  by_cases h : Fits memorySpace off len
  · rw [raises_bind_ok (setMemBlock_ok bytes h)]
    exact ⟨fun hraises => absurd hraises (hf _ _), fun habs => absurd h habs⟩
  · rw [raises_bind_error (setMemBlock_outside bytes h)]
    exact ⟨fun _ => h, fun _ => ⟨_, rfl⟩⟩

/-! ## The byte loops of `CODECOPY` -/

/-- `s_contract[offset + j]` is inside the code, in the 64-bit arithmetic of the loop. -/
def ByteInside (c : Code) (offset : UInt64) (j : Nat) : Prop :=
  (offset + UInt64.ofNat j).toNat < c.size

instance (c : Code) (offset : UInt64) (j : Nat) : Decidable (ByteInside c offset j) :=
  inferInstanceAs (Decidable (_ < _))

theorem byteInside_add {c : Code} {offset : UInt64} {m j : Nat} :
    ByteInside c (offset + UInt64.ofNat m) j ↔ ByteInside c offset (m + j) := by
  unfold ByteInside
  rw [UInt64.ofNat_add, UInt64.add_assoc]

theorem codeAt_inside {c : Code} {i : Nat} (h : i < c.size) (s : Vm) :
    ∃ b, codeAt c i s = .ok b s := by
  unfold codeAt
  rw [List.getElem?_eq_getElem h]
  exact ⟨_, rfl⟩

theorem codeAt_outside {c : Code} {i : Nat} (h : ¬i < c.size) (s : Vm) :
    codeAt c i s = .error (.code i) s := by
  unfold codeAt
  rw [List.getElem?_eq_none (Nat.not_lt.mp h)]
  rfl

/-- The eight reads of an element all succeed, or the first outside the code faults. -/
theorem codeElement_cases (c : Code) (s : Vm) : ∀ (k : Nat) (offset element : UInt64),
    ((∀ j < k, ByteInside c offset j) ∧ ∃ x, codeElement c k offset element s = .ok x s) ∨
    ((¬∀ j < k, ByteInside c offset j) ∧
      ∃ i, codeElement c k offset element s = .error (.code i) s) := by
  intro k
  induction k with
  | zero =>
    intro offset element
    exact Or.inl ⟨fun j hj => absurd hj (Nat.not_lt_zero j), element, rfl⟩
  | succ k ih =>
    intro offset element
    have hzero : ByteInside c offset 0 ↔ offset.toNat < c.size := by
      unfold ByteInside
      rw [show UInt64.ofNat 0 = 0 from rfl, UInt64.add_zero]
    have hshift : ∀ j, ByteInside c (offset + 1) j ↔ ByteInside c offset (1 + j) := fun j =>
      byteInside_add (m := 1)
    rw [codeElement]
    by_cases hin : offset.toNat < c.size
    · obtain ⟨b, hb⟩ := codeAt_inside hin s
      rw [bind_ok hb]
      rcases ih (offset + 1) ((element <<< 8) ||| b.toUInt64) with ⟨hall, hrun⟩ | ⟨hnot, hrun⟩
      · refine Or.inl ⟨?_, hrun⟩
        intro j hj
        cases j with
        | zero => exact hzero.mpr hin
        | succ j =>
          rw [Nat.add_comm]
          exact (hshift j).mp (hall j (by omega))
      · refine Or.inr ⟨fun hall => hnot fun j hj => ?_, hrun⟩
        exact (hshift j).mpr (hall (1 + j) (by omega))
    · rw [bind_error (codeAt_outside hin s)]
      exact Or.inr ⟨fun hall => hin (hzero.mp (hall 0 (by omega))), offset.toNat, rfl⟩

/-- The 32 reads of a round of `CODECOPY`, before what it does with them. -/
theorem codeWord_cases {α : Type} (c : Code) (s : Vm) (offset : UInt64)
    (k : UInt64 → UInt64 → UInt64 → UInt64 → VmM α) :
    ((∀ j < 32, ByteInside c offset j) ∧ ∃ x y z w, (codeElement c 8 offset 0 >>= fun x =>
      codeElement c 8 (offset + 8) 0 >>= fun y => codeElement c 8 (offset + 16) 0 >>= fun z =>
      codeElement c 8 (offset + 24) 0 >>= fun w => k x y z w) s = k x y z w s) ∨
    ((¬∀ j < 32, ByteInside c offset j) ∧ ∃ i, (codeElement c 8 offset 0 >>= fun x =>
      codeElement c 8 (offset + 8) 0 >>= fun y => codeElement c 8 (offset + 16) 0 >>= fun z =>
      codeElement c 8 (offset + 24) 0 >>= fun w => k x y z w) s = .error (.code i) s) := by
  have hshift : ∀ m j, ByteInside c (offset + UInt64.ofNat m) j ↔ ByteInside c offset (m + j) :=
    fun m j => byteInside_add
  rcases codeElement_cases c s 8 offset 0 with ⟨h₀, x, hx⟩ | ⟨h₀, i, hi⟩
  · rw [bind_ok hx]
    rcases codeElement_cases c s 8 (offset + 8) 0 with ⟨h₁, y, hy⟩ | ⟨h₁, i, hi⟩
    · rw [bind_ok hy]
      rcases codeElement_cases c s 8 (offset + 16) 0 with ⟨h₂, z, hz⟩ | ⟨h₂, i, hi⟩
      · rw [bind_ok hz]
        rcases codeElement_cases c s 8 (offset + 24) 0 with ⟨h₃, w, hw⟩ | ⟨h₃, i, hi⟩
        · rw [bind_ok hw]
          refine Or.inl ⟨?_, x, y, z, w, rfl⟩
          intro j hj
          by_cases hj₀ : j < 8
          · exact h₀ j hj₀
          by_cases hj₁ : j < 16
          · have hin := (hshift 8 (j - 8)).mp (h₁ (j - 8) (by omega))
            rwa [show 8 + (j - 8) = j by omega] at hin
          by_cases hj₂ : j < 24
          · have hin := (hshift 16 (j - 16)).mp (h₂ (j - 16) (by omega))
            rwa [show 16 + (j - 16) = j by omega] at hin
          · have hin := (hshift 24 (j - 24)).mp (h₃ (j - 24) (by omega))
            rwa [show 24 + (j - 24) = j by omega] at hin
        · rw [bind_error hi]
          refine Or.inr ⟨fun hall => h₃ fun j hj => ?_, i, rfl⟩
          exact (hshift 24 j).mpr (hall (24 + j) (by omega))
      · rw [bind_error hi]
        refine Or.inr ⟨fun hall => h₂ fun j hj => ?_, i, rfl⟩
        exact (hshift 16 j).mpr (hall (16 + j) (by omega))
    · rw [bind_error hi]
      refine Or.inr ⟨fun hall => h₁ fun j hj => ?_, i, rfl⟩
      exact (hshift 8 j).mpr (hall (8 + j) (by omega))
  · rw [bind_error hi]
    exact Or.inr ⟨fun hall => h₀ fun j hj => hall j (by omega), i, rfl⟩

/-- One round of the loop: it goes on with other memory, misses memory, or misses the
code. -/
theorem codecopyLoop_cases (c : Code) (m rounds : Nat) {len : Int} (offset : UInt64) (s : Vm)
    (hlen : 0 < len) :
    ((∀ j < 32, ByteInside c offset j) ∧ m + 8 ≤ memorySpace ∧ ∃ mem,
      codecopyLoop c m (rounds + 1) len offset s
        = codecopyLoop c m rounds (len - 32) (offset + 32) { s with mem := mem }) ∨
    ((∀ j < 32, ByteInside c offset j) ∧ ¬m + 8 ≤ memorySpace ∧
      codecopyLoop c m (rounds + 1) len offset s = .error (.mem (m + 8)) s) ∨
    ((¬∀ j < 32, ByteInside c offset j) ∧ ∃ i,
      codecopyLoop c m (rounds + 1) len offset s = .error (.code i) s) := by
  rw [codecopyLoop, if_pos hlen]
  rcases codeWord_cases c s offset (fun uppUpp uppLow lowUpp lowLow => do
    setMemBlock m 8 (storeLE64 uppUpp)
    setMemBlock m 8 (storeLE64 uppLow)
    setMemBlock m 8 (storeLE64 lowUpp)
    setMemBlock m 8 (storeLE64 lowLow)
    codecopyLoop c m rounds (len - 32) (offset + 32)) with ⟨hall, x, y, z, w, hrun⟩ | ⟨hnot, hrun⟩
  · rw [hrun]
    by_cases hfits : m + 8 ≤ memorySpace
    · refine Or.inl ⟨hall, hfits, ?_⟩
      refine ⟨_, ((bind_ok (setMemBlock_ok _ (Or.inr hfits)) _).trans
        ((bind_ok (setMemBlock_ok _ (Or.inr hfits)) _).trans ((bind_ok (setMemBlock_ok _ (Or.inr hfits)) _).trans
          (bind_ok (setMemBlock_ok _ (Or.inr hfits)) _))))⟩
    · refine Or.inr (Or.inl ⟨hall, hfits, ?_⟩)
      refine bind_error (setMemBlock_outside _ ?_) _
      intro h
      rcases h with hzero | hle
      · exact absurd hzero (by decide)
      · exact hfits hle
  · exact Or.inr (Or.inr ⟨hnot, hrun⟩)

/-- `CODECOPY` leaves the code in its loop at byte `k` if it gets there: byte `k` is
read when its block of 32 starts inside the length, and a block that does not fit into
memory ends the loop behind its first 32 reads. -/
theorem raises_code_codecopyLoop (c : Code) (m : Nat) : ∀ (rounds : Nat) (len : Int)
    (offset : UInt64) (s : Vm), len ≤ rounds →
    (Raises Fault.InCode (codecopyLoop c m rounds len offset) s ↔
      ∃ k : Nat, (32 * (k / 32) : Nat) < len ∧ (m + 8 ≤ memorySpace ∨ k < 32) ∧
        ¬ByteInside c offset k) := by
  intro rounds
  induction rounds with
  | zero =>
    intro len offset s hlen
    refine ⟨fun h => absurd h (raises_of_ok rfl), ?_⟩
    intro h
    obtain ⟨k, hk, -⟩ := h
    omega
  | succ rounds ih =>
    intro len offset s hlen
    by_cases hpos : 0 < len
    · have hshift : ∀ j, ByteInside c (offset + 32) j ↔ ByteInside c offset (32 + j) := fun j =>
        byteInside_add (m := 32)
      rcases codecopyLoop_cases c m rounds offset s hpos with
        ⟨hall, hfits, mem, hrun⟩ | ⟨hall, hfits, hrun⟩ | ⟨hnot, i, hrun⟩
      · unfold Raises
        rw [hrun]
        refine (ih (len - 32) (offset + 32) { s with mem := mem } (by omega)).trans ?_
        refine ⟨?_, ?_⟩
        · intro h
          obtain ⟨k, hk, -, hout⟩ := h
          exact ⟨32 + k, by omega, Or.inl hfits, fun hin => hout ((hshift k).mpr hin)⟩
        · intro h
          obtain ⟨k, hk, -, hout⟩ := h
          by_cases hk32 : k < 32
          · exact absurd (hall k hk32) hout
          · refine ⟨k - 32, by omega, Or.inl hfits, fun hin => hout ?_⟩
            have hin' := (hshift (k - 32)).mp hin
            rwa [show 32 + (k - 32) = k by omega] at hin'
      · refine ⟨?_, ?_⟩
        · intro h
          obtain ⟨e, s', herror, i, he⟩ := h
          rw [hrun] at herror
          cases herror
          cases he
        · intro h
          obtain ⟨k, -, hcase, hout⟩ := h
          rcases hcase with habs | hk
          · exact absurd habs hfits
          · exact absurd (hall k hk) hout
      · refine ⟨fun _ => ?_, fun _ => ⟨_, s, hrun, i, rfl⟩⟩
        rw [not_forall] at hnot
        obtain ⟨j, hj⟩ := hnot
        rw [Classical.not_imp] at hj
        exact ⟨j, by omega, Or.inr hj.1, hj.2⟩
    · rw [codecopyLoop, if_neg hpos]
      refine ⟨fun h => absurd h (raises_of_ok rfl), ?_⟩
      intro h
      obtain ⟨k, hk, -⟩ := h
      omega

/-- It leaves memory exactly when its eight bytes do not fit and the first 32 reads
went well. -/
theorem raises_mem_codecopyLoop (c : Code) (m : Nat) : ∀ (rounds : Nat) (len : Int)
    (offset : UInt64) (s : Vm), len ≤ rounds →
    (Raises Fault.InMem (codecopyLoop c m rounds len offset) s ↔
      0 < len ∧ ¬m + 8 ≤ memorySpace ∧ ∀ j < 32, ByteInside c offset j) := by
  intro rounds
  induction rounds with
  | zero =>
    intro len offset s hlen
    refine ⟨fun h => absurd h (raises_of_ok rfl), ?_⟩
    intro h
    omega
  | succ rounds ih =>
    intro len offset s hlen
    by_cases hpos : 0 < len
    · rcases codecopyLoop_cases c m rounds offset s hpos with
        ⟨-, hfits, mem, hrun⟩ | ⟨hall, hfits, hrun⟩ | ⟨hnot, i, hrun⟩
      · unfold Raises
        rw [hrun]
        refine (ih (len - 32) (offset + 32) { s with mem := mem } (by omega)).trans ?_
        exact ⟨fun h => absurd hfits h.2.1, fun h => absurd hfits h.2.1⟩
      · exact ⟨fun _ => ⟨hpos, hfits, hall⟩, fun _ => ⟨_, s, hrun, _, rfl⟩⟩
      · refine ⟨?_, fun h => absurd h.2.2 hnot⟩
        intro h
        obtain ⟨e, s', herror, j, he⟩ := h
        rw [hrun] at herror
        cases herror
        cases he
    · rw [codecopyLoop, if_neg hpos]
      exact ⟨fun h => absurd h (raises_of_ok rfl), fun h => absurd h.1 hpos⟩

end TinyEvm
