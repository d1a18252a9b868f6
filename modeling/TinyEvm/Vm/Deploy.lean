import TinyEvm.Vm.Copy
import TinyEvm.Vm.Fetch
import TinyEvm.Vm.Return

/-!
# Deployment: the constructor's tail publishes the runtime code

A contract compiled by solc ends its constructor with

    PUSH2 len, DUP1, PUSH2 off, PUSH1 0, CODECOPY, PUSH1 0, RETURN

which copies `code[off .. off + len)` to the bottom of `MEM` and returns it.
`RETURN` publishes what it returns in `deployed_contract`, and the application
then runs that array as its second contract.

The file follows those seven rounds. `InTail s₀ s k gas ops` is the invariant
between them: the loop head `s` stands at byte `k` of the tail that started at
`s₀`, `gas` was charged on the way, the operands `ops` (top first) lie above
the elements that were live at `s₀`, and those and `STORAGE` are as they were.
A round that pushes takes it from `ops` to `v :: ops`; `CODECOPY` consumes three
operands, and `RETURN` ends the run with the last two.

Sizes matter in three places. A slice shorter than 100 bytes would take the
other branch of `CODECOPY`, which does not copy; one longer than
`deployed_contract` would overrun it; and `sizeT`, the 32-bit `size_t` that
`memcpy` takes, is only the identity because `len < 2^16`.
-/

namespace TinyEvm

open Lib.BigEndian Lib.Buffer Lib.Exec Lib.Loop

/-- solc's constructor tail for the runtime slice `(off, len)`. -/
def constructorTail (off len : Nat) : List UInt8 :=
  [0x61, UInt8.ofNat (len / 256), UInt8.ofNat len, 0x80, 0x61, UInt8.ofNat (off / 256),
    UInt8.ofNat off, 0x60, 0x00, 0x39, 0x60, 0x00, 0xf3]

/-- `pc` stands at the constructor tail, and at least one byte follows it. -/
structure AtTail (c : Code) (pc : UInt32) (off len : Nat) : Prop where
  tail : (c.bytes.drop pc.toNat).take 13 = constructorTail off len
  more : pc.toNat + 13 < c.size

theorem AtTail.byte {c : Code} {pc : UInt32} {off len : Nat} (h : AtTail c pc off len) {k : Nat}
    (hk : k < 13) : c.bytes[pc.toNat + k]? = (constructorTail off len)[k]? := by
  rw [← h.tail, List.getElem?_take_of_lt hk, List.getElem?_drop]

/-! ## Between two rounds -/

/-- The loop head `s` is at byte `k` of the tail started at `s₀`. -/
structure InTail (s₀ s : Vm) (k gas : Nat) (ops : List Nat) : Prop where
  pc : s.pc.toNat = s₀.pc.toNat + k
  gas : s.gasCharge.toNat = s₀.gasCharge.toNat + gas
  height : s.sp = s₀.sp + ops.length
  operand : ∀ i v : Nat, ops[i]? = some v → (s.slot (s.sp - i)).lower.lower.toNat = v
  live : ∀ i, i ≤ s₀.sp → s.slot i = s₀.slot i
  storage : s.storage = s₀.storage

theorem InTail.start (s₀ : Vm) : InTail s₀ s₀ 0 0 [] where
  pc := rfl
  gas := rfl
  height := by simp
  operand := by simp
  live := fun _ _ => rfl
  storage := rfl

/-- The instruction at byte `k` is decoded: the loop is inside the code and the
charge is below the limit. -/
theorem InTail.decodes {c : Code} {s₀ s : Vm} {off len k gas : Nat} {ops : List Nat} {b : UInt8}
    (h : InTail s₀ s k gas ops) (htail : AtTail c s₀.pc off len)
    (hpaid : s₀.gasCharge.toNat + 10 ≤ gasLimit.toNat) (hk : k < 13) (hgas : gas ≤ 10)
    (hb : (constructorTail off len)[k]? = some b) : Decodes c c.sizeof s b := by
  have hmore := htail.more
  refine ⟨(lt_sizeof_iff (by omega)).mpr (by rw [h.pc]; omega), ?_, ?_⟩
  · rw [gt_iff_lt, UInt32.lt_iff_toNat_lt, h.gas]
    omega
  · rw [h.pc, htail.byte hk, hb]

/-- A round of the tail that goes on: it leaves the machine at the last byte of its
instruction and sees the next opcode behind it. -/
theorem InTail.again {c : Code} {s₀ s s₁ : Vm} {off len k k' gas gas' : Nat} {ops ops' : List Nat}
    {b b' : UInt8} (h : InTail s₀ s k gas ops) (htail : AtTail c s₀.pc off len)
    (hpaid : s₀.gasCharge.toNat + 10 ≤ gasLimit.toNat) (hk : k < 13) (hgas : gas ≤ 10)
    (hb : (constructorTail off len)[k]? = some b) (hrun : decodeInstruction b c s = .ok 0 s₁)
    (h₁ : InTail s₀ s₁ k' gas' ops') (hk' : k' + 1 < 13)
    (hb' : (constructorTail off len)[k' + 1]? = some b') (hne : b' ≠ 0) :
    Again (executeRound c c.sizeof) s s₁.next ∧ InTail s₀ s₁.next (k' + 1) gas' ops' := by
  have hmore := htail.more
  have hsize := c.size_lt
  unfold Code.size at hmore
  have hnext : s₁.next.pc.toNat = s₀.pc.toNat + (k' + 1) := by
    show (s₁.pc + 1).toNat = _
    rw [UInt32.toNat_add, h₁.pc]
    show (_ + 1) % 2 ^ 32 = _
    omega
  refine ⟨again_of_decode b' (h.decodes htail hpaid hk hgas hb) hrun ?_ hne, ?_⟩
  · rw [hnext, htail.byte hk', hb']
  · exact ⟨hnext, h₁.gas, h₁.height, h₁.operand, h₁.live, h₁.storage⟩

/-! ## The instructions of the tail -/

/-- A word on top of the operands, whatever else the instruction did to `PC` and
the charge. -/
theorem InTail.pushed {s₀ s s₁ : Vm} {k gas k' gas' v : Nat} {ops : List Nat} {w : Uint256}
    (h : InTail s₀ s k gas ops) (h0 : 0 ≤ s₀.sp) (hroom : s.sp ≤ 94)
    (hw : w.lower.lower.toNat = v) (hstack : s₁.stack = (s.pushed w).stack)
    (hsp : s₁.sp = s.sp + 1) (hpc : s₁.pc.toNat = s₀.pc.toNat + k')
    (hgas : s₁.gasCharge.toNat = s₀.gasCharge.toNat + gas') (hstore : s₁.storage = s.storage) :
    InTail s₀ s₁ k' gas' (v :: ops) := by
  have hheight := h.height
  have hslot : ∀ i, s₁.slot i = (s.pushed w).slot i := by
    intro i
    unfold Vm.slot
    rw [hstack]
  refine ⟨hpc, hgas, ?_, ?_, ?_, hstore.trans h.storage⟩
  · rw [hsp, hheight, List.length_cons]
    omega
  · intro i u hu
    rw [hslot, hsp]
    cases i with
    | zero =>
      rw [Vm.slot_pushed_same w (inStack_of_le (by omega) (by omega)) (by omega), hw]
      exact Option.some.inj hu
    | succ i =>
      rw [Vm.slot_pushed_ne w (by omega), show s.sp + 1 - ((i + 1 : Nat) : Int) = s.sp - i by omega]
      exact h.operand i u hu
  · intro i hi
    rw [hslot, Vm.slot_pushed_ne w (by omega)]
    exact h.live i hi

/-- `PUSHn` of an immediate of value `v`. -/
theorem InTail.push {c : Code} {s₀ s : Vm} {k gas n v : Nat} {ops : List Nat}
    (h : InTail s₀ s k gas ops) (h0 : 0 ≤ s₀.sp) (hroom : s.sp + n ≤ 95) (h1 : 1 ≤ n) (hn : n ≤ 32)
    (hinside : s₀.pc.toNat + k + n < c.size) (hgas : s₀.gasCharge.toNat + gas + 2 < 2 ^ 32)
    (hv : beNat (c.immediate s.pc) n = v) (hlt : v < 2 ^ 64) :
    ∃ s₁, decodeInstruction (pushByte n) c s = .ok 0 s₁ ∧
      InTail s₀ s₁ (k + n) (gas + 2) (v :: ops) ∧ s₁.mem = s.mem ∧
      s₁.deployedContract = s.deployedContract := by
  have hpc := h.pc
  have hheight := h.height
  have hsize := c.size_lt
  have hrun : opPush c n s = .ok 0 (s.afterPush n (pushWord v)) := by
    rw [← hv]
    refine opPush_ok h1 hn (by omega) ?_ (by omega)
    show _ < (96 : Int)
    omega
  refine ⟨_, (congrFun (decode_pushByte h1 hn c) s).trans hrun, ?_, rfl, rfl⟩
  refine h.pushed h0 (by omega) ?_ rfl rfl ?_ ?_ rfl
  · show (limb v 0).toNat = v
    rw [limb_toNat]
    omega
  · show (s.advance n).pc.toNat = _
    rw [Vm.advance_pc_toNat (c := c) (by omega), hpc, Nat.add_assoc]
  · show (s.gasCharge + gasTable.stepGas2).toNat = _
    rw [UInt32.toNat_add, h.gas]
    show (_ + 2) % 2 ^ 32 = _
    omega

/-- `DUP1`. -/
theorem InTail.dup {c : Code} {s₀ s : Vm} {k gas v : Nat} {ops : List Nat}
    (h : InTail s₀ s k gas (v :: ops)) (h0 : 0 ≤ s₀.sp) (hroom : s.sp ≤ 94) :
    ∃ s₁, decodeInstruction 0x80 c s = .ok 0 s₁ ∧ InTail s₀ s₁ k gas (v :: v :: ops) ∧
      s₁.mem = s.mem ∧ s₁.deployedContract = s.deployedContract := by
  have hheight := h.height
  rw [List.length_cons] at hheight
  have hrun := opDup_ok (s := s) (n := 0) (by omega) hroom
  refine ⟨_, hrun, ?_, rfl, rfl⟩
  exact h.pushed h0 hroom (h.operand 0 v rfl) rfl rfl h.pc h.gas rfl

/-- The stack and everything the tail keeps, after its topmost operands were popped. -/
theorem InTail.popped {s₀ s s₁ : Vm} {k gas gas' n : Nat} {ops ops' : List Nat}
    (h : InTail s₀ s k gas (ops ++ ops')) (hn : ops.length = n) (hstack : s₁.stack = s.stack)
    (hsp : s₁.sp = s.sp - n) (hpc : s₁.pc = s.pc)
    (hgas : s₁.gasCharge.toNat = s₀.gasCharge.toNat + gas') (hstore : s₁.storage = s.storage) :
    InTail s₀ s₁ k gas' ops' := by
  have hheight := h.height
  rw [List.length_append] at hheight
  have hslot : ∀ i, s₁.slot i = s.slot i := by
    intro i
    unfold Vm.slot
    rw [hstack]
  refine ⟨hpc ▸ h.pc, hgas, by omega, ?_, ?_, hstore.trans h.storage⟩
  · intro i v hv
    have hget : (ops ++ ops')[n + i]? = some v := by
      rw [← hn, List.getElem?_append_right (by omega), Nat.add_sub_cancel_left]
      exact hv
    have hval := h.operand (n + i) v hget
    rw [hslot, hsp, show s.sp - (n : Int) - (i : Int) = s.sp - ((n + i : Nat) : Int) by omega]
    exact hval
  · intro i hi
    rw [hslot]
    exact h.live i hi

/-- `CODECOPY` of at least 100 bytes to the bottom of memory is one `memcpy`. -/
theorem InTail.codecopy {c : Code} {s₀ s : Vm} {k gas off len : Nat} {ops : List Nat}
    (h : InTail s₀ s k gas (0 :: off :: len :: ops)) (h0 : 0 ≤ s₀.sp) (hroom : s.sp ≤ 95)
    (hlen : 100 ≤ len) (hmem : len ≤ memorySpace) (hinside : off + len ≤ c.size)
    (hgas : s₀.gasCharge.toNat + gas + 2 < 2 ^ 32) :
    ∃ s₁, decodeInstruction 0x39 c s = .ok 0 s₁ ∧ InTail s₀ s₁ k (gas + 2) ops ∧
      (∀ i, i < len → peek s₁.mem 0 i = c.byte (off + i)) ∧
      s₁.deployedContract = s.deployedContract := by
  have hheight := h.height
  simp only [List.length_cons] at hheight
  have hrun := codecopy_memcpy (c := c) (s := s) (by omega) (show s.sp < 96 by omega) (h.operand 0 0 rfl)
    (h.operand 1 off rfl) (h.operand 2 len rfl) hlen (by omega) hinside
  refine ⟨_, hrun, ?_, ?_, rfl⟩
  · have hsplit : InTail s₀ s k gas ([0, off, len] ++ ops) := h
    refine hsplit.popped rfl rfl ?_ rfl ?_ rfl
    · show s.sp - 1 - 1 - 1 = s.sp - 3
      omega
    · show (s.gasCharge + gasTable.stepGas2).toNat = _
      rw [UInt32.toNat_add, h.gas]
      show (_ + 2) % 2 ^ 32 = _
      omega
  · intro i hi
    show peek (blit s.mem 0 len fun j => c.byte (off + j)) 0 i = _
    rw [peek_blit_of_mem _ _ _ (by omega) (Nat.zero_le i) (by omega), Nat.sub_zero]

/-- `RETURN` of the bottom `len` bytes of memory publishes them. -/
theorem InTail.ret {c : Code} {s₀ s : Vm} {k gas len : Nat} {ops : List Nat}
    (h : InTail s₀ s k gas (0 :: len :: ops)) (h0 : 0 ≤ s₀.sp) (hroom : s.sp ≤ 95)
    (hlen : len ≤ deploySpace) :
    ∃ s₁, decodeInstruction 0xf3 c s = .ok returnStatus s₁ ∧ InTail s₀ s₁ k gas ops ∧
      s₁.deployLength.toNat = len ∧
      s₁.deployedContract = blit s.deployedContract 0 len (peek s.mem 0) := by
  have hheight := h.height
  simp only [List.length_cons] at hheight
  have hbound : len ≤ 3000 := hlen
  obtain ⟨hrun, hsum⟩ := return_publishes (c := c) (by omega) (show s.sp < 96 by omega)
    (h.operand 0 0 rfl) (h.operand 1 len rfl) (show 0 + len ≤ 8089 by omega) hlen
  simp only [Nat.zero_add] at hrun hsum
  refine ⟨_, hrun, ?_, hsum, rfl⟩
  have hsplit : InTail s₀ s k gas ([0, len] ++ ops) := h
  refine hsplit.popped rfl rfl ?_ rfl h.gas rfl
  show s.sp - 1 - 1 = s.sp - 2
  omega

/-! ## The run, and the second contract of the application -/

/-- `deployed_contract` as the code of the next run. -/
def Vm.deployedCode (s : Vm) : Code :=
  ⟨List.ofFn s.deployedContract, by rw [List.length_ofFn]; decide⟩

theorem Vm.deployedCode_bytes (s : Vm) : s.deployedCode.bytes = List.ofFn s.deployedContract := by
  rw [Vm.deployedCode]

/-- The two runs of the application: deploy `smart_contract`, and once that is over
`init_machine` and `execute_contract(&MAIN_VM, deployed_contract, DEPLOY_LENGTH)`.
The array is not written again while its code runs: `RETURN`, the only writer, ends
the run. -/
def deployAndExecute (smartContract : Code) (rounds rounds' : Nat) : VmM (Option Halt) := do
  match ← executeContract smartContract smartContract.sizeof rounds with
  | none => return none
  | some _ =>
    initMachine
    let s ← get
    executeContract s.deployedCode (UInt32.ofNat deploySpace) rounds'

/-- The machine `init_machine` leaves. -/
def Vm.initialised (s : Vm) : Vm := { s with pc := 0, sp := 0, gasCharge := 0 }

/-- The runtime slice `(off, len)` of `c` was deployed between `s` and `s'`. -/
structure Deployed (c : Code) (off len : Nat) (s s' : Vm) : Prop where
  published : ∀ i, i < len → peek s'.deployedContract 0 i = c.byte (off + i)
  length : s'.deployLength.toNat = len
  runtime : s'.deployedCode.bytes = (c.bytes.drop off).take len ++ s.deployedCode.bytes.drop len
  storage : s'.storage = s.storage
  sp : s'.sp = s.sp
  live : ∀ i, i ≤ s.sp → s'.slot i = s.slot i

/-- Bytes copied over the start of an array, as a list. -/
theorem ofFn_blit {n len : Nat} {b : Fin n → UInt8} {f : Nat → UInt8} (h : len ≤ n) :
    List.ofFn (blit b 0 len f) = (List.range len).map f ++ (List.ofFn b).drop len := by
  apply List.ext_getElem
  · simp
    omega
  · intro i h1 h2
    rw [List.getElem_ofFn, blit]
    by_cases hi : i < len
    · rw [if_pos ⟨Nat.zero_le _, by simpa using hi⟩, List.getElem_append_left (by simpa using hi)]
      simp
    · rw [if_neg (by simp only; omega), List.getElem_append_right (by simpa using hi)]
      simp only [List.length_map, List.length_range, List.getElem_drop, List.getElem_ofFn]
      congr 1
      apply Fin.ext
      simp only
      omega

/-- The slice of the code, byte by byte. -/
theorem Code.slice_eq {c : Code} {off len : Nat} (h : off + len ≤ c.size) :
    (c.bytes.drop off).take len = (List.range len).map fun i => c.byte (off + i) := by
  apply List.ext_getElem?
  intro i
  by_cases hi : i < len
  · have hget : off + i < c.bytes.length := by
      unfold Code.size at h
      omega
    rw [List.getElem?_take_of_lt hi, List.getElem?_drop, List.getElem?_map, List.getElem?_range hi,
      Option.map_some, Code.byte, List.getElem?_eq_getElem hget, Option.getD_some]
  · rw [List.getElem?_take_eq_none (by omega), List.getElem?_eq_none (by simpa using hi)]

/-- The immediates of the tail. -/
theorem beNat_two {f : Nat → UInt8} {v : Nat} (hv : v < 2 ^ 16) (h0 : f 0 = UInt8.ofNat (v / 256))
    (h1 : f 1 = UInt8.ofNat v) : beNat f 2 = v := by
  simp only [beNat, h0, h1, UInt8.toNat_ofNat']
  omega

theorem InTail.immediate {c : Code} {s₀ s : Vm} {off len k gas : Nat} {ops : List Nat} {b : UInt8}
    (h : InTail s₀ s k gas ops) (htail : AtTail c s₀.pc off len) (i : Nat) (hi : k + 1 + i < 13)
    (hb : (constructorTail off len)[k + 1 + i]? = some b) : c.immediate s.pc i = b := by
  unfold Code.immediate Code.byte
  rw [h.pc, show s₀.pc.toNat + k + 1 + i = s₀.pc.toNat + (k + 1 + i) by omega, htail.byte hi, hb]
  rfl

/-- The seven rounds: six that go on, and `RETURN`. -/
theorem tail_runs {c : Code} {off len : Nat} {s : Vm} (hlen : 100 ≤ len) (hdeploy : len ≤ deploySpace)
    (hslice : off + len ≤ c.size) (hoff : off < 2 ^ 16) (h0 : 0 ≤ s.sp) (hsp : s.sp ≤ 90)
    (hgas : s.gasCharge.toNat + 10 ≤ gasLimit.toNat) (htail : AtTail c s.pc off len) :
    ∃ s', (∀ rounds, executeContract c c.sizeof (rounds + 7) s = .ok (some .returned) s') ∧
      InTail s s' 12 10 [] ∧ s'.deployLength.toNat = len ∧
      s'.deployedContract = blit s.deployedContract 0 len fun i => c.byte (off + i) := by
  have hbound : len ≤ 3000 := hdeploy
  have hlimit : gasLimit.toNat < 2 ^ 32 := gasLimit.toNat_lt
  have hmore := htail.more
  -- PUSH2 len
  have t0 := InTail.start s
  obtain ⟨u1, hrun1, t1, hmem1, hdep1⟩ := t0.push (c := c) (n := 2) (v := len) h0 (by omega) (by omega)
    (by omega) (by omega) (by omega)
    (beNat_two (by omega) (t0.immediate htail 0 (by omega) rfl) (t0.immediate htail 1 (by omega) rfl))
    (by omega)
  obtain ⟨a1, t1⟩ := t0.again htail hgas (by omega) (by omega) rfl hrun1 t1 (by omega) rfl (by decide)
  -- DUP1
  obtain ⟨u2, hrun2, t2, hmem2, hdep2⟩ := t1.dup (c := c) h0 (by rw [t1.height]; simp; omega)
  obtain ⟨a2, t2⟩ := t1.again htail hgas (by omega) (by omega) rfl hrun2 t2 (by omega) rfl (by decide)
  -- PUSH2 off
  obtain ⟨u3, hrun3, t3, hmem3, hdep3⟩ := t2.push (c := c) (n := 2) (v := off) h0
    (by rw [t2.height]; simp; omega) (by omega) (by omega) (by omega) (by omega)
    (beNat_two hoff (t2.immediate htail 0 (by omega) rfl) (t2.immediate htail 1 (by omega) rfl))
    (by omega)
  obtain ⟨a3, t3⟩ := t2.again htail hgas (by omega) (by omega) rfl hrun3 t3 (by omega) rfl (by decide)
  -- PUSH1 0
  obtain ⟨u4, hrun4, t4, hmem4, hdep4⟩ := t3.push (c := c) (n := 1) (v := 0) h0
    (by rw [t3.height]; simp; omega) (by omega) (by omega) (by omega) (by omega)
    (by simp [beNat, t3.immediate htail 0 (by omega) rfl]) (by omega)
  obtain ⟨a4, t4⟩ := t3.again htail hgas (by omega) (by omega) rfl hrun4 t4 (by omega) rfl (by decide)
  -- CODECOPY
  obtain ⟨u5, hrun5, t5, hmem5, hdep5⟩ := t4.codecopy (c := c) h0 (by rw [t4.height]; simp; omega) hlen
    (show len ≤ 8089 by omega) hslice (by omega)
  obtain ⟨a5, t5⟩ := t4.again htail hgas (by omega) (by omega) rfl hrun5 t5 (by omega) rfl (by decide)
  -- PUSH1 0
  obtain ⟨u6, hrun6, t6, hmem6, hdep6⟩ := t5.push (c := c) (n := 1) (v := 0) h0
    (by rw [t5.height]; simp; omega) (by omega) (by omega) (by omega) (by omega)
    (by simp [beNat, t5.immediate htail 0 (by omega) rfl]) (by omega)
  obtain ⟨a6, t6⟩ := t5.again htail hgas (by omega) (by omega) rfl hrun6 t6 (by omega) rfl (by decide)
  -- RETURN
  obtain ⟨u7, hrun7, t7, hlen7, hdep7⟩ := t6.ret (c := c) h0 (by rw [t6.height]; simp; omega) hdeploy
  have hd := t6.decodes htail hgas (k := 12) (by omega) (by omega) rfl
  have hlast : executeRound c c.sizeof u6.next = .ok (some .returned) u7.noteSp := by
    rw [executeRound_decode hd.inside hd.paid hd.byte hrun7, afterDecode, if_pos rfl]
  refine ⟨u7.noteSp, ?_, ⟨t7.pc, t7.gas, t7.height, t7.operand, t7.live, t7.storage⟩, hlen7, ?_⟩
  · intro rounds
    show runLoop (executeRound c c.sizeof) (rounds + 7) s = _
    rw [runLoop_again a1, runLoop_again a2, runLoop_again a3, runLoop_again a4, runLoop_again a5,
      runLoop_again a6, runLoop_leave hlast]
  · have hsame : u6.next.deployedContract = s.deployedContract := by
      rw [show u6.next.deployedContract = u6.deployedContract from rfl, hdep6]
      exact hdep5.trans (hdep4.trans (hdep3.trans (hdep2.trans hdep1)))
    show u7.deployedContract = _
    rw [hdep7, hsame]
    funext j
    unfold blit
    split
    next hj =>
      rw [show u6.next.mem = u5.mem from hmem6]
      exact hmem5 _ (by omega)
    next => rfl

/-- **Deployment.** At solc's constructor tail, whatever memory, the rest of the
stack, storage and the message hold, `execute_contract` ends with `RETURN`, the
slice is in `deployed_contract`, and nothing that was live is lost; the second
`execute_contract` of the application starts from a reset machine on an array that
begins with exactly that slice. -/
theorem deployment {c : Code} {off len : Nat} {s : Vm} (hlen : 100 ≤ len)
    (hdeploy : len ≤ deploySpace) (hslice : off + len ≤ c.size) (hoff : off < 2 ^ 16) (h0 : 0 ≤ s.sp)
    (hsp : s.sp ≤ 90) (hgas : s.gasCharge.toNat + 10 ≤ gasLimit.toNat)
    (htail : AtTail c s.pc off len) :
    ∃ s', Deployed c off len s s' ∧
      (∀ rounds, 7 ≤ rounds → executeContract c c.sizeof rounds s = .ok (some .returned) s') ∧
      ∀ rounds rounds', 7 ≤ rounds → deployAndExecute c rounds rounds' s
        = executeContract s'.deployedCode (UInt32.ofNat deploySpace) rounds' s'.initialised := by
  obtain ⟨s', hruns, hin, hlength, hcode⟩ := tail_runs hlen hdeploy hslice hoff h0 hsp hgas htail
  have hrun : ∀ rounds, 7 ≤ rounds →
      executeContract c c.sizeof rounds s = .ok (some .returned) s' := by
    intro rounds hrounds
    obtain ⟨r, rfl⟩ := Nat.exists_eq_add_of_le' hrounds
    exact hruns r
  refine ⟨s', ⟨?_, hlength, ?_, hin.storage, ?_, hin.live⟩, hrun, ?_⟩
  · intro i hi
    rw [hcode, peek_blit_of_mem _ _ _ (by omega) (Nat.zero_le i) (by omega), Nat.sub_zero]
  · rw [Vm.deployedCode_bytes, Vm.deployedCode_bytes, hcode, ofFn_blit hdeploy, Code.slice_eq hslice]
  · simpa using hin.height
  · intro rounds rounds' hrounds
    unfold deployAndExecute
    rw [bind_ok (hrun rounds hrounds)]
    rfl

/-- The tail at the start of the code, with a slice of 100 bytes behind it. -/
def smallestDeployment : Code := ⟨constructorTail 13 100 ++ List.replicate 100 0x01, by decide⟩

theorem smallestDeployment_atTail : AtTail smallestDeployment 0 13 100 where
  tail := List.take_left' rfl
  more := by simp [Code.size, smallestDeployment, constructorTail]

theorem deployment_smallest : ∃ s', Deployed smallestDeployment 13 100 Vm.zeroed s' ∧
    (∀ rounds, 7 ≤ rounds → executeContract smallestDeployment smallestDeployment.sizeof rounds
      Vm.zeroed = .ok (some .returned) s') ∧
    ∀ rounds rounds', 7 ≤ rounds → deployAndExecute smallestDeployment rounds rounds' Vm.zeroed
      = executeContract s'.deployedCode (UInt32.ofNat deploySpace) rounds' s'.initialised :=
  deployment (by decide) (by decide) (by decide) (by decide) (by decide) (by decide) (by decide)
    smallestDeployment_atTail

end TinyEvm
