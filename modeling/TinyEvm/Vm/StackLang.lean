import TinyEvm.Vm.Execute
import TinyEvm.Vm.Push

/-!
# Straight-line stack programs

A reference machine for the fragment of the instruction set that only works on
the stack: its words are integers modulo `2^256`, its stack is a list with the
top in front, and an instruction whose operands are missing has no result. The
interpreter refines it. `Represents` ties the slots `STACK[1..SP]` to the list;
`decode_simulates` shows that one decoded instruction keeps the relation,
whatever the instruction; `execute_simulates` is the induction over a program of
any length, where the lookahead for `STOP` after every instruction is what needs
care: the byte it sees is the next opcode, which is never zero, and never a byte
of an immediate.
-/

namespace TinyEvm

open Lib.BigEndian Lib.Exec Lib.Loop

/-! ## The reference machine -/

namespace StackLang

abbrev Word := BitVec 256

/-- Instructions with two operands. -/
inductive BinOp where
  | add | sub | lt | gt | eq | and | or | xor
deriving DecidableEq, Repr

/-- Instructions with one operand. -/
inductive UnOp where
  | iszero | not
deriving DecidableEq, Repr

inductive Instr where
  /-- `PUSH1` to `PUSH8` with its immediate. -/
  | push (bytes : List UInt8) (h : 1 ≤ bytes.length ∧ bytes.length ≤ 8)
  | pop
  /-- `DUP1` is `dup 0`. -/
  | dup (n : Fin 16)
  /-- `SWAP1` is `swap 0`. -/
  | swap (n : Fin 16)
  | unary (op : UnOp)
  | binary (op : BinOp)

/-- The operand on top comes first. -/
def BinOp.eval : BinOp → Word → Word → Word
  | add, a, b => a + b
  | sub, a, b => a - b
  | lt, a, b => if a < b then 1 else 0
  | gt, a, b => if b < a then 1 else 0
  | eq, a, b => if a = b then 1 else 0
  | and, a, b => a &&& b
  | or, a, b => a ||| b
  | xor, a, b => a ^^^ b

def UnOp.eval : UnOp → Word → Word
  | iszero, a => if a = 0 then 1 else 0
  | not, a => ~~~a

/-- One instruction; `none` when the stack is too short for it. -/
def Instr.step : Instr → List Word → Option (List Word)
  | push bytes _, st => some (BitVec.ofNat 256 (beNat (bytes.getD · 0) bytes.length) :: st)
  | pop, _ :: st => some st
  | dup n, st => st[n.val]?.map (· :: st)
  | swap n, a :: st => st[n.val]?.map fun b => b :: st.set n a
  | unary op, a :: st => some (op.eval a :: st)
  | binary op, a :: b :: st => some (op.eval a b :: st)
  | _, _ => none

def run : List Instr → List Word → Option (List Word)
  | [], st => some st
  | i :: p, st => (i.step st).bind (run p)

/-- At most 87 elements before every instruction. -/
def Shallow : List Instr → List Word → Prop
  | [], _ => True
  | i :: p, st => st.length ≤ 87 ∧ ∀ st', i.step st = some st' → Shallow p st'

/-! ## Bytecode -/

def BinOp.byte : BinOp → UInt8
  | add => 0x01 | sub => 0x03 | lt => 0x10 | gt => 0x11 | eq => 0x14 | and => 0x16 | or => 0x17
  | xor => 0x18

def UnOp.byte : UnOp → UInt8
  | iszero => 0x15 | not => 0x19

def Instr.byte : Instr → UInt8
  | push bytes _ => pushByte bytes.length
  | pop => 0x50
  | dup n => UInt8.ofNat (0x80 + n)
  | swap n => UInt8.ofNat (0x90 + n)
  | unary op => op.byte
  | binary op => op.byte

def Instr.operand : Instr → List UInt8
  | push bytes _ => bytes
  | _ => []

def Instr.encode (i : Instr) : List UInt8 := i.byte :: i.operand

def encode (p : List Instr) : List UInt8 := p.flatMap Instr.encode

/-- What the interpreter charges for an instruction. -/
def Instr.gas : Instr → UInt32
  | push _ _ | pop => gasTable.stepGas2
  | dup _ | swap _ | binary .sub => 0
  | unary _ | binary _ => gasTable.stepGas3

def totalGas (p : List Instr) : Nat := (p.map fun i => i.gas.toNat).sum

end StackLang

open StackLang

/-! ## The representation relation -/

/-- The live slots of the machine hold the reference stack, `STACK[SP]` its top. -/
def Represents (s : Vm) (st : List Word) : Prop :=
  s.sp = st.length ∧ ∀ (i : Nat) w, st[i]? = some w → (s.slot (s.sp - i)).toBitVec = w

theorem Represents.top {s : Vm} {a : Word} {st : List Word} (h : Represents s (a :: st)) :
    (s.slot s.sp).toBitVec = a := by
  have h0 := h.2 0 a rfl
  rw [Int.ofNat_zero, Int.sub_zero] at h0
  exact h0

theorem Represents.popped {s : Vm} {a : Word} {st : List Word} (h : Represents s (a :: st)) :
    Represents s.popped st := by
  obtain ⟨hsp, hslots⟩ := h
  refine ⟨?_, ?_⟩
  · rw [Vm.sp_popped, hsp, List.length_cons]
    omega
  · intro i w hi
    have hnext := hslots (i + 1) w hi
    rw [Vm.sp_popped, Vm.slot_popped,
      show s.sp - 1 - (i : Int) = s.sp - ((i + 1 : Nat) : Int) by omega]
    exact hnext

theorem Represents.pushed {s : Vm} {w : Uint256} {a : Word} {st : List Word} (h : Represents s st)
    (hroom : st.length < 95) (ha : w.toBitVec = a) : Represents (s.pushed w) (a :: st) := by
  obtain ⟨hsp, hslots⟩ := h
  refine ⟨?_, ?_⟩
  · rw [Vm.sp_pushed, hsp, List.length_cons]
    omega
  · intro i x hi
    rw [Vm.sp_pushed]
    cases i with
    | zero =>
      obtain rfl : a = x := by
        cases hi
        rfl
      rw [Vm.slot_pushed_same w (inStack_of_le (by omega) (by omega)) (by omega)]
      exact ha
    | succ i =>
      have hold := hslots i x hi
      rw [Vm.slot_pushed_ne w (by omega),
        show s.sp + 1 - ((i + 1 : Nat) : Int) = s.sp - (i : Int) by omega]
      exact hold

/-- The words `a` on top and `b` at depth `n + 1` exchanged. -/
theorem Represents.swapped {s : Vm} {a b : Word} {st : List Word} {n : Nat} {v w : Uint256}
    (h : Represents s (a :: st)) (hroom : st.length < 95) (hb : st[n]? = some b)
    (hv : v.toBitVec = b) (hw : w.toBitVec = a) :
    Represents ((s.setSlot s.sp v).setSlot (s.sp - (n + 1 : Nat)) w) (b :: st.set n a) := by
  obtain ⟨hsp, hslots⟩ := h
  rw [List.length_cons] at hsp
  have hn : n < st.length := by
    by_contra hge
    rw [List.getElem?_eq_none (by omega)] at hb
    cases hb
  refine ⟨?_, ?_⟩
  · show s.sp = _
    rw [List.length_cons, List.length_set]
    exact hsp
  · intro i x hi
    show (Vm.slot _ (s.sp - i)).toBitVec = x
    rcases Nat.lt_trichotomy i 0 with hlt | rfl | hpos
    · omega
    · obtain rfl : b = x := by
        cases hi
        rfl
      rw [Vm.slot_setSlot_ne w (by omega), Int.ofNat_zero, Int.sub_zero,
        Vm.slot_setSlot_same v (inStack_of_le (by omega) (by omega))]
      exact hv
    · obtain ⟨j, rfl⟩ : ∃ j, i = j + 1 := ⟨i - 1, by omega⟩
      rw [List.getElem?_cons_succ] at hi
      by_cases hj : j = n
      · subst hj
        rw [List.getElem?_set_self hn] at hi
        obtain rfl : a = x := by
          cases hi
          rfl
        rw [Vm.slot_setSlot_same w (inStack_of_le (by omega) (by omega))]
        exact hw
      · rw [List.getElem?_set_ne (fun heq => hj heq.symm)] at hi
        rw [Vm.slot_setSlot_ne w (by omega), Vm.slot_setSlot_ne v (by omega)]
        exact hslots (j + 1) x hi

/-! ## One instruction -/

/-- What an instruction of the fragment does around the stack: `PC` moves over
the immediate, the charge is added, and nothing else changes. -/
structure Passes (i : Instr) (s s' : Vm) : Prop where
  pc : s'.pc = s.pc + UInt32.ofNat i.operand.length
  gas : s'.gasCharge = s.gasCharge + i.gas
  mem : s'.mem = s.mem
  storage : s'.storage = s.storage
  message : s'.message = s.message

theorem boolWord_toBitVec (b : Bool) : (boolWord b).toBitVec = if b then 1 else 0 := by
  cases b <;> rfl

/-- Operations of the word library and of the reference machine, side by side. -/
def BinOp.word : BinOp → Uint256 → Uint256 → Uint256
  | .add => add256
  | .sub => minus256
  | .lt => fun top bot => boolWord (gt256 bot top)
  | .gt => fun top bot => boolWord (gt256 top bot)
  | .eq => fun top bot => boolWord (equal256 top bot)
  | .and => and256
  | .or => or256
  | .xor => xor256

def UnOp.word : UnOp → Uint256 → Uint256
  | .iszero => fun top => boolWord (zero256 top)
  | .not => not256

theorem boolWord_gt256 (v w : Uint256) :
    (boolWord (gt256 v w)).toBitVec = if w.toBitVec < v.toBitVec then 1 else 0 := by
  rw [boolWord_toBitVec]
  refine if_congr ?_ rfl rfl
  rw [gt256_iff, BitVec.lt_def, Uint256.toNat_toBitVec, Uint256.toNat_toBitVec]

theorem BinOp.word_toBitVec (op : BinOp) (v w : Uint256) :
    (BinOp.word op v w).toBitVec = op.eval v.toBitVec w.toBitVec := by
  cases op with
  | add => exact add256_toBitVec v w
  | sub => exact minus256_toBitVec v w
  | lt => exact boolWord_gt256 w v
  | gt => exact boolWord_gt256 v w
  | eq =>
    refine (boolWord_toBitVec _).trans (if_congr ?_ rfl rfl)
    rw [equal256_iff]
    exact ⟨fun h => congrArg _ h, Uint256.toBitVec_inj⟩
  | and => exact and256_toBitVec v w
  | or => exact or256_toBitVec v w
  | xor => exact xor256_toBitVec v w

theorem UnOp.word_toBitVec (op : UnOp) (w : Uint256) :
    (UnOp.word op w).toBitVec = op.eval w.toBitVec := by
  cases op with
  | iszero =>
    refine (boolWord_toBitVec _).trans (if_congr ?_ rfl rfl)
    rw [zero256_iff, ← Uint256.toNat_toBitVec]
    exact ⟨fun h => BitVec.eq_of_toNat_eq h, fun h => congrArg BitVec.toNat h⟩
  | not => exact not256_toBitVec w

/-- The two-operand instructions decode to the word operation on the two
topmost slots. -/
theorem decode_binary {c : Code} {s : Vm} (op : BinOp) (h1 : 1 ≤ s.sp) (h2 : s.sp < stackSpace) :
    decodeInstruction op.byte c s
      = .ok 0 { s.popped.popped.pushed (BinOp.word op (s.slot s.sp) (s.slot (s.sp - 1))) with
          gasCharge := s.gasCharge + (Instr.binary op).gas } := by
  cases op with
  | sub =>
    rw [show (Instr.binary BinOp.sub).gas = 0 from rfl, UInt32.add_zero]
    exact opSub_ok h1 h2
  | add => exact binary_ok h1 h2
  | lt => exact binary_ok h1 h2
  | gt => exact binary_ok h1 h2
  | eq => exact binary_ok h1 h2
  | and => exact binary_ok h1 h2
  | or => exact binary_ok h1 h2
  | xor => exact binary_ok h1 h2

theorem decode_unary {c : Code} {s : Vm} (op : UnOp) (h : InStack s.sp) :
    decodeInstruction op.byte c s
      = .ok 0 { s.popped.pushed (UnOp.word op (s.slot s.sp)) with
          gasCharge := s.gasCharge + (Instr.unary op).gas } := by
  cases op with
  | iszero => exact unary_ok h
  | not => exact unary_ok h

theorem ofByte_dup (n : Fin 16) : OpCode.ofByte (UInt8.ofNat (0x80 + n)) = .dup n := by
  revert n
  decide

theorem ofByte_swap (n : Fin 16) : OpCode.ofByte (UInt8.ofNat (0x90 + n)) = .swap n := by
  revert n
  decide

theorem decode_dup {c : Code} {s : Vm} (n : Fin 16) (h : n.val + 1 ≤ s.sp) (hsp : s.sp ≤ 94) :
    decodeInstruction (UInt8.ofNat (0x80 + n)) c s
      = .ok 0 ({ s with slots := (s.sp - n.val) :: s.slots }.pushed (s.slot (s.sp - n.val))) := by
  unfold decodeInstruction
  rw [ofByte_dup]
  exact opDup_ok h hsp

theorem decode_swap {c : Code} {s : Vm} (n : Fin 16) (h : n.val + 2 ≤ s.sp) (hsp : s.sp ≤ 95) :
    decodeInstruction (UInt8.ofNat (0x90 + n)) c s
      = .ok 0 ((({ s with slots := (s.sp - (n.val + 1 : Nat)) :: s.sp :: s.slots }).setSlot s.sp
          (s.slot (s.sp - (n.val + 1 : Nat)))).setSlot (s.sp - (n.val + 1 : Nat)) (s.slot s.sp)) := by
  have htop : InStack s.sp := inStack_of_le (by omega) hsp
  have hother : InStack (s.sp - (n.val + 1 : Nat)) := inStack_of_le (by omega) (by omega)
  unfold decodeInstruction
  rw [ofByte_swap]
  show opSwap (n + 1) s = _
  unfold opSwap
  rw [get_bind, if_neg (by unfold InStack at hother; omega), bind_ok (stackAt_ok htop),
    bind_ok (stackAt_ok hother), bind_ok (setStackAt_ok _ htop), bind_ok (setStackAt_ok _ hother)]
  rfl

/-- **One instruction of the interpreter is one instruction of the reference
machine.** -/
theorem decode_simulates {i : Instr} {c : Code} {s : Vm} {st st' : List Word}
    (hrep : Represents s st) (hlen : st.length ≤ 87) (hstep : i.step st = some st')
    (himm : ∀ k b, i.operand[k]? = some b → c.bytes[s.pc.toNat + 1 + k]? = some b)
    (hpc : s.pc.toNat + i.operand.length < c.size) :
    ∃ s', decodeInstruction i.byte c s = .ok 0 s' ∧ Represents s' st' ∧ Passes i s s' := by
  have hsp := hrep.1
  cases i with
  | push bytes h =>
    obtain ⟨h1, h8⟩ := h
    have hnat : beNat (c.immediate s.pc) bytes.length = beNat (bytes.getD · 0) bytes.length := by
      refine beNat_congr fun k hk => ?_
      have hb := himm k bytes[k] (List.getElem?_eq_getElem hk)
      rw [Code.immediate, Code.byte, hb, List.getD_eq_getElem?_getD, List.getElem?_eq_getElem hk]
    -- at most eight bytes: the limbs that `PUSH` exchanges are zero
    have hlt : beNat (bytes.getD · 0) bytes.length < 2 ^ 256 :=
      calc beNat (bytes.getD · 0) bytes.length < 256 ^ bytes.length := beNat_lt _ _
        _ ≤ 256 ^ 32 := Nat.pow_le_pow_right (by omega) (by omega)
        _ = 2 ^ 256 := by norm_num
    have hval : (pushWord (beNat (c.immediate s.pc) bytes.length)).toBitVec
        = BitVec.ofNat 256 (beNat (bytes.getD · 0) bytes.length) := by
      apply BitVec.eq_of_toNat_eq
      rw [Uint256.toNat_toBitVec, BitVec.toNat_ofNat, hnat, Nat.mod_eq_of_lt hlt,
        (pushWord_val_iff hlt).mpr]
      rw [limb_short _ (by omega), limb_short _ (by omega)]
    refine ⟨_, (congrFun (decode_pushByte h1 (by omega) c) s).trans
      (opPush_ok h1 (by omega) hpc ?_ (by omega)), ?_, rfl, rfl, rfl, rfl, rfl⟩
    · show s.sp + (bytes.length : Int) < 96
      omega
    · obtain rfl : _ = st' := Option.some.inj hstep
      exact hrep.pushed (by omega) hval
  | pop =>
    cases st with
    | nil => cases hstep
    | cons a st =>
      obtain rfl : st = st' := Option.some.inj hstep
      rw [List.length_cons] at hsp hlen
      refine ⟨{ s.popped with gasCharge := s.gasCharge + gasTable.stepGas2 }, ?_, hrep.popped, ?_⟩
      · show opPop s = _
        unfold opPop
        rw [bind_ok (stackPop_ok (inStack_of_le (by omega) (by omega)))]
        rfl
      · exact ⟨(UInt32.add_zero s.pc).symm, rfl, rfl, rfl, rfl⟩
  | dup n =>
    obtain ⟨a, ha, rfl⟩ := Option.map_eq_some_iff.mp hstep
    have hn : n.val < st.length := (List.getElem?_eq_some_iff.mp ha).1
    refine ⟨_, decode_dup n (by omega) (by omega), ?_, ?_⟩
    · exact Represents.pushed (s := { s with slots := (s.sp - n.val) :: s.slots }) hrep (by omega)
        (hrep.2 n a ha)
    · exact ⟨(UInt32.add_zero s.pc).symm, (UInt32.add_zero s.gasCharge).symm, rfl, rfl, rfl⟩
  | swap n =>
    cases st with
    | nil => cases hstep
    | cons a st =>
      obtain ⟨b, hb, rfl⟩ := Option.map_eq_some_iff.mp hstep
      have hn : n.val < st.length := (List.getElem?_eq_some_iff.mp hb).1
      rw [List.length_cons] at hsp hlen
      refine ⟨_, decode_swap n (by omega) (by omega), ?_, ?_⟩
      · exact Represents.swapped
          (s := { s with slots := (s.sp - (n.val + 1 : Nat)) :: s.sp :: s.slots }) hrep (by omega)
          hb (hrep.2 (n + 1) b hb) hrep.top
      · exact ⟨(UInt32.add_zero s.pc).symm, (UInt32.add_zero s.gasCharge).symm, rfl, rfl, rfl⟩
  | unary op =>
    cases st with
    | nil => cases hstep
    | cons a st =>
      obtain rfl : _ = st' := Option.some.inj hstep
      rw [List.length_cons] at hsp hlen
      refine ⟨_, decode_unary op (inStack_of_le (by omega) (by omega)), ?_, ?_⟩
      · refine hrep.popped.pushed (by omega) ?_
        rw [UnOp.word_toBitVec, hrep.top]
      · exact ⟨(UInt32.add_zero s.pc).symm, rfl, rfl, rfl, rfl⟩
  | binary op =>
    cases st with
    | nil => cases hstep
    | cons a st =>
      cases st with
      | nil => cases hstep
      | cons b st =>
        obtain rfl : _ = st' := Option.some.inj hstep
        rw [List.length_cons, List.length_cons] at hsp hlen
        refine ⟨_, decode_binary op (by omega) (show s.sp < 96 by omega), ?_, ?_⟩
        · refine hrep.popped.popped.pushed (by omega) ?_
          have hsecond := hrep.popped.top
          rw [Vm.slot_popped, Vm.sp_popped] at hsecond
          rw [BinOp.word_toBitVec, hrep.top, hsecond]
        · exact ⟨(UInt32.add_zero s.pc).symm, rfl, rfl, rfl, rfl⟩

/-! ## Programs of any length -/

/-- No opcode of the fragment looks like `STOP`. -/
theorem Instr.byte_ne_zero (i : Instr) : i.byte ≠ 0 := by
  intro hzero
  have hnat := congrArg UInt8.toNat hzero
  cases i with
  | push bytes h =>
    unfold Instr.byte pushByte at hnat
    rw [UInt8.toNat_ofNat', UInt8.toNat_zero] at hnat
    omega
  | pop => cases hzero
  | dup n =>
    unfold Instr.byte at hnat
    rw [UInt8.toNat_ofNat', UInt8.toNat_zero] at hnat
    omega
  | swap n =>
    unfold Instr.byte at hnat
    rw [UInt8.toNat_ofNat', UInt8.toNat_zero] at hnat
    omega
  | unary op => cases op <;> cases hzero
  | binary op => cases op <;> cases hzero

/-- What a run of the fragment leaves alone. -/
structure Untouched (s s' : Vm) : Prop where
  mem : s'.mem = s.mem
  storage : s'.storage = s.storage
  message : s'.message = s.message

/-- One round on the encoding of `i`, with at least one byte `r` behind it: the
instruction is executed and the lookahead sees `r`. -/
theorem round_simulates {i : Instr} {c : Code} {pre rest : List UInt8} {r : UInt8} {s : Vm}
    {st st' : List Word} (hcode : c.bytes = pre ++ (i.encode ++ r :: rest))
    (hpc : s.pc.toNat = pre.length) (hrep : Represents s st) (hlen : st.length ≤ 87)
    (hstep : i.step st = some st') (hgas : s.gasCharge.toNat + i.gas.toNat ≤ gasLimit.toNat) :
    ∃ s', executeRound c c.sizeof s = (if r = 0 then .ok (some .stop) s' else .ok none s') ∧
      Represents s' st' ∧ Untouched s s' ∧ s'.pc.toNat = (pre ++ i.encode).length ∧
      s'.gasCharge.toNat = s.gasCharge.toNat + i.gas.toNat := by
  have hsize : c.size = pre.length + (1 + i.operand.length) + (1 + rest.length) := by
    unfold Code.size
    rw [hcode, Instr.encode]
    simp only [List.length_append, List.length_cons]
    omega
  have hbound : c.size < 2 ^ 32 := c.size_lt
  have hget : ∀ k, c.bytes[s.pc.toNat + k]? = (i.encode ++ r :: rest)[k]? := by
    intro k
    rw [hcode, hpc, List.getElem?_append_right (by omega), Nat.add_sub_cancel_left]
  have hop : c.bytes[s.pc.toNat]? = some i.byte := hget 0
  have himm : ∀ k b, i.operand[k]? = some b → c.bytes[s.pc.toNat + 1 + k]? = some b := by
    intro k b hb
    have hk : k < i.operand.length := (List.getElem?_eq_some_iff.mp hb).1
    rw [Nat.add_assoc, hget, Nat.add_comm 1 k, Instr.encode, List.cons_append,
      List.getElem?_cons_succ, List.getElem?_append_left hk]
    exact hb
  -- the instruction, then `PC++`, then the look at the byte behind the immediate
  obtain ⟨s₁, hrun, hrep₁, hpass⟩ := decode_simulates hrep hlen hstep himm (by omega)
  have hlt : s.pc < c.sizeof - 1 := by
    rw [UInt32.lt_iff_toNat_lt, UInt32.toNat_sub_of_le _ _ (by
      rw [UInt32.le_iff_toNat_le, Code.sizeof_toNat, hsize]
      show 1 ≤ _
      omega), Code.sizeof_toNat, hsize, hpc]
    show _ < _ - 1
    omega
  have hpaid : ¬s.gasCharge > gasLimit := by
    rw [gt_iff_lt, UInt32.lt_iff_toNat_lt]
    omega
  have hnext : s₁.next.pc.toNat = (pre ++ i.encode).length := by
    show (s₁.pc + 1).toNat = _
    rw [hpass.pc, UInt32.toNat_add, UInt32.toNat_add, UInt32.toNat_ofNat', hpc, List.length_append,
      Instr.encode, List.length_cons]
    show ((_ + _ % 2 ^ 32) % 2 ^ 32 + 1) % 2 ^ 32 = _
    omega
  have hlook : c.bytes[s₁.next.pc.toNat]? = some r := by
    rw [hnext, hcode, ← List.append_assoc, List.getElem?_append_right (Nat.le_refl _), Nat.sub_self]
    rfl
  refine ⟨s₁.next, ?_, hrep₁, ⟨hpass.mem, hpass.storage, hpass.message⟩, hnext, ?_⟩
  · rw [executeRound_decode hlt hpaid hop hrun, afterDecode, if_neg (by decide), if_neg (by decide),
      hlook]
  · show s₁.gasCharge.toNat = _
    have hlimit : gasLimit.toNat < 2 ^ 32 := gasLimit.toNat_lt
    rw [hpass.gas, UInt32.toNat_add]
    omega

theorem encode_cons (i : Instr) (p : List Instr) : encode (i :: p) = i.encode ++ encode p :=
  List.flatMap_cons

/-- **Whole runs.** From any machine that represents `st` at the encoding of a
non-empty program, the loop ends at the final `STOP` with the stack the reference
machine computes. -/
theorem execute_simulates {c : Code} : ∀ (p : List Instr) (i : Instr) (pre : List UInt8) {s : Vm}
    {st st' : List Word}, c.bytes = pre ++ (encode (i :: p) ++ [0x00]) → s.pc.toNat = pre.length →
    Represents s st → Shallow (i :: p) st → run (i :: p) st = some st' →
    s.gasCharge.toNat + totalGas (i :: p) ≤ gasLimit.toNat →
    ∃ s', (∀ k, runLoop (executeRound c c.sizeof) ((i :: p).length + k) s = .ok (some .stop) s') ∧
      Represents s' st' ∧ Untouched s s' := by
  intro p
  induction p with
  | nil =>
    intro i pre s st st' hcode hpc hrep hshallow hrun hgas
    obtain ⟨st₁, hstep, hrest⟩ := Option.bind_eq_some_iff.mp hrun
    obtain rfl : st₁ = st' := Option.some.inj hrest
    rw [encode_cons, encode, List.flatMap_nil, List.append_nil] at hcode
    obtain ⟨s', hround, hrep', hsame, -, -⟩ := round_simulates hcode hpc hrep hshallow.1 hstep hgas
    -- behind the last instruction it is the final `STOP`
    rw [if_pos rfl] at hround
    refine ⟨s', ?_, hrep', hsame⟩
    intro k
    rw [List.length_singleton, Nat.add_comm 1 k]
    exact runLoop_leave hround k
  | cons j p ih =>
    intro i pre s st st' hcode hpc hrep hshallow hrun hgas
    obtain ⟨st₁, hstep, hrest⟩ := Option.bind_eq_some_iff.mp hrun
    have hsum : totalGas (i :: j :: p) = i.gas.toNat + totalGas (j :: p) := List.sum_cons
    have hfirst : c.bytes = pre ++ (i.encode ++ j.byte :: (j.operand ++ (encode p ++ [0x00]))) := by
      rw [hcode, encode_cons, encode_cons, Instr.encode.eq_1 j]
      simp only [List.append_assoc, List.cons_append]
    obtain ⟨s₁, hround, hrep₁, hsame₁, hpc₁, hgas₁⟩ :=
      round_simulates hfirst hpc hrep hshallow.1 hstep (by omega)
    -- the byte looked at is the next opcode, so the loop goes on
    rw [if_neg (Instr.byte_ne_zero j)] at hround
    have hcode₁ : c.bytes = (pre ++ i.encode) ++ (encode (j :: p) ++ [0x00]) := by
      rw [hcode, encode_cons]
      simp only [List.append_assoc]
    obtain ⟨s', hruns, hrep', hsame⟩ := ih j _ hcode₁ hpc₁ hrep₁ (hshallow.2 st₁ hstep) hrest (by omega)
    refine ⟨s', ?_, hrep', ?_⟩
    · intro k
      rw [List.length_cons, Nat.add_right_comm, runLoop_again hround]
      exact hruns k
    · exact ⟨hsame.mem.trans hsame₁.mem, hsame.storage.trans hsame₁.storage,
        hsame.message.trans hsame₁.message⟩

/-- The encoding of a program, followed by one `STOP`. -/
def stackProgram (p : List Instr) (h : (encode p).length + 1 < 2 ^ 32) : Code :=
  ⟨encode p ++ [0x00], by rw [List.length_append]; exact h⟩

/-- **The interpreter refines the reference stack machine.** For every
straight-line program whose reference run succeeds, stays at 87 elements and
within the gas limit, `init_machine` and `execute_contract` end without a fault,
with the reference stack in `STACK[1..SP]` and the rest of the machine as it
was. -/
theorem stackProgram_refines (p : List Instr) (st : List Word) (vm : Vm)
    (hrun : run p [] = some st) (hshallow : Shallow p []) (hgas : totalGas p ≤ gasLimit.toNat)
    (hsize : (encode p).length + 1 < 2 ^ 32) :
    ∃ halt s', (∀ rounds, p.length < rounds →
        (initMachine >>= fun _ =>
          executeContract (stackProgram p hsize) (stackProgram p hsize).sizeof rounds) vm
          = .ok (some halt) s') ∧
      s'.sp = (st.length : Int) ∧
      (∀ (i : Nat) w, st[i]? = some w → (s'.slot (st.length - i)).toBitVec = w) ∧
      s'.mem = vm.mem ∧ s'.storage = vm.storage ∧ s'.message = vm.message := by
  have hinit : initMachine vm = .ok () { vm with pc := 0, sp := 0, gasCharge := 0 } := rfl
  have hempty : Represents { vm with pc := 0, sp := 0, gasCharge := 0 } [] := by
    refine ⟨rfl, ?_⟩
    intro i w hi
    cases hi
  cases p with
  | nil =>
    obtain rfl : [] = st := Option.some.inj hrun
    refine ⟨.endOfCode, _, ?_, hempty.1, ?_, rfl, rfl, rfl⟩
    · intro rounds hrounds
      obtain ⟨k, rfl⟩ : ∃ k, rounds = k + 1 := ⟨rounds - 1, by omega⟩
      rw [bind_ok hinit]
      exact runLoop_leave (executeRound_endOfCode (show ¬(0 : UInt32) < 1 - 1 by decide)) k
    · intro i w hi
      cases hi
  | cons i p =>
    obtain ⟨s', hruns, hrep, hsame⟩ := execute_simulates (c := stackProgram (i :: p) hsize) p i []
      (s := { vm with pc := 0, sp := 0, gasCharge := 0 }) rfl rfl hempty hshallow hrun
      (by show 0 + _ ≤ _; omega)
    refine ⟨.stop, s', ?_, hrep.1, ?_, hsame.mem, hsame.storage, hsame.message⟩
    · intro rounds hrounds
      obtain ⟨k, rfl⟩ : ∃ k, rounds = (i :: p).length + k := ⟨rounds - (i :: p).length, by omega⟩
      rw [bind_ok hinit]
      exact hruns k
    · intro k w hk
      rw [← hrep.1]
      exact hrep.2 k w hk

/-- `PUSH1 5 PUSH1 3 SUB`. -/
def threeMinusFive : List Instr :=
  [.push [5] (by decide), .push [3] (by decide), .binary .sub]

theorem threeMinusFive_refines :
    ∃ halt s', (∀ rounds, 3 < rounds →
        (initMachine >>= fun _ => executeContract (stackProgram threeMinusFive (by decide))
          (stackProgram threeMinusFive (by decide)).sizeof rounds) Vm.zeroed = .ok (some halt) s') ∧
      s'.sp = (1 : Nat) ∧
      (∀ (i : Nat) w, [(-2 : Word)][i]? = some w → (s'.slot ((1 : Nat) - i)).toBitVec = w) ∧
      s'.mem = Vm.zeroed.mem ∧ s'.storage = Vm.zeroed.storage ∧ s'.message = Vm.zeroed.message := by
  have hshallow : Shallow threeMinusFive [] := by
    refine ⟨by decide, ?_⟩
    rintro _ ⟨⟩
    refine ⟨by decide, ?_⟩
    rintro _ ⟨⟩
    refine ⟨by decide, ?_⟩
    rintro _ ⟨⟩
    trivial
  exact stackProgram_refines threeMinusFive [-2] Vm.zeroed (by decide) hshallow (by decide) (by decide)

end TinyEvm
