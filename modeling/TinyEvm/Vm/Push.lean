import TinyEvm.Uint256.Bytes
import TinyEvm.Vm.Stack

/-!
# What `PUSH1`, …, `PUSH32` push

The four copies of `PUSH` collect the immediate in up to four accumulators, from
the most significant one down, and then assign them to the limbs of a word. The
loops are right: the accumulators are the limbs of the big-endian number in the
immediate (`opPush_ok`, for all 32 opcodes at once). The assignment is not: the
accumulator of weight `2^128` goes to `UPPER(LOWER(w))` and that of weight
`2^64` to `LOWER(UPPER(w))`, so the two middle limbs change places (`pushWord`).
-/

namespace TinyEvm

open Lib.BigEndian Lib.Exec

/-- Byte `i` of a contract, zero past its end. -/
def Code.byte (c : Code) (i : Nat) : UInt8 := (c.bytes[i]?).getD 0

/-- Byte `i` of the immediate of the instruction at `pc`. -/
def Code.immediate (c : Code) (pc : UInt32) (i : Nat) : UInt8 := c.byte (pc.toNat + 1 + i)

/-- `PC += k`. -/
def Vm.advance (s : Vm) (k : Nat) : Vm := { s with pc := s.pc + UInt32.ofNat k }

/-- The word `PUSH` makes of an immediate of value `v`. -/
def pushWord (v : Nat) : Uint256 := elementsWord (limb v 3) (limb v 2) (limb v 1) (limb v 0)

/-- The machine after a `PUSHn` that was accepted. -/
def Vm.afterPush (s : Vm) (n : Nat) (w : Uint256) : Vm :=
  { (s.pushed w).advance n with gasCharge := s.gasCharge + gasTable.stepGas2 }

theorem codeAt_byte {c : Code} {i : Nat} (h : i < c.size) (s : Vm) :
    codeAt c i s = .ok (c.byte i) s := by
  have hget : c.bytes[i]? = some c.bytes[i] := List.getElem?_eq_getElem h
  unfold codeAt Code.byte
  rw [hget]
  rfl

theorem Vm.advance_pc_toNat {s : Vm} {k : Nat} {c : Code} (h : s.pc.toNat + k < c.size) :
    (s.advance k).pc.toNat = s.pc.toNat + k := by
  have hsize := c.size_lt
  unfold Code.size at h
  show (s.pc + UInt32.ofNat k).toNat = _
  rw [UInt32.toNat_add, UInt32.toNat_ofNat']
  omega

theorem Vm.advance_advance (s : Vm) (j k : Nat) : (s.advance j).advance k = s.advance (j + k) := by
  unfold advance
  rw [UInt32.ofNat_add, UInt32.add_assoc]

/-- The immediate, read on from its byte `k`. -/
theorem Code.immediate_advance {c : Code} {s : Vm} {k : Nat} (h : s.pc.toNat + k < c.size) :
    c.immediate (s.advance k).pc = fun i => c.immediate s.pc (k + i) := by
  funext i
  unfold Code.immediate
  rw [Vm.advance_pc_toNat h]
  congr 1
  omega

/-! ## The byte loops -/

/-- The loop of `PUSH` from an accumulator with `j` bytes in it. -/
theorem pushBytes_ok {c : Code} : ∀ (k j : Nat) {element : UInt64} {s : Vm},
    s.pc.toNat + k < c.size → element.toNat < 256 ^ j → j + k ≤ 8 →
    pushBytes c k element s
      = .ok (UInt64.ofNat (element.toNat * 256 ^ k + beNat (c.immediate s.pc) k)) (s.advance k) := by
  intro k
  induction k with
  | zero =>
    intro j element s hpc helt hjk
    rw [Nat.pow_zero, Nat.mul_one, beNat, Nat.add_zero, UInt64.ofNat_toNat]
    show EStateM.Result.ok element s = .ok element (s.advance 0)
    unfold Vm.advance
    rw [show UInt32.ofNat 0 = 0 from rfl, UInt32.add_zero]
  | succ k ih =>
    intro j element s hpc helt hjk
    have hpc1 : (s.advance 1).pc.toNat = s.pc.toNat + 1 :=
      Vm.advance_pc_toNat (show s.pc.toNat + 1 < c.size by omega)
    have hbyte : c.byte (s.advance 1).pc.toNat = c.immediate s.pc 0 := by
      rw [hpc1]
      rfl
    have hstep := shl_or_byte_of_lt (c.immediate s.pc 0) helt (by omega)
    -- one byte more in the accumulator, and still at most eight
    have hnext : ((element <<< 8) ||| (c.immediate s.pc 0).toUInt64).toNat < 256 ^ (j + 1) := by
      have hb := (c.immediate s.pc 0).toNat_lt
      rw [hstep, Nat.pow_succ]
      omega
    have hrest := ih (j + 1) (s := s.advance 1) (by omega) hnext (by omega)
    rw [pushBytes, bind_ok (show (modify _ : VmM Unit) s = .ok () (s.advance 1) from rfl),
      bind_ok (show (get : VmM Vm) (s.advance 1) = .ok _ (s.advance 1) from rfl),
      bind_ok (codeAt_byte (by omega) _), hbyte, hrest, Vm.advance_advance, Nat.add_comm 1 k, hstep,
      Code.immediate_advance (show s.pc.toNat + 1 < c.size by omega), Nat.add_comm k 1,
      beNat_add _ 1 k]
    congr 2
    rw [Nat.pow_add, beNat, beNat]
    ring

/-- A loop of `PUSH` from an empty accumulator, `j` bytes into the immediate. -/
theorem pushBytes_at {c : Code} {s : Vm} (j k : Nat) (hpc : s.pc.toNat + (j + k) < c.size)
    (hk : k ≤ 8) : pushBytes c k 0 (s.advance j)
      = .ok (UInt64.ofNat (beNat (fun i => c.immediate s.pc (j + i)) k)) (s.advance (j + k)) := by
  have hj : s.pc.toNat + j < c.size := by omega
  have hzero : (0 : UInt64).toNat < 256 ^ 0 := by decide
  rw [pushBytes_ok k 0 (by rw [Vm.advance_pc_toNat hj]; omega) hzero (by omega),
    Code.immediate_advance hj, Vm.advance_advance]
  congr 2
  show 0 * 256 ^ k + _ = _
  rw [Nat.zero_mul, Nat.zero_add]

/-- The loop at the front of the immediate. -/
theorem pushBytes_first {c : Code} {s : Vm} (k : Nat) (hpc : s.pc.toNat + k < c.size) (hk : k ≤ 8) :
    pushBytes c k 0 (s.advance 0)
      = .ok (UInt64.ofNat (beNat (fun i => c.immediate s.pc i) k)) (s.advance k) := by
  have h := pushBytes_at 0 k (by rwa [Nat.zero_add]) hk
  simp only [Nat.zero_add] at h
  exact h

/-! ## Where an immediate can be read -/

/-- The `k` bytes behind `pc` lie in the code. -/
def ImmediateInside (c : Code) (pc : UInt32) (k : Nat) : Prop :=
  ∀ i, i < k → (pc + UInt32.ofNat (i + 1)).toNat < c.size

theorem immediateInside_add {c : Code} {pc : UInt32} {j k : Nat} :
    ImmediateInside c pc (j + k) ↔
      ImmediateInside c pc j ∧ ImmediateInside c (pc + UInt32.ofNat j) k := by
  have hshift : ∀ i, pc + UInt32.ofNat j + UInt32.ofNat (i + 1) = pc + UInt32.ofNat (j + i + 1) := by
    intro i
    rw [UInt32.add_assoc, ← UInt32.ofNat_add, Nat.add_assoc]
  refine ⟨?_, ?_⟩
  · intro h
    refine ⟨fun i hi => h i (by omega), fun i hi => ?_⟩
    rw [hshift]
    exact h (j + i) (by omega)
  · rintro ⟨hj, hk⟩ i hi
    rcases Nat.lt_or_ge i j with hlt | hge
    · exact hj i hlt
    · have h := hk (i - j) (by omega)
      rw [hshift, show j + (i - j) + 1 = i + 1 by omega] at h
      exact h

/-- For a head inside the code, the immediate is inside without wrapping. -/
theorem immediateInside_iff {c : Code} {pc : UInt32} {k : Nat} (hpc : pc.toNat < c.size) :
    ImmediateInside c pc k ↔ pc.toNat + k < c.size := by
  have hsize : c.size < 2 ^ 32 := c.size_lt
  refine ⟨?_, ?_⟩
  · intro h
    -- the first address past the code does not wrap, so it would be read and missed
    by_contra hge
    have hfirst := h (c.size - pc.toNat - 1) (by omega)
    rw [UInt32.toNat_add, UInt32.toNat_ofNat'] at hfirst
    omega
  · intro h i hi
    rw [UInt32.toNat_add, UInt32.toNat_ofNat']
    omega

/-- `read` takes exactly the next `k` bytes of the code: it succeeds when they
are there, leaves `PC` on the last of them, and touches nothing else. -/
def ReadsBytes (c : Code) {α : Type} (k : Nat) (read : VmM α) : Prop :=
  ∀ s, (ImmediateInside c s.pc k → ∃ a, read s = .ok a (s.advance k)) ∧
    ∀ a s', read s = .ok a s' → ImmediateInside c s.pc k ∧ s' = s.advance k

theorem Vm.advance_zero (s : Vm) : s.advance 0 = s := by
  unfold advance
  rw [show UInt32.ofNat 0 = 0 from rfl, UInt32.add_zero]

theorem ReadsBytes.value {c : Code} {α : Type} (a : α) : ReadsBytes c 0 (pure a : VmM α) := by
  intro s
  rw [Vm.advance_zero]
  refine ⟨fun _ => ⟨a, rfl⟩, ?_⟩
  intro a' s' hrun
  cases hrun
  exact ⟨fun i hi => by omega, rfl⟩

theorem ReadsBytes.bind {c : Code} {α β : Type} {j k : Nat} {x : VmM α} {f : α → VmM β}
    (hx : ReadsBytes c j x) (hf : ∀ a, ReadsBytes c k (f a)) : ReadsBytes c (j + k) (x >>= f) := by
  intro s
  refine ⟨?_, ?_⟩
  · intro h
    obtain ⟨hj, hk⟩ := immediateInside_add.mp h
    obtain ⟨a, hrun⟩ := (hx s).1 hj
    obtain ⟨b, hrest⟩ := (hf a (s.advance j)).1 hk
    refine ⟨b, ?_⟩
    rw [bind_ok hrun, hrest, Vm.advance_advance]
  · intro b s'' h
    obtain ⟨a, s', hrun, hrest⟩ := bind_eq_ok.mp h
    obtain ⟨hj, rfl⟩ := (hx s).2 a s' hrun
    obtain ⟨hk, rfl⟩ := (hf a (s.advance j)).2 b s'' hrest
    exact ⟨immediateInside_add.mpr ⟨hj, hk⟩, Vm.advance_advance s j k⟩

theorem ReadsBytes.pushBytes {c : Code} : ∀ (k : Nat) (element : UInt64),
    ReadsBytes c k (pushBytes c k element) := by
  intro k
  induction k with
  | zero =>
    intro element
    exact ReadsBytes.value element
  | succ k ih =>
    intro element
    -- one byte: `PC ++` and the fetch
    have hone : ReadsBytes c 1 (modify (fun s => { s with pc := s.pc + 1 }) >>= fun _ =>
        get >>= fun s : Vm => codeAt c s.pc.toNat) := by
      intro s
      have hrun : (modify (fun s => { s with pc := s.pc + 1 }) >>= fun _ =>
          get >>= fun s : Vm => codeAt c s.pc.toNat) s = codeAt c (s.advance 1).pc.toNat (s.advance 1) := rfl
      rw [hrun]
      refine ⟨?_, ?_⟩
      · intro h
        exact ⟨_, codeAt_byte (h 0 (by omega)) _⟩
      · intro b s' hb
        by_cases hlt : (s.advance 1).pc.toNat < c.size
        · rw [codeAt_byte hlt] at hb
          cases hb
          refine ⟨fun i hi => ?_, rfl⟩
          obtain rfl : i = 0 := by omega
          exact hlt
        · unfold codeAt at hb
          rw [List.getElem?_eq_none (Nat.le_of_not_lt hlt)] at hb
          cases hb
    have hall := hone.bind fun b => ih ((element <<< 8) ||| b.toUInt64)
    rw [Nat.add_comm 1 k] at hall
    exact hall

/-! ## Accumulators are limbs -/

/-- The foremost bytes, `8 * i` bytes before the end, are the top limb. -/
theorem limb_front (f : Nat → UInt8) (j i : Nat) :
    limb (beNat f (j + 8 * i)) i = UInt64.ofNat (beNat f j) := by
  unfold limb
  rw [Nat.pow_mul, show 2 ^ 64 = 256 ^ 8 by norm_num, ← Nat.pow_mul, beNat_div]

/-- Eight bytes that end `8 * i` bytes before the end are limb `i`. -/
theorem limb_middle (f : Nat → UInt8) (j i : Nat) :
    limb (beNat f (j + 8 + 8 * i)) i = UInt64.ofNat (beNat (fun t => f (j + t)) 8) := by
  rw [limb_front, ← beNat_mod]
  apply UInt64.toNat_inj.mp
  rw [UInt64.toNat_ofNat', UInt64.toNat_ofNat', show 256 ^ 8 = 2 ^ 64 by norm_num, Nat.mod_mod]

/-- Short immediates have no high limbs. -/
theorem limb_short (f : Nat → UInt8) {n i : Nat} (h : n ≤ 8 * i) : limb (beNat f n) i = 0 := by
  have hlt : beNat f n < 2 ^ (64 * i) :=
    calc beNat f n < 256 ^ n := beNat_lt f n
      _ ≤ 256 ^ (8 * i) := Nat.pow_le_pow_right (by omega) h
      _ = 2 ^ (64 * i) := by
        rw [Nat.pow_mul, Nat.pow_mul, show 256 ^ 8 = 2 ^ 64 by norm_num]
  unfold limb
  rw [Nat.div_eq_of_lt hlt]
  rfl

/-- The only faults of a command are reads past the code. -/
def FaultsInCode {α : Type} (x : VmM α) : Prop := Never (fun e => ∀ i, e ≠ Fault.code i) x

theorem faultsInCode_pushBytes (c : Code) : ∀ (k : Nat) (element : UInt64),
    FaultsInCode (pushBytes c k element) := by
  intro k
  induction k with
  | zero =>
    intro element
    exact Never.pure element
  | succ k ih =>
    intro element
    have hread : ∀ i, FaultsInCode (codeAt c i) := by
      intro i
      unfold codeAt
      split
      · exact Never.pure _
      · exact Never.throw fun hne => hne i rfl
    exact (Never.update _).bind fun _ => Never.get.bind fun s => (hread _).bind fun _ => ih _

/-! ## The four copies -/

theorem pushImmediate_ok {n : Nat} {read : VmM Uint256} {s : Vm} {w : Uint256} (h1 : 1 ≤ n)
    (h : s.sp + n < stackSpace) (hsp : -1 ≤ s.sp)
    (hread : read ({ s with sp := s.sp + 1 }.advance 0)
      = .ok w ({ s with sp := s.sp + 1 }.advance n)) :
    pushImmediate n read s = .ok 0 (s.afterPush n w) := by
  rw [Vm.advance_zero] at hread
  unfold pushImmediate
  rw [get_bind, if_neg (by omega)]
  refine (bind_ok (show (set _ : VmM _) s = .ok _ { s with sp := s.sp + 1 } from rfl) _).trans ?_
  rw [bind_ok hread, bind_ok (setStackAt_ok w ⟨by omega, by omega⟩)]
  rfl

section

variable {c : Code} {s : Vm} {n : Nat}

theorem opPush1_ok (h1 : 1 ≤ n) (hn : n ≤ 8) (hpc : s.pc.toNat + n < c.size)
    (h : s.sp + n < stackSpace) (hsp : -1 ≤ s.sp) :
    opPush1 c n s = .ok 0 (s.afterPush n (pushWord (beNat (c.immediate s.pc) n))) := by
  refine pushImmediate_ok h1 h hsp ?_
  have h0 := pushBytes_first (s := { s with sp := s.sp + 1 }) n hpc hn
  have hlow := limb_front (c.immediate s.pc) n 0
  rw [Nat.mul_zero, Nat.add_zero] at hlow
  rw [bind_ok h0, pushWord, limb_short _ (show n ≤ 8 * 3 by omega), limb_short _ (show n ≤ 8 * 2 by omega),
    limb_short _ (show n ≤ 8 * 1 by omega), hlow]
  rfl

theorem opPush9_ok (h9 : 9 ≤ n) (hn : n ≤ 16) (hpc : s.pc.toNat + n < c.size)
    (h : s.sp + n < stackSpace) (hsp : -1 ≤ s.sp) :
    opPush9 c n s = .ok 0 (s.afterPush n (pushWord (beNat (c.immediate s.pc) n))) := by
  obtain ⟨j, rfl⟩ : ∃ j, n = j + 8 := ⟨n - 8, by omega⟩
  refine pushImmediate_ok (by omega) h hsp ?_
  have hj : j + 8 - 1 - 8 + 1 = j := by omega
  have h0 := pushBytes_first (s := { s with sp := s.sp + 1 }) j (c := c)
    (show s.pc.toNat + j < c.size by omega) (by omega)
  have h1 := pushBytes_at (s := { s with sp := s.sp + 1 }) j 8 (c := c)
    (show s.pc.toNat + (j + 8) < c.size by omega) (by omega)
  rw [hj, bind_ok h0, bind_ok h1, pushWord, limb_short _ (show j + 8 ≤ 8 * 3 by omega),
    limb_short _ (show j + 8 ≤ 8 * 2 by omega), limb_front _ j 1, limb_middle _ j 0]
  rfl

theorem opPush17_ok (h17 : 17 ≤ n) (hn : n ≤ 24) (hpc : s.pc.toNat + n < c.size)
    (h : s.sp + n < stackSpace) (hsp : -1 ≤ s.sp) :
    opPush17 c n s = .ok 0 (s.afterPush n (pushWord (beNat (c.immediate s.pc) n))) := by
  obtain ⟨j, rfl⟩ : ∃ j, n = j + 16 := ⟨n - 16, by omega⟩
  refine pushImmediate_ok (by omega) h hsp ?_
  have hj : j + 16 - 1 - 16 + 1 = j := by omega
  have h0 := pushBytes_first (s := { s with sp := s.sp + 1 }) j (c := c)
    (show s.pc.toNat + j < c.size by omega) (by omega)
  have h1 := pushBytes_at (s := { s with sp := s.sp + 1 }) j 8 (c := c)
    (show s.pc.toNat + (j + 8) < c.size by omega) (by omega)
  have h2 := pushBytes_at (s := { s with sp := s.sp + 1 }) (j + 8) 8 (c := c)
    (show s.pc.toNat + (j + 8 + 8) < c.size by omega) (by omega)
  rw [hj, bind_ok h0, bind_ok h1, bind_ok h2, pushWord, limb_short _ (show j + 16 ≤ 8 * 3 by omega),
    limb_front _ j 2, limb_middle _ j 1, limb_middle _ (j + 8) 0]
  rfl

theorem opPush25_ok (h25 : 25 ≤ n) (hn : n ≤ 32) (hpc : s.pc.toNat + n < c.size)
    (h : s.sp + n < stackSpace) (hsp : -1 ≤ s.sp) :
    opPush25 c n s = .ok 0 (s.afterPush n (pushWord (beNat (c.immediate s.pc) n))) := by
  obtain ⟨j, rfl⟩ : ∃ j, n = j + 24 := ⟨n - 24, by omega⟩
  refine pushImmediate_ok (by omega) h hsp ?_
  have hj : j + 24 - 1 - 24 + 1 = j := by omega
  have h0 := pushBytes_first (s := { s with sp := s.sp + 1 }) j (c := c)
    (show s.pc.toNat + j < c.size by omega) (by omega)
  have h1 := pushBytes_at (s := { s with sp := s.sp + 1 }) j 8 (c := c)
    (show s.pc.toNat + (j + 8) < c.size by omega) (by omega)
  have h2 := pushBytes_at (s := { s with sp := s.sp + 1 }) (j + 8) 8 (c := c)
    (show s.pc.toNat + (j + 8 + 8) < c.size by omega) (by omega)
  have h3 := pushBytes_at (s := { s with sp := s.sp + 1 }) (j + 16) 8 (c := c)
    (show s.pc.toNat + (j + 16 + 8) < c.size by omega) (by omega)
  rw [hj, bind_ok h0, bind_ok h1, bind_ok h2, bind_ok h3, pushWord, limb_front _ j 3, limb_middle _ j 2,
    limb_middle _ (j + 8) 1, limb_middle _ (j + 16) 0]
  rfl

/-- **`PUSHn`, accepted**: `SP` up by one, `PC` up by `n`, and the word of the
immediate, with its middle limbs exchanged, on top. -/
theorem opPush_ok (h1 : 1 ≤ n) (hn : n ≤ 32) (hpc : s.pc.toNat + n < c.size)
    (h : s.sp + n < stackSpace) (hsp : -1 ≤ s.sp) :
    opPush c n s = .ok 0 (s.afterPush n (pushWord (beNat (c.immediate s.pc) n))) := by
  unfold opPush
  split
  next h8 => exact opPush1_ok h1 h8 hpc h hsp
  next h8 =>
    split
    next h16 => exact opPush9_ok (by omega) h16 hpc h hsp
    next h16 =>
      split
      next h24 => exact opPush17_ok (by omega) h24 hpc h hsp
      next h24 => exact opPush25_ok (by omega) hn hpc h hsp

/-- All copies of `PUSH` check and store alike, and read the `n` bytes of the
immediate in between. -/
theorem opPush_eq (c : Code) (h1 : 1 ≤ n) (hn : n ≤ 32) :
    ∃ read, opPush c n = pushImmediate n read ∧ ReadsBytes c n read ∧ FaultsInCode read := by
  have hbytes : ∀ k, FaultsInCode (pushBytes c k 0) := fun k => faultsInCode_pushBytes c k 0
  unfold opPush
  split
  next h8 =>
    exact ⟨_, rfl, (ReadsBytes.pushBytes n 0).bind fun _ => ReadsBytes.value _,
      (hbytes _).bind fun _ => Never.pure _⟩
  next h8 =>
    split
    next h16 =>
      refine ⟨_, rfl, ?_, (hbytes _).bind fun _ => (hbytes _).bind fun _ => Never.pure _⟩
      have h := (ReadsBytes.pushBytes (c := c) (n - 1 - 8 + 1) 0).bind fun lowUpp =>
        (ReadsBytes.pushBytes 8 0).bind fun lowLow =>
          ReadsBytes.value (elementsWord 0 0 lowUpp lowLow)
      rw [show n - 1 - 8 + 1 + (8 + 0) = n by omega] at h
      exact h
    next h16 =>
      split
      next h24 =>
        refine ⟨_, rfl, ?_, (hbytes _).bind fun _ => (hbytes _).bind fun _ => (hbytes _).bind fun _ =>
          Never.pure _⟩
        have h := (ReadsBytes.pushBytes (c := c) (n - 1 - 16 + 1) 0).bind fun uppLow =>
          (ReadsBytes.pushBytes 8 0).bind fun lowUpp => (ReadsBytes.pushBytes 8 0).bind fun lowLow =>
            ReadsBytes.value (elementsWord 0 uppLow lowUpp lowLow)
        rw [show n - 1 - 16 + 1 + (8 + (8 + 0)) = n by omega] at h
        exact h
      next h24 =>
        refine ⟨_, rfl, ?_, (hbytes _).bind fun _ => (hbytes _).bind fun _ => (hbytes _).bind fun _ =>
          (hbytes _).bind fun _ => Never.pure _⟩
        have h := (ReadsBytes.pushBytes (c := c) (n - 1 - 24 + 1) 0).bind fun uppUpp =>
          (ReadsBytes.pushBytes 8 0).bind fun uppLow => (ReadsBytes.pushBytes 8 0).bind fun lowUpp =>
            (ReadsBytes.pushBytes 8 0).bind fun lowLow =>
              ReadsBytes.value (elementsWord uppUpp uppLow lowUpp lowLow)
        rw [show n - 1 - 24 + 1 + (8 + (8 + (8 + 0))) = n by omega] at h
        exact h

/-- A refused `PUSHn` changes nothing. -/
theorem opPush_refused (h1 : 1 ≤ n) (hn : n ≤ 32) (h : s.sp + n ≥ stackSpace) :
    opPush c n s = .ok (-1) s := by
  obtain ⟨read, hread, -⟩ := opPush_eq c h1 hn
  rw [hread]
  unfold pushImmediate
  rw [get_bind, if_pos h]
  rfl

/-- Everything a `PUSHn` that returns can do. -/
theorem opPush_cases {status : Int} {s' : Vm} (h1 : 1 ≤ n) (hn : n ≤ 32)
    (hrun : opPush c n s = .ok status s') :
    (status = -1 ∧ s' = s ∧ s.sp + n ≥ stackSpace) ∨
    (status = 0 ∧ s.sp + n < stackSpace ∧ -1 ≤ s.sp ∧ ImmediateInside c s.pc n ∧
      ∃ w, s' = s.afterPush n w) := by
  by_cases hfull : s.sp + n ≥ stackSpace
  · rw [opPush_refused h1 hn hfull] at hrun
    cases hrun
    exact Or.inl ⟨rfl, rfl, hfull⟩
  · right
    obtain ⟨read, hread, hbytes, -⟩ := opPush_eq c h1 hn
    rw [hread] at hrun
    unfold pushImmediate at hrun
    rw [get_bind, if_neg hfull] at hrun
    obtain ⟨_, s₁, hset, hrun⟩ := bind_eq_ok.mp hrun
    obtain rfl : { s with sp := s.sp + 1 } = s₁ := by
      cases hset
      rfl
    -- the bytes were read, so they lie inside the code
    obtain ⟨w, s₂, hr, hrun⟩ := bind_eq_ok.mp hrun
    obtain ⟨hinside, rfl⟩ := (hbytes _).2 w s₂ hr
    by_cases hin : InStack (s.sp + 1)
    · rw [bind_ok (setStackAt_ok w hin)] at hrun
      cases hrun
      unfold InStack at hin
      exact ⟨rfl, by omega, by omega, hinside, w, rfl⟩
    · rw [bind_error (setStackAt_fault w hin)] at hrun
      cases hrun

/-- A `PUSHn` with room for `n` words and its immediate in the code is accepted. -/
theorem opPush_accepts (h1 : 1 ≤ n) (hn : n ≤ 32) (h : s.sp + n < stackSpace) (hsp : -1 ≤ s.sp)
    (hinside : ImmediateInside c s.pc n) : ∃ w, opPush c n s = .ok 0 (s.afterPush n w) := by
  obtain ⟨read, hread, hbytes, -⟩ := opPush_eq c h1 hn
  obtain ⟨w, hr⟩ := (hbytes { s with sp := s.sp + 1 }).1 hinside
  refine ⟨w, ?_⟩
  rw [hread]
  refine pushImmediate_ok h1 h hsp ?_
  rw [Vm.advance_zero]
  exact hr

/-- Below the stack the word is read and then missing its slot. -/
theorem opPush_below (h1 : 1 ≤ n) (hn : n ≤ 32) (h : s.sp + n < stackSpace) (hsp : s.sp < -1)
    (hinside : ImmediateInside c s.pc n) :
    ∃ s', opPush c n s = .error (.stack (s.sp + 1)) s' := by
  obtain ⟨read, hread, hbytes, -⟩ := opPush_eq c h1 hn
  obtain ⟨w, hr⟩ := (hbytes { s with sp := s.sp + 1 }).1 hinside
  have hout : ¬InStack (s.sp + 1) := fun hin => by
    have hlow := hin.1
    omega
  have hwrite : (read >>= fun word => setStackAt (s.sp + 1) word >>= fun _ =>
      charge gasTable.stepGas2 >>= fun _ => (pure 0 : VmM Int)) { s with sp := s.sp + 1 }
      = .error (.stack (s.sp + 1)) ({ s with sp := s.sp + 1 }.advance n) := by
    rw [bind_ok hr]
    exact bind_error (setStackAt_fault w hout) _
  rw [hread]
  unfold pushImmediate
  rw [get_bind, if_neg (by omega)]
  exact ⟨_, hwrite⟩

end

/-! ## The word on top -/

/-- Exchanging the middle limbs keeps the value exactly when they are equal. -/
theorem pushWord_val_iff {v : Nat} (h : v < 2 ^ 256) :
    (pushWord v).val = v ↔ limb v 1 = limb v 2 := by
  refine ⟨?_, ?_⟩
  · intro heq
    have hword : pushWord v = ⟨⟨limb v 3, limb v 2⟩, ⟨limb v 1, limb v 0⟩⟩ :=
      Uint256.val_inj (heq.trans (val_of_limbs h).symm)
    exact congrArg (fun w : Uint256 => w.upper.lower) hword
  · intro heq
    have hword : pushWord v = ⟨⟨limb v 3, limb v 2⟩, ⟨limb v 1, limb v 0⟩⟩ := by
      unfold pushWord elementsWord
      rw [heq]
    rw [hword]
    exact val_of_limbs h

/-- An immediate left-padded with zeros to 32 bytes. -/
def leftPad (f : Nat → UInt8) (n i : Nat) : UInt8 := if i < 32 - n then 0 else f (i - (32 - n))

theorem beNat_leftPad (f : Nat → UInt8) {n : Nat} (hn : n ≤ 32) :
    beNat (leftPad f n) 32 = beNat f n := by
  have hzeros : ∀ i, i < 32 - n → leftPad f n i = 0 := fun i hi => if_pos hi
  have hrest : (fun i => leftPad f n (32 - n + i)) = f := by
    funext i
    unfold leftPad
    rw [if_neg (by omega), Nat.add_sub_cancel_left]
  have hcut := beNat_zeros hzeros n
  rw [hrest, Nat.sub_add_cancel hn] at hcut
  exact hcut

/-- The byte of `PUSHn`. -/
def pushByte (n : Nat) : UInt8 := UInt8.ofNat (0x5f + n)

theorem ofByte_pushByte {n : Nat} (h1 : 1 ≤ n) (hn : n ≤ 32) :
    OpCode.ofByte (pushByte n) = .push ⟨n - 1, by omega⟩ := by
  have hnat : (pushByte n).toNat = 0x5f + n := by
    unfold pushByte
    rw [UInt8.toNat_ofNat']
    omega
  unfold OpCode.ofByte
  rw [dif_pos (by omega)]
  congr 2
  omega

theorem decode_pushByte {n : Nat} (h1 : 1 ≤ n) (hn : n ≤ 32) (c : Code) :
    decodeInstruction (pushByte n) c = opPush c n := by
  unfold decodeInstruction
  rw [ofByte_pushByte h1 hn]
  show opPush c (n - 1 + 1) = opPush c n
  rw [Nat.sub_add_cancel h1]

/-- `PUSHn` took the machine from `s` to `s'` as the EVM would. -/
structure PushMeets (n : Nat) (c : Code) (s s' : Vm) : Prop where
  sp : s'.sp = s.sp + 1
  pc : s'.pc.toNat = s.pc.toNat + n
  val : (s'.slot s'.sp).val = beNat (c.immediate s.pc) n
  word : s'.slot s'.sp = readu256BE (leftPad (c.immediate s.pc) n)

/-- **`PUSHn` pushes its immediate exactly when the limbs of weight `2^64` and
`2^128` of the immediate are equal**, as they are when both are zero. -/
theorem pushMeets_iff (n : Nat) (h1 : 1 ≤ n) (hn : n ≤ 32) (c : Code) (s s' : Vm)
    (hrun : decodeInstruction (pushByte n) c s = .ok 0 s') (hpc : s.pc.toNat + n < c.size) :
    PushMeets n c s s' ↔
      limb (beNat (c.immediate s.pc) n) 1 = limb (beNat (c.immediate s.pc) n) 2 := by
  rw [decode_pushByte h1 hn] at hrun
  obtain ⟨hsp, hlow⟩ : s.sp + n < stackSpace ∧ -1 ≤ s.sp := by
    rcases opPush_cases h1 hn hrun with ⟨habs, -⟩ | ⟨-, hsp, hlow, -⟩
    · cases habs
    · exact ⟨hsp, hlow⟩
  rw [opPush_ok h1 hn hpc hsp hlow] at hrun
  obtain rfl : s.afterPush n (pushWord (beNat (c.immediate s.pc) n)) = s' := by
    cases hrun
    rfl
  have htop : (s.afterPush n (pushWord (beNat (c.immediate s.pc) n))).slot (s.sp + 1)
      = pushWord (beNat (c.immediate s.pc) n) :=
    Vm.slot_setSlot_same (s := { s with sp := s.sp + 1 }) _ ⟨by omega, by omega⟩
  have hlt : beNat (c.immediate s.pc) n < 2 ^ 256 :=
    calc beNat (c.immediate s.pc) n < 256 ^ n := beNat_lt _ n
      _ ≤ 256 ^ 32 := Nat.pow_le_pow_right (by omega) hn
      _ = 2 ^ 256 := by norm_num
  rw [← pushWord_val_iff hlt]
  refine ⟨?_, ?_⟩
  · intro hmeets
    have hval := hmeets.val
    rw [hmeets.sp, htop] at hval
    exact hval
  · intro hval
    have hpad : (readu256BE (leftPad (c.immediate s.pc) n)).val = beNat (c.immediate s.pc) n := by
      rw [readu256BE_val, beNat_leftPad _ hn]
    refine ⟨rfl, Vm.advance_pc_toNat (s := s) hpc, ?_, ?_⟩
    · exact (congrArg Uint256.val htop).trans hval
    · exact htop.trans (Uint256.val_inj (hval.trans hpad.symm))

/-- `PUSH1 0x2a`. -/
def pushOne : Code := ⟨[0x60, 0x2a], by decide⟩

theorem pushMeets_pushOne : PushMeets 1 pushOne Vm.zeroed (Vm.zeroed.afterPush 1 (pushWord 0x2a)) :=
  (pushMeets_iff 1 (by decide) (by decide) pushOne Vm.zeroed _
    (opPush_ok (c := pushOne) (s := Vm.zeroed) (n := 1) (by decide) (by decide) (by decide)
      (by decide) (by decide)) (by decide)).mpr (by decide)

/-- `PUSH9` of `2^64`. -/
def pushNine : Code := ⟨[0x68, 1, 0, 0, 0, 0, 0, 0, 0, 0], by decide⟩

/-- `PUSH9` of `2^64` is accepted and pushes `2^128`. -/
theorem pushNine_wrong : ∃ s', decodeInstruction (pushByte 9) pushNine Vm.zeroed = .ok 0 s' ∧
    Vm.zeroed.pc.toNat + 9 < pushNine.size ∧ ¬PushMeets 9 pushNine Vm.zeroed s' := by
  refine ⟨_, opPush_ok (c := pushNine) (s := Vm.zeroed) (n := 9) (by decide) (by decide) (by decide)
    (by decide) (by decide), by decide, ?_⟩
  intro hmeets
  have hval := hmeets.val
  rw [hmeets.sp] at hval
  have htop : (Vm.zeroed.afterPush 9 (pushWord (beNat (pushNine.immediate 0) 9))).slot (0 + 1)
      = pushWord (2 ^ 64) := Vm.slot_setSlot_same (s := { Vm.zeroed with sp := 1 }) _ (by decide)
  have hnat : beNat (pushNine.immediate Vm.zeroed.pc) 9 = 2 ^ 64 := by decide
  rw [hnat] at hval
  have hlimb := (pushWord_val_iff (by norm_num : 2 ^ 64 < 2 ^ 256)).mp ((congrArg _ htop).symm.trans hval)
  revert hlimb
  decide

end TinyEvm
