import TinyEvm.Vm.Arithmetic
import TinyEvm.Vm.MemBounds
import TinyEvm.Vm.Push

/-!
# The opcodes that copy into memory

`Copies` is what a copy is: the bytes of a source arrive in order, and the rest of memory
stays. For operands in range, where the checks of the source pass and narrowing to 64 bits
changes nothing, this file says when the two copying opcodes do it.

* `CALLDATACOPY` copies from `s_contract`, not from the message. It is a copy of the call
  data only where the code happens to have the same bytes.
* `CODECOPY` has two paths. From 100 bytes on it is one `memcpy`, and right. Below, each
  round packs 32 bytes of code into four limbs and stores all four to the same eight bytes
  of memory, in the reverse byte order; the address does not move between rounds. What is
  left are the last eight bytes the loop read, backwards (`codecopyLoop_ok`).
-/

namespace TinyEvm

open Lib.BigEndian Lib.Buffer Lib.Exec

/-- The opcode copies `src 0, …, src (len - 1)` to `MEM[dest ..]` and changes no other byte
of memory. -/
def Copies (b : UInt8) (sContract : Code) (s : Vm) (dest len : Nat) (src : Nat → UInt8) : Prop :=
  ∃ s', decodeInstruction b sContract s = .ok 0 s' ∧
    (∀ i, i < len → peek s'.mem 0 (dest + i) = src i) ∧
    ∀ j, j < dest ∨ dest + len ≤ j → peek s'.mem 0 j = peek s.mem 0 j

theorem copies_iff_of_run {b : UInt8} {sContract : Code} {s s' : Vm} {dest len : Nat}
    {src : Nat → UInt8} (hrun : decodeInstruction b sContract s = .ok 0 s') :
    Copies b sContract s dest len src ↔
      (∀ i, i < len → peek s'.mem 0 (dest + i) = src i) ∧
      ∀ j, j < dest ∨ dest + len ≤ j → peek s'.mem 0 j = peek s.mem 0 j := by
  refine ⟨?_, fun h => ⟨s', hrun, h⟩⟩
  intro hcopies
  obtain ⟨s'', hrun', hbytes⟩ := hcopies
  rw [hrun] at hrun'
  cases hrun'
  exact hbytes

theorem not_copies_of_error {b : UInt8} {sContract : Code} {s s' : Vm} {e : Fault} {dest len : Nat}
    {src : Nat → UInt8} (hrun : decodeInstruction b sContract s = .error e s') :
    ¬Copies b sContract s dest len src := by
  intro hcopies
  obtain ⟨s'', hrun', -⟩ := hcopies
  rw [hrun] at hrun'
  cases hrun'

/-- A run that copies `f` to the right place copies `src` if the two are the same bytes. -/
theorem copies_blit_iff {b : UInt8} {sContract : Code} {s s' : Vm} {dest len : Nat}
    {f src : Nat → UInt8} (hrun : decodeInstruction b sContract s = .ok 0 s')
    (hmem : s'.mem = blit s.mem dest len f) (hfits : dest + len ≤ memorySpace) :
    Copies b sContract s dest len src ↔ ∀ i, i < len → f i = src i := by
  have hin : ∀ i, i < len → peek s'.mem 0 (dest + i) = f i := by
    intro i hi
    rw [hmem, peek_blit_of_mem _ _ _ hfits (Nat.le_add_right _ _) (by omega), Nat.add_sub_cancel_left]
  have hout : ∀ j, j < dest ∨ dest + len ≤ j → peek s'.mem 0 j = peek s.mem 0 j := by
    intro j hj
    rw [hmem, peek_blit_of_not_mem _ _ _ hj]
  rw [copies_iff_of_run hrun]
  refine ⟨?_, ?_⟩
  · intro h i hi
    rw [← hin i hi]
    exact h.1 i hi
  · intro h
    refine ⟨?_, hout⟩
    intro i hi
    rw [hin i hi]
    exact h i hi

/-! ## The operands -/

/-- Three words on the stack as the copying opcodes read them: destination, offset in the
source, length. The checks of the source let them pass. -/
structure CopyOperands (s : Vm) (dest offset len : Nat) : Prop where
  enough : 3 ≤ s.sp
  inside : s.sp < stackSpace
  dest_eq : (s.slot s.sp).val = dest
  offset_eq : (s.slot (s.sp - 1)).val = offset
  len_eq : (s.slot (s.sp - 2)).val = len
  fits : dest + len ≤ memorySpace

/-- The three pops of a copying opcode. -/
theorem popLowThree_ok {α : Type} {s : Vm} (h1 : 2 ≤ s.sp) (h2 : s.sp < stackSpace)
    (f : UInt64 → UInt64 → UInt64 → VmM α) :
    (do
      let x ← stackPopLow
      let y ← stackPopLow
      let z ← stackPopLow
      f x y z : VmM α) s = f (s.operand 0) (s.operand 1) (s.operand 2) s.popped.popped.popped := by
  have hpop : InStack (s.sp - 1) := ⟨by omega, by omega⟩
  have hpop' : InStack (s.sp - 1 - 1) := ⟨by omega, by omega⟩
  rw [bind_ok (stackPopLow_ok ⟨by omega, h2⟩), bind_ok (stackPopLow_ok (s := s.popped) hpop),
    bind_ok (stackPopLow_ok (s := s.popped.popped) hpop'), operand_zero, operand_one, operand_two]

/-- In range nothing is lost when the operands are narrowed. -/
theorem CopyOperands.narrow {s : Vm} {dest offset len : Nat} (h : CopyOperands s dest offset len)
    (hoff : offset < 2 ^ 32) :
    (s.operand 0).toNat = dest ∧ (s.operand 1).toNat = offset ∧ (s.operand 2).toNat = len ∧
      sizeT (s.operand 2) = len := by
  have hfits : dest + len ≤ 8089 := h.fits
  have hlow : ∀ (k : Nat) (n : Nat), (s.slot (s.sp - k)).val = n → n < 2 ^ 32 →
      (s.operand k).toNat = n := by
    intro k n hn hlt
    unfold Vm.operand
    rw [Uint256.lowest_toNat, hn]
    omega
  have hdest := h.dest_eq
  rw [show s.sp = s.sp - ((0 : Nat) : Int) by omega] at hdest
  have hlen := hlow 2 len h.len_eq (by omega)
  exact ⟨hlow 0 dest hdest (by omega), hlow 1 offset h.offset_eq hoff, hlen,
    sizeT_of_lt hlen (by omega)⟩

/-! ## `CALLDATACOPY` -/

section

variable {c : Code} {s : Vm} {dest offset len : Nat}

/-- Operands in range pass both bound checks, and the code is copied. -/
theorem calldatacopy_eq (h : CopyOperands s dest offset len) (hdata : offset + len ≤ messageDataSize) :
    decodeInstruction 0x37 c s = (codeBlock c offset len >>= fun bytes =>
      setMemBlock dest len bytes >>= fun _ => do
        modify fun s =>
          { s with maxMemOffset := max s.maxMemOffset (dest + len) }
        charge gasTable.stepGas2
        return 0) s.popped.popped.popped := by
  have henough := h.enough
  have hspace : dest + len ≤ 8089 := h.fits
  have hsource : offset + len ≤ 9 := hdata
  obtain ⟨hd, ho, hl, hcount⟩ := h.narrow (by omega)
  have hmem : (s.operand 0 + s.operand 2).toNat = dest + len := by
    rw [UInt64.toNat_add, hd, hl]
    omega
  have hmessage : (s.operand 1 + s.operand 2).toNat = offset + len := by
    rw [UInt64.toNat_add, ho, hl]
    omega
  show opCalldatacopy c s = _
  unfold opCalldatacopy
  rw [popLowThree_ok (by omega) h.inside, if_neg (by rw [hmem]; exact Nat.not_lt.mpr h.fits),
    if_neg (by rw [hmessage]; exact Nat.not_lt.mpr hdata), hd, ho, hcount, hmem]

/-- With that much code the run ends, and the code is in memory. -/
theorem calldatacopy_ok (h : CopyOperands s dest offset len) (hdata : offset + len ≤ messageDataSize)
    (hcode : Fits c.size offset len) :
    ∃ s', decodeInstruction 0x37 c s = .ok 0 s' ∧
      s'.mem = blit s.mem dest len fun k => c.byte (offset + k) := by
  have hrun := calldatacopy_eq (c := c) h hdata
  rw [bind_ok (codeBlock_inside hcode), bind_ok (setMemBlock_ok _ (Or.inr h.fits)),
    modify_bind] at hrun
  exact ⟨_, hrun, rfl⟩

end

/-- **When `CALLDATACOPY` copies the call data.** Exactly where the code has the same bytes. -/
theorem calldatacopy_iff (sContract : Code) (s : Vm) (dest offset len : Nat)
    (h : CopyOperands s dest offset len) (hdata : offset + len ≤ messageDataSize) :
    Copies 0x37 sContract s dest len (fun i => peek s.message.data 0 (offset + i)) ↔
      len = 0 ∨ offset + len ≤ sContract.size ∧
        ∀ i, i < len → sContract.byte (offset + i) = peek s.message.data 0 (offset + i) := by
  by_cases hcode : Fits sContract.size offset len
  · obtain ⟨s', hrun, hmem⟩ := calldatacopy_ok h hdata hcode
    rw [copies_blit_iff hrun hmem h.fits]
    refine ⟨?_, ?_⟩
    · intro hbytes
      exact hcode.imp_right fun hle => ⟨hle, hbytes⟩
    · intro hright i hi
      rcases hright with hzero | ⟨-, hbytes⟩
      · omega
      · exact hbytes i hi
  · have hrun := calldatacopy_eq (c := sContract) h hdata
    rw [bind_error (codeBlock_outside hcode)] at hrun
    refine iff_of_false (not_copies_of_error hrun) ?_
    intro hright
    exact hcode (hright.imp_right fun hle => hle.1)

/-- A machine with the given words on its stack and call data `1, 2, …, 9`. -/
def called (words : List Uint256) : Vm :=
  { stacked words with
    message := { Vm.zeroed.message with data := fun i => UInt8.ofNat (i + 1), datasize := 9 } }

theorem called_operands (dest offset len : UInt64) (h : dest.toNat + len.toNat ≤ memorySpace) :
    CopyOperands (called [lowWord dest, lowWord offset, lowWord len]) dest.toNat offset.toNat
      len.toNat where
  enough := Int.le_refl 3
  inside := show (3 : Int) < 96 by omega
  dest_eq := (Uint256.val_low _).trans (Uint128.val_low _)
  offset_eq := (Uint256.val_low _).trans (Uint128.val_low _)
  len_eq := (Uint256.val_low _).trans (Uint128.val_low _)
  fits := h

/-- Code that begins with the call data of `called`. -/
theorem calldatacopy_iff_alike :
    Copies 0x37 ⟨[1, 2, 3, 4, 5], by decide⟩ (called [lowWord 0, lowWord 2, lowWord 3]) 0 3
      (fun i => peek (called [lowWord 0, lowWord 2, lowWord 3]).message.data 0 (2 + i)) :=
  (calldatacopy_iff _ (called [lowWord 0, lowWord 2, lowWord 3]) 0 2 3
    (called_operands 0 2 3 (by decide)) (by decide)).mpr (Or.inr ⟨by decide, by decide⟩)

/-- Code of zeros: the first byte of the call data does not arrive, and other code would have
put another byte there. -/
theorem calldatacopy_reads_code :
    ¬Copies 0x37 ⟨[0, 0], by decide⟩ (called [lowWord 0, lowWord 0, lowWord 1]) 0 1
      (fun i => peek (called [lowWord 0, lowWord 0, lowWord 1]).message.data 0 (0 + i)) ∧
    ∃ s₁ s₂,
      decodeInstruction 0x37 ⟨[0, 0], by decide⟩ (called [lowWord 0, lowWord 0, lowWord 1]) = .ok 0 s₁ ∧
      decodeInstruction 0x37 ⟨[7, 7], by decide⟩ (called [lowWord 0, lowWord 0, lowWord 1]) = .ok 0 s₂ ∧
      peek s₁.mem 0 0 ≠ peek s₂.mem 0 0 := by
  have hoperands : CopyOperands (called [lowWord 0, lowWord 0, lowWord 1]) 0 0 1 :=
    called_operands 0 0 1 (by decide)
  obtain ⟨s₁, hrun₁, hmem₁⟩ := calldatacopy_ok (c := ⟨[0, 0], by decide⟩) hoperands (by decide)
    (by decide)
  obtain ⟨s₂, hrun₂, hmem₂⟩ := calldatacopy_ok (c := ⟨[7, 7], by decide⟩) hoperands (by decide)
    (by decide)
  refine ⟨?_, s₁, s₂, hrun₁, hrun₂, ?_⟩
  · rw [copies_blit_iff hrun₁ hmem₁ (by decide)]
    decide
  · rw [hmem₁, hmem₂, peek_blit_of_mem _ _ _ (by decide) (by decide) (by decide),
      peek_blit_of_mem _ _ _ (by decide) (by decide) (by decide)]
    decide

/-! ## The loop of `CODECOPY` -/

theorem add_toNat {x : UInt64} {n : Nat} (h : x.toNat + n < 2 ^ 64) :
    (x + UInt64.ofNat n).toNat = x.toNat + n := by
  rw [UInt64.toNat_add, UInt64.toNat_ofNat']
  omega

/-- `k` bytes of code shifted into an element that has room for them. -/
theorem codeElement_ok {c : Code} {s : Vm} : ∀ (k j : Nat) {offset element : UInt64},
    offset.toNat + k ≤ c.size → element.toNat < 256 ^ j → j + k ≤ 8 →
    ∃ x, codeElement c k offset element s = .ok x s ∧
      x.toNat = element.toNat * 256 ^ k + beNat (fun i => c.byte (offset.toNat + i)) k := by
  intro k
  induction k with
  | zero =>
    intro j offset element _ _ _
    refine ⟨element, rfl, ?_⟩
    rw [Nat.pow_zero, Nat.mul_one, beNat, Nat.add_zero]
  | succ k ih =>
    intro j offset element hsize helt hjk
    have hcode := c.size_lt
    unfold Code.size at hsize
    have hnext : (offset + 1).toNat = offset.toNat + 1 := add_toNat (n := 1) (by omega)
    have hbyte := shl_or_byte_of_lt (c.byte offset.toNat) helt (by omega)
    have hrest : (offset + 1).toNat + k ≤ c.size := by
      rw [hnext]
      unfold Code.size
      omega
    have hgrown : ((element <<< 8) ||| (c.byte offset.toNat).toUInt64).toNat < 256 ^ (j + 1) := by
      have hb := (c.byte offset.toNat).toNat_lt
      rw [hbyte, Nat.pow_succ]
      omega
    obtain ⟨x, hrun, hx⟩ := ih (j + 1) hrest hgrown (by omega)
    refine ⟨x, ?_, ?_⟩
    · rw [codeElement, bind_ok (codeAt_byte (by unfold Code.size; omega) s)]
      exact hrun
    · rw [hx, hbyte, hnext, Nat.add_comm k 1, beNat_add _ 1 k, Nat.pow_add, Nat.pow_one]
      simp only [beNat, Nat.add_zero, Nat.zero_mul, Nat.zero_add, Nat.add_assoc]
      ring

/-- The element of eight bytes is their big-endian number. -/
theorem codeElement_eight {c : Code} (s : Vm) {offset : UInt64} (h : offset.toNat + 8 ≤ c.size) :
    codeElement c 8 offset 0 s = .ok (readUint64BE fun i => c.byte (offset.toNat + i)) s := by
  have hzero : (0 : UInt64).toNat < 256 ^ 0 := by decide
  obtain ⟨x, hrun, hx⟩ := codeElement_ok (s := s) 8 0 h hzero (by omega)
  have hread : x = readUint64BE fun i => c.byte (offset.toNat + i) := by
    apply UInt64.toNat_inj.mp
    rw [hx, readUint64BE_toNat, UInt64.toNat_zero, Nat.zero_mul, Nat.zero_add]
  rw [hrun, hread]

/-- The eight bytes of code at `i` as the loop stores them, the last one first. -/
def codeLimb (c : Code) (i : Nat) : Nat → UInt8 :=
  storeLE64 (readUint64BE fun k => c.byte (i + k))

theorem codeLimb_apply (c : Code) (i : Nat) {k : Nat} (hk : k < 8) :
    codeLimb c i k = c.byte (i + (7 - k)) :=
  storeLE64_readUint64BE _ hk

/-- A round with its 32 bytes inside the code and its eight inside memory: of the four stores
to one place the last is left. -/
theorem codecopyRound_ok {c : Code} {s : Vm} {m rounds : Nat} {len : Int} {offset : UInt64}
    (hlen : 0 < len) (hcode : offset.toNat + 32 ≤ c.size) (hmem : m + 8 ≤ memorySpace) :
    codecopyLoop c m (rounds + 1) len offset s
      = codecopyLoop c m rounds (len - 32) (offset + 32)
          { s with mem := blit s.mem m 8 (codeLimb c (offset.toNat + 24)) } := by
  have hsize := c.size_lt
  unfold Code.size at hcode
  have h8 : (offset + 8).toNat = offset.toNat + 8 := add_toNat (n := 8) (by omega)
  have h16 : (offset + 16).toNat = offset.toNat + 16 := add_toNat (n := 16) (by omega)
  have h24 : (offset + 24).toNat = offset.toNat + 24 := add_toNat (n := 24) (by omega)
  have hin : ∀ {x : UInt64}, x.toNat + 8 ≤ offset.toNat + 32 → x.toNat + 8 ≤ c.size := by
    intro x hx
    unfold Code.size
    omega
  have hstore : ∀ (t : Vm) (x : UInt64), setMemBlock m 8 (storeLE64 x) t
      = .ok () { t with mem := blit t.mem m 8 (storeLE64 x) } :=
    fun t x => setMemBlock_ok _ (Or.inr hmem)
  rw [codecopyLoop, if_pos hlen, bind_ok (codeElement_eight s (hin (by omega))),
    bind_ok (codeElement_eight s (hin (by omega))), bind_ok (codeElement_eight s (hin (by omega))),
    bind_ok (codeElement_eight s (hin (by omega))), bind_ok (hstore _ _), bind_ok (hstore _ _),
    bind_ok (hstore _ _), bind_ok (hstore _ _), h24]
  simp only [blit_blit]
  rfl

/-- **The loop of `CODECOPY`.** After `R` rounds the eight bytes at the destination are the
last eight read, and nothing else has changed. -/
theorem codecopyLoop_ok {c : Code} {m : Nat} : ∀ (R : Nat) {rounds : Nat} {len : Int}
    {offset : UInt64} {s : Vm}, 32 * (R : Int) < len + 32 → len ≤ 32 * R → R ≤ rounds → R ≠ 0 →
    offset.toNat + 32 * R ≤ c.size → m + 8 ≤ memorySpace →
    codecopyLoop c m rounds len offset s
      = .ok () { s with mem := blit s.mem m 8 (codeLimb c (offset.toNat + (32 * R - 8))) } := by
  intro R
  induction R with
  | zero =>
    intro rounds len offset s _ _ _ hne
    exact absurd rfl hne
  | succ R ih =>
    intro rounds len offset s hlow hhigh hrounds _ hcode hmem
    obtain ⟨rounds, rfl⟩ : ∃ n, rounds = n + 1 := ⟨rounds - 1, by omega⟩
    rw [codecopyRound_ok (by omega) (by omega) hmem]
    by_cases hlast : R = 0
    · -- the last round: the length is used up
      subst hlast
      cases rounds with
      | zero => rfl
      | succ rounds =>
        rw [codecopyLoop, if_neg (by omega)]
        rfl
    · have hsize := c.size_lt
      have hnext : (offset + 32).toNat = offset.toNat + 32 := by
        unfold Code.size at hcode
        exact add_toNat (n := 32) (by omega)
      rw [ih (by omega) (by omega) (by omega) hlast (by rw [hnext]; omega) hmem, hnext]
      simp only [blit_blit]
      rw [show offset.toNat + 32 + (32 * R - 8) = offset.toNat + (32 * (R + 1) - 8) by omega]

/-- Where a byte of a round is outside the code, or the eight bytes outside memory, the loop
faults. -/
theorem codecopyLoop_faults {c : Code} {m R rounds : Nat} {len : Int} {offset : UInt64} (s : Vm)
    (hlow : 32 * (R : Int) < len + 32) (hpos : 0 < len) (hrounds : len ≤ rounds)
    (hstart : offset.toNat ≤ c.size) (hout : ¬(offset.toNat + 32 * R ≤ c.size ∧ m + 8 ≤ memorySpace)) :
    ∃ e s', codecopyLoop c m rounds len offset s = .error e s' := by
  have hsize : c.size < 2 ^ 32 := c.size_lt
  by_cases hmem : m + 8 ≤ memorySpace
  · -- the first byte behind the code belongs to one of the rounds
    have hraises := (raises_code_codecopyLoop c m rounds len offset s hrounds).mpr
      ⟨c.size - offset.toNat, by omega, Or.inl hmem, by
        unfold ByteInside
        rw [add_toNat (by omega)]
        omega⟩
    obtain ⟨e, s', hrun, -⟩ := hraises
    exact ⟨e, s', hrun⟩
  · obtain ⟨rounds, rfl⟩ : ∃ n, rounds = n + 1 := ⟨rounds - 1, by omega⟩
    rcases codecopyLoop_cases c m rounds offset s hpos with
      ⟨-, hfits, -⟩ | ⟨-, -, hrun⟩ | ⟨-, i, hrun⟩
    · exact absurd hfits hmem
    · exact ⟨_, _, hrun⟩
    · exact ⟨_, _, hrun⟩

/-! ## `CODECOPY` -/

/-- The short copies that come out right by accident. With `R` rounds, all `32 * R` bytes are
inside the code and the eight written inside memory; these eight are the last read, in
reverse, so they have to be the ones asked for, or what was there before from `len` on; the
rest of the destination already holds the bytes. -/
def ShortRight (c : Code) (mem : Nat → UInt8) (dest offset len : Nat) : Prop :=
  offset + 32 * ((len + 31) / 32) ≤ c.size ∧ dest + 8 ≤ memorySpace ∧
  (∀ k, k < 8 → c.byte (offset + (32 * ((len + 31) / 32) - 8) + (7 - k))
    = if k < len then c.byte (offset + k) else mem (dest + k)) ∧
  ∀ k, 8 ≤ k → k < len → mem (dest + k) = c.byte (offset + k)

section

variable {c : Code} {s : Vm} {dest offset len : Nat}

theorem copies_limb_iff {s' : Vm} {f : Nat → UInt8} (hrun : decodeInstruction 0x39 c s = .ok 0 s')
    (hmem : s'.mem = blit s.mem dest 8 f) (hspace : dest + 8 ≤ memorySpace) :
    Copies 0x39 c s dest len (fun i => c.byte (offset + i)) ↔
      (∀ k, k < 8 → f k = if k < len then c.byte (offset + k) else peek s.mem 0 (dest + k)) ∧
      ∀ k, 8 ≤ k → k < len → peek s.mem 0 (dest + k) = c.byte (offset + k) := by
  have hin : ∀ k, k < 8 → peek s'.mem 0 (dest + k) = f k := by
    intro k hk
    rw [hmem, peek_blit_of_mem _ _ _ hspace (Nat.le_add_right _ _) (by omega),
      Nat.add_sub_cancel_left]
  have hout : ∀ j, j < dest ∨ dest + 8 ≤ j → peek s'.mem 0 j = peek s.mem 0 j := by
    intro j hj
    rw [hmem, peek_blit_of_not_mem _ _ _ hj]
  rw [copies_iff_of_run hrun]
  refine ⟨?_, ?_⟩
  · intro h
    refine ⟨?_, ?_⟩
    · intro k hk
      rw [← hin k hk]
      split
      next hlt => exact h.1 k hlt
      next hge => exact h.2 (dest + k) (by omega)
    · intro k hge hlt
      rw [← hout (dest + k) (by omega)]
      exact h.1 k hlt
  · intro h
    refine ⟨?_, ?_⟩
    · intro k hlt
      by_cases hk : k < 8
      · rw [hin k hk, h.1 k hk, if_pos hlt]
      · rw [hout (dest + k) (by omega)]
        exact h.2 k (by omega) hlt
    · intro j hj
      by_cases hk : dest ≤ j ∧ j < dest + 8
      · have hbyte := h.1 (j - dest) (by omega)
        have hback := hin (j - dest) (by omega)
        rw [show dest + (j - dest) = j by omega] at hbyte hback
        rw [hback, hbyte, if_neg (by omega)]
      · exact hout j (by omega)

/-- Operands in range are not rejected; below 100 bytes the loop runs. -/
theorem codecopy_short_eq (h : CopyOperands s dest offset len) (hoff : offset < 2 ^ 32)
    (hshort : len < 100) :
    ∃ t : Vm, t.mem = s.mem ∧ decodeInstruction 0x39 c s
      = (codecopyLoop c dest len len (s.operand 1) >>= fun _ => do
          charge gasTable.stepGas2
          return 0) t := by
  have henough := h.enough
  have hspace : dest + len ≤ memorySpace := h.fits
  obtain ⟨hd, -, hl, -⟩ := h.narrow hoff
  have hlt : s.operand 2 < 100 := by
    rw [UInt64.lt_iff_toNat_lt, hl]
    exact hshort
  refine ⟨{ s.popped.popped.popped with
    maxMemOffset := max s.maxMemOffset (s.operand 0 + s.operand 2).toNat }, rfl, ?_⟩
  show opCodecopy c s = _
  unfold opCodecopy
  rw [popLowThree_ok (by omega) h.inside, if_neg (by omega), if_pos hlt, modify_bind, hd, hl]
  rfl

theorem codecopy_zero (h : CopyOperands s dest offset len) (hoff : offset < 2 ^ 32) (hzero : len = 0) :
    Copies 0x39 c s dest len (fun i => c.byte (offset + i)) := by
  subst hzero
  obtain ⟨t, hmem, hrun⟩ := codecopy_short_eq (c := c) h hoff (by omega)
  refine ⟨_, hrun, ?_, ?_⟩
  · intro i hi
    omega
  · intro j _
    exact congrArg (fun m => peek m 0 j) hmem

theorem codecopy_short_iff (h : CopyOperands s dest offset len) (hcode : offset + len ≤ c.size)
    (hpos : len ≠ 0) (hshort : len < 100) :
    Copies 0x39 c s dest len (fun i => c.byte (offset + i)) ↔
      ShortRight c (peek s.mem 0) dest offset len := by
  have hsize : c.size < 2 ^ 32 := c.size_lt
  obtain ⟨-, ho, -, -⟩ := h.narrow (by omega)
  obtain ⟨t, hmem, hrun⟩ := codecopy_short_eq (c := c) h (by omega) hshort
  unfold ShortRight
  by_cases hin : offset + 32 * ((len + 31) / 32) ≤ c.size ∧ dest + 8 ≤ memorySpace
  · have hloop : codecopyLoop c dest len len (s.operand 1) t = _ :=
      codecopyLoop_ok ((len + 31) / 32) (by omega) (by omega) (by omega) (by omega)
        (by rw [ho]; exact hin.1) hin.2
    rw [bind_ok hloop, ho] at hrun
    rw [copies_limb_iff hrun (congrArg (blit · dest 8 _) hmem) hin.2]
    have hlimb : ∀ k, k < 8 → codeLimb c (offset + (32 * ((len + 31) / 32) - 8)) k
        = c.byte (offset + (32 * ((len + 31) / 32) - 8) + (7 - k)) :=
      fun k hk => codeLimb_apply c _ hk
    refine ⟨?_, ?_⟩
    · intro hbytes
      refine ⟨hin.1, hin.2, ?_, hbytes.2⟩
      intro k hk
      rw [← hlimb k hk]
      exact hbytes.1 k hk
    · intro hright
      refine ⟨?_, hright.2.2.2⟩
      intro k hk
      rw [hlimb k hk]
      exact hright.2.2.1 k hk
  · have hfault : ∃ e s', codecopyLoop c dest len len (s.operand 1) t = .error e s' :=
      codecopyLoop_faults (R := (len + 31) / 32) t (by omega) (by omega) (by omega) (by omega)
        (by rw [ho]; exact hin)
    obtain ⟨e, s', hfault⟩ := hfault
    rw [bind_error hfault] at hrun
    refine iff_of_false (not_copies_of_error hrun) ?_
    intro hright
    exact hin ⟨hright.1, hright.2.1⟩

/-- From 100 bytes on `CODECOPY` is one `memcpy`. -/
theorem codecopy_memcpy (h1 : 2 ≤ s.sp) (h2 : s.sp < stackSpace) (hd : (s.operand 0).toNat = dest)
    (ho : (s.operand 1).toNat = offset) (hl : (s.operand 2).toNat = len) (hlong : 100 ≤ len)
    (hfits : dest + len ≤ memorySpace) (hcode : offset + len ≤ c.size) :
    decodeInstruction 0x39 c s = .ok 0 { s.popped.popped.popped with
      mem := blit s.mem dest len fun k => c.byte (offset + k)
      gasCharge := s.gasCharge + gasTable.stepGas2 } := by
  have hspace : dest + len ≤ 8089 := hfits
  have hcount : sizeT (s.operand 2) = len := sizeT_of_lt hl (by omega)
  have hge : ¬s.operand 2 < 100 := by
    rw [UInt64.lt_iff_toNat_lt, hl]
    exact Nat.not_lt.mpr hlong
  show opCodecopy c s = _
  unfold opCodecopy
  rw [popLowThree_ok h1 h2, if_neg (by omega), if_neg hge, hd, ho, hcount,
    bind_ok (codeBlock_inside (Or.inr hcode)), bind_ok (setMemBlock_ok _ (Or.inr hfits))]
  rfl

theorem codecopy_long (h : CopyOperands s dest offset len) (hcode : offset + len ≤ c.size)
    (hlong : 100 ≤ len) : Copies 0x39 c s dest len (fun i => c.byte (offset + i)) := by
  have henough := h.enough
  have hsize : c.size < 2 ^ 32 := c.size_lt
  obtain ⟨hd, ho, hl, -⟩ := h.narrow (by omega)
  have hrun := codecopy_memcpy (by omega) h.inside hd ho hl hlong h.fits hcode
  exact (copies_blit_iff hrun rfl h.fits).mpr fun _ _ => rfl

end

/-- **When `CODECOPY` copies.** Always from 100 bytes on, for the length zero, and below by
accident only. -/
theorem codecopy_iff (sContract : Code) (s : Vm) (dest offset len : Nat)
    (h : CopyOperands s dest offset len) (hcode : offset + len ≤ sContract.size) :
    Copies 0x39 sContract s dest len (fun i => sContract.byte (offset + i)) ↔
      len = 0 ∨ 100 ≤ len ∨ ShortRight sContract (peek s.mem 0) dest offset len := by
  have hsize : sContract.size < 2 ^ 32 := sContract.size_lt
  by_cases hzero : len = 0
  · exact iff_of_true (codecopy_zero h (by omega) hzero) (Or.inl hzero)
  by_cases hlong : 100 ≤ len
  · exact iff_of_true (codecopy_long h hcode hlong) (Or.inr (Or.inl hlong))
  · rw [or_iff_right hzero, or_iff_right hlong]
    exact codecopy_short_iff h hcode hzero (by omega)

/-- A copy of 100 bytes. -/
theorem codecopy_iff_hundred :
    Copies 0x39 ⟨List.replicate 100 7, by decide⟩ (called [lowWord 0, lowWord 0, lowWord 100]) 0 100
      (fun i => Code.byte ⟨List.replicate 100 7, by decide⟩ (0 + i)) :=
  (codecopy_iff ⟨List.replicate 100 7, by decide⟩ (called [lowWord 0, lowWord 0, lowWord 100]) 0 0 100
    (called_operands 0 0 100 (by decide)) (by decide)).mpr (Or.inr (Or.inl (by decide)))

/-- The code of a 32-byte constructor argument of value one. -/
def argumentOne : Code := ⟨List.replicate 31 0 ++ [1], by decide⟩

/-- Copied to memory, its last byte arrives first. -/
theorem codecopy_argument_fails :
    ¬Copies 0x39 argumentOne (called [lowWord 0, lowWord 0, lowWord 32]) 0 32
      (fun i => argumentOne.byte (0 + i)) := by
  have hoperands : CopyOperands (called [lowWord 0, lowWord 0, lowWord 32]) 0 0 32 :=
    called_operands 0 0 32 (by decide)
  rw [codecopy_short_iff hoperands (by decide) (by decide) (by decide)]
  intro hright
  exact absurd (hright.2.2.1 0 (by decide)) (by decide)

end TinyEvm
