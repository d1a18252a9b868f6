import TinyEvm.Lib.Replay
import TinyEvm.Vm.Stack
import TinyEvm.Vm.WordBytes

/-!
# Memory as a sequence of stores and loads

The reference is a memory of bytes in which a word occupies 32 addresses, most
significant byte first. The interpreter copies words as structs, so its memory
is another one: the same writes replayed over the same addresses, with the bytes
of every limb in reverse (`storeWord_mirror`), read back in reverse as well
(`loadWord_val`). Each `Access` is one of the three memory instructions with an
offset that is in range; `performAll` runs a list of them on the machine, and
`performAll_ok` shows that what it loads is the native replay, whatever the
program.

The two memories agree on a load exactly when the bytes it reads come in whole
limbs: every byte of the loaded range is untouched, or was last written by an
`MSTORE` whose offset differs from the load's by a multiple of eight
(`LoadsSafe`). An `MSTORE8`, or a word at any other distance, is read back from
the wrong address.
-/

namespace TinyEvm

open Lib.BigEndian Lib.Buffer Lib.Exec Lib.Replay

/-! ## Accesses -/

inductive MemOp where
  | mstore
  | mstore8
  | mload
deriving DecidableEq, Repr

/-- The bytes of memory an instruction touches at its offset. -/
def MemOp.width : MemOp → Nat
  | mstore8 => 1
  | _ => 32

/-- A memory instruction and its offset, inside `MEM`. -/
structure Access where
  op : MemOp
  offset : Nat
  inRange : offset + op.width ≤ memorySpace
deriving DecidableEq

/-- The addresses an access writes. -/
def Access.covers (a : Access) (j : Nat) : Bool :=
  a.op ≠ .mload && a.offset ≤ j && j < a.offset + a.op.width

/-- The operand that names the offset. -/
def Access.offsetWord (a : Access) : Uint256 := lowWord (UInt64.ofNat a.offset)

theorem Access.covers_iff {a : Access} {j : Nat} :
    a.covers j = true ↔ a.op ≠ .mload ∧ a.offset ≤ j ∧ j < a.offset + a.op.width := by
  unfold covers
  simp [and_assoc]

/-! ## The two memories -/

/-- What an access with operand `w` leaves at address `j` of a big-endian memory. -/
def evmByte (x : Access × Uint256) (j : Nat) : UInt8 :=
  match x.1.op with
  | .mstore8 => UInt8.ofNat x.2.val
  | _ => beByte x.2 (j - x.1.offset)

/-- What it leaves there when the word is copied as a struct. -/
def nativeByte (x : Access × Uint256) (j : Nat) : UInt8 :=
  match x.1.op with
  | .mstore8 => x.2.lower.lower.toUInt8
  | _ => storeWord x.2 (j - x.1.offset)

/-- The big-endian memory after a sequence of accesses, from all zeros. -/
def evmMem (q : List (Access × Uint256)) : Nat → UInt8 :=
  replay (fun x => x.1.covers) evmByte (fun _ => 0) q

/-- The memory of the interpreter after the same sequence. -/
def nativeMem (q : List (Access × Uint256)) : Nat → UInt8 :=
  replay (fun x => x.1.covers) nativeByte (fun _ => 0) q

/-- The values a sequence of accesses loads, starting from memory `m`, when `byte`
says how words are written and `read` how 32 bytes are read. -/
def loadsWith (byte : Access × Uint256 → Nat → UInt8) (read : (Nat → UInt8) → Nat) :
    (Nat → UInt8) → List (Access × Uint256) → List Nat
  | _, [] => []
  | m, x :: p =>
    (if x.1.op = .mload then [read fun k => m (x.1.offset + k)] else [])
      ++ loadsWith byte read (overwrite (fun x => x.1.covers) byte m x) p

/-- What the loads of a big-endian memory yield, from all zeros. -/
def evmLoads (p : List (Access × Uint256)) : List Nat :=
  loadsWith evmByte (fun bytes => beNat bytes 32) (fun _ => 0) p

/-! ## The machine -/

/-- Put the operands of an access on the stack, decode its opcode, and take what
`MLOAD` pushed off again. -/
def Access.perform (c : Code) (a : Access) (w : Uint256) : VmM (Int × List Uint256) :=
  match a.op with
  | .mstore => do
    stackPush w
    stackPush a.offsetWord
    let status ← decodeInstruction 0x52 c
    return (status, [])
  | .mstore8 => do
    stackPush w
    stackPush a.offsetWord
    let status ← decodeInstruction 0x53 c
    return (status, [])
  | .mload => do
    stackPush a.offsetWord
    let status ← decodeInstruction 0x51 c
    let loaded ← stackPop
    return (status, [loaded])

/-- A sequence of accesses; the words its loads pushed. A negative status ends
it. -/
def performAll (c : Code) : List (Access × Uint256) → VmM (List Uint256)
  | [] => return []
  | x :: p => do
    let (status, loaded) ← x.1.perform c x.2
    if status < 0 then return loaded
    else
      let rest ← performAll c p
      return loaded ++ rest

/-- **Memory refinement**: the sequence runs, and its loads push the words of the
big-endian memory. -/
def MemoryMeets (c : Code) (p : List (Access × Uint256)) (s : Vm) : Prop :=
  ∃ loads s', performAll c p s = .ok loads s' ∧ loads.map Uint256.val = evmLoads p

/-- A machine with all-zero memory and room for two operands. -/
structure MemStart (s : Vm) : Prop where
  zero : ∀ j, s.mem j = 0
  sp_nonneg : 0 ≤ s.sp
  room : s.sp ≤ 93

theorem memStart_zeroed : MemStart Vm.zeroed := ⟨fun _ => rfl, Int.le_refl 0, by decide⟩

theorem MemStart.peek_mem {s : Vm} (hs : MemStart s) : peek s.mem 0 = fun _ => 0 := by
  funext j
  unfold peek
  split
  · exact hs.zero _
  · rfl

/-! ## The machine replays the accesses -/

theorem memBlock_ok {s : Vm} {off len : Nat} (h : Fits memorySpace off len) :
    memBlock off len s = .ok (fun k => peek s.mem 0 (off + k)) s := by
  unfold memBlock
  rw [get_bind, if_pos h]
  rfl

theorem setMemBlock_ok {s : Vm} {off len : Nat} (bytes : Nat → UInt8)
    (h : Fits memorySpace off len) :
    setMemBlock off len bytes s = .ok () { s with mem := blit s.mem off len bytes } := by
  unfold setMemBlock
  rw [if_pos h]
  rfl

theorem sizeT_of_lt {length : UInt64} {n : Nat} (h : length.toNat = n) (hn : n < 2 ^ 32) :
    sizeT length = n := by
  unfold sizeT
  rw [UInt64.toNat_toUInt32, h]
  exact Nat.mod_eq_of_lt hn

theorem opMload_ok {s : Vm} {o : Nat} (h : InStack s.sp)
    (ho : (s.slot s.sp).lower.lower.toNat = o) (hr : o + 32 ≤ memorySpace) :
    opMload s = .ok 0 { s.popped.pushed (loadWord fun k => peek s.mem 0 (o + k)) with
      gasCharge := s.gasCharge + gasTable.stepGas3 } := by
  subst ho
  unfold opMload
  rw [bind_ok (stackPopLow_ok h)]
  simp only
  rw [if_neg (by omega), bind_ok (memBlock_ok (Or.inr hr)),
    bind_ok (stackPush_ok _ (Vm.room_popped h))]
  rfl

theorem opMstore_ok {s : Vm} {o : Nat} (h : InStack s.sp) (h' : InStack (s.sp - 1))
    (ho : (s.slot s.sp).lower.lower.toNat = o) (hr : o + 32 ≤ memorySpace) :
    opMstore s = .ok 0 { s.popped.popped with
      mem := blit s.mem o 32 (storeWord (s.slot (s.sp - 1)))
      maxMemOffset := if 32 > s.maxMemOffset then o + 32 else s.maxMemOffset
      gasCharge := s.gasCharge + gasTable.stepGas3 } := by
  subst ho
  unfold opMstore
  rw [bind_ok (stackPopLow_ok h)]
  simp only
  rw [bind_ok (stackPop_ok (s := s.popped) h'), if_neg (by omega), bind_ok (setMemBlock_ok _ (Or.inr hr))]
  rfl

theorem opMstore8_ok {s : Vm} {o : Nat} (h : InStack s.sp) (h' : InStack (s.sp - 1))
    (ho : (s.slot s.sp).lower.lower.toNat = o) (hr : o + 1 ≤ memorySpace) :
    opMstore8 s = .ok 0 { s.popped.popped with
      mem := blit s.mem o 1 fun _ => (s.slot (s.sp - 1)).lower.lower.toUInt8
      gasCharge := s.gasCharge + gasTable.stepGas3 } := by
  subst ho
  unfold opMstore8
  rw [bind_ok (stackPopLow_ok h)]
  simp only
  rw [bind_ok (stackPopLow_ok (s := s.popped) h'), if_neg (by omega), bind_ok (setMemBlock_ok _ (Or.inr hr))]
  rfl

/-- What was pushed is popped again, whatever was charged in between. -/
theorem stackPop_pushed {s : Vm} (w : Uint256) (gas : UInt32) (h : InStack (s.sp + 1)) :
    stackPop { s.pushed w with gasCharge := gas }
      = .ok w { s.pushed w with gasCharge := gas }.popped := by
  have hslot : Vm.slot { s.pushed w with gasCharge := gas } (s.sp + 1) = w :=
    Vm.slot_pushed_same w h rfl
  exact (stackPop_ok (s := { s.pushed w with gasCharge := gas }) h).trans
    (congrArg (fun v => EStateM.Result.ok v _) hslot)

/-- A block copied into memory, read back at any address. -/
theorem peek_blit (m : Fin memorySpace → UInt8) {off len : Nat} (f : Nat → UInt8)
    (h : off + len ≤ memorySpace) (j : Nat) :
    peek (blit m off len f) 0 j = if off ≤ j ∧ j < off + len then f (j - off) else peek m 0 j := by
  split
  next hj => exact peek_blit_of_mem m 0 f h hj.1 hj.2
  next hj => exact peek_blit_of_not_mem m 0 f (by omega)

/-- Two operands on the stack: where they are. -/
theorem operands {s : Vm} (w o : Uint256) (h0 : 0 ≤ s.sp) (h : s.sp ≤ 93) :
    InStack ((s.pushed w).pushed o).sp ∧ InStack (((s.pushed w).pushed o).sp - 1) ∧
      ((s.pushed w).pushed o).slot ((s.pushed w).pushed o).sp = o ∧
      ((s.pushed w).pushed o).slot (((s.pushed w).pushed o).sp - 1) = w := by
  simp only [Vm.sp_pushed]
  refine ⟨inStack_of_le (by omega) (by omega), inStack_of_le (by omega) (by omega), ?_, ?_⟩
  · exact Vm.slot_pushed_same o (inStack_of_le (by omega) (by omega)) rfl
  · rw [Vm.slot_pushed_ne o (by rw [Vm.sp_pushed]; omega)]
    exact Vm.slot_pushed_same w (inStack_of_le (by omega) (by omega)) (by omega)

theorem Access.offset_lt (a : Access) : a.offset < 2 ^ 64 := by
  have h := a.inRange
  have hmem : memorySpace = 8089 := rfl
  omega

theorem Access.offsetWord_low (a : Access) : a.offsetWord.lower.lower.toNat = a.offset := by
  show (UInt64.ofNat a.offset).toNat = _
  rw [UInt64.toNat_ofNat', Nat.mod_eq_of_lt a.offset_lt]

/-- What an access loads on the machine. -/
def Access.loaded (a : Access) (m : Nat → UInt8) : List Uint256 :=
  if a.op = .mload then [loadWord fun k => m (a.offset + k)] else []

/-- A store overwrites the block at its offset. -/
theorem overwrite_store {a : Access} (hop : a.op ≠ .mload) (w : Uint256) (m : Nat → UInt8) (j : Nat) :
    overwrite (fun x => x.1.covers) nativeByte m (a, w) j
      = if a.offset ≤ j ∧ j < a.offset + a.op.width then nativeByte (a, w) j else m j := by
  unfold overwrite
  refine if_congr ?_ rfl rfl
  rw [Access.covers_iff]
  exact ⟨fun h => h.2, fun h => ⟨hop, h⟩⟩

/-- **One access.** It is never refused, it leaves the stack as deep as it was,
and memory is overwritten at the addresses it covers. -/
theorem perform_ok {c : Code} {s : Vm} (a : Access) (w : Uint256) (h0 : 0 ≤ s.sp) (h : s.sp ≤ 93) :
    ∃ s', a.perform c w s = .ok (0, a.loaded (peek s.mem 0)) s' ∧ s'.sp = s.sp ∧
      peek s'.mem 0 = overwrite (fun x => x.1.covers) nativeByte (peek s.mem 0) (a, w) := by
  obtain ⟨htop, hsecond, hoff, hword⟩ := operands (s := s) w a.offsetWord h0 h
  have hlow := a.offsetWord_low
  have hr := a.inRange
  unfold Access.perform Access.loaded
  cases hop : a.op with
  | mstore =>
    rw [hop] at hr
    have hrun : decodeInstruction 0x52 c ((s.pushed w).pushed a.offsetWord) = _ :=
      opMstore_ok htop hsecond (by rw [hoff, hlow]) hr
    rw [hword] at hrun
    refine ⟨_, (pushTwo_ok w a.offsetWord h0 h _).trans (bind_ok hrun _), ?_, ?_⟩
    · show s.sp + 1 + 1 - 1 - 1 = s.sp
      omega
    · funext j
      rw [overwrite_store (by rw [hop]; exact nofun), nativeByte, hop]
      exact peek_blit _ _ hr j
  | mstore8 =>
    rw [hop] at hr
    have hrun : decodeInstruction 0x53 c ((s.pushed w).pushed a.offsetWord) = _ :=
      opMstore8_ok htop hsecond (by rw [hoff, hlow]) hr
    rw [hword] at hrun
    refine ⟨_, (pushTwo_ok w a.offsetWord h0 h _).trans (bind_ok hrun _), ?_, ?_⟩
    · show s.sp + 1 + 1 - 1 - 1 = s.sp
      omega
    · funext j
      rw [overwrite_store (by rw [hop]; exact nofun), nativeByte, hop]
      exact peek_blit _ (fun _ => w.lower.lower.toUInt8) hr j
  | mload =>
    rw [hop] at hr
    have hin1 : InStack (s.sp + 1) := inStack_of_le (by omega) (by omega)
    have hslot : (s.pushed a.offsetWord).slot (s.pushed a.offsetWord).sp = a.offsetWord :=
      Vm.slot_pushed_same _ hin1 rfl
    have hrun : decodeInstruction 0x51 c (s.pushed a.offsetWord) = _ :=
      opMload_ok hin1 (by rw [hslot, hlow]) hr
    have hback : InStack ((s.pushed a.offsetWord).popped.sp + 1) := by
      rw [Vm.sp_popped, Vm.sp_pushed, Int.sub_add_cancel]
      exact hin1
    refine ⟨_, ((bind_ok (stackPush_ok _ hin1) _).trans (bind_ok hrun _)).trans
      (bind_ok (stackPop_pushed _ _ hback) _), ?_, ?_⟩
    · show s.sp + 1 - 1 + 1 - 1 = s.sp
      omega
    · funext j
      exact (if_neg fun hc => (Access.covers_iff.mp hc).1 hop).symm

/-- **Whole sequences.** The machine loads what the native replay says. -/
theorem performAll_ok {c : Code} : ∀ (p : List (Access × Uint256)) {s : Vm}, 0 ≤ s.sp → s.sp ≤ 93 →
    ∃ loads s', performAll c p s = .ok loads s' ∧ s'.sp = s.sp ∧
      loads.map Uint256.val
        = loadsWith nativeByte (fun bytes => (loadWord bytes).val) (peek s.mem 0) p ∧
      peek s'.mem 0 = replay (fun x => x.1.covers) nativeByte (peek s.mem 0) p := by
  intro p
  induction p with
  | nil =>
    intro s _ _
    exact ⟨[], s, rfl, rfl, rfl, rfl⟩
  | cons x p ih =>
    intro s h0 h
    obtain ⟨s₁, hrun, hsp, hmem⟩ := perform_ok (c := c) x.1 x.2 h0 h
    obtain ⟨loads, s', hrest, hsp', hloads, hmem'⟩ := ih (s := s₁) (by omega) (by omega)
    rw [hmem] at hloads hmem'
    refine ⟨x.1.loaded (peek s.mem 0) ++ loads, s', ?_, hsp'.trans hsp, ?_, hmem'⟩
    · unfold performAll
      rw [bind_ok hrun]
      simp only
      rw [if_neg (by decide), bind_ok hrest]
      rfl
    · rw [List.map_append, hloads, loadsWith]
      unfold Access.loaded
      split
      · rfl
      · rfl

/-! ## When the two memories agree -/

/-- Two ways of loading agree on a sequence exactly when they agree at every load
of it. -/
theorem loadsWith_eq_iff {byte byte' : Access × Uint256 → Nat → UInt8}
    {read read' : (Nat → UInt8) → Nat} : ∀ (p : List (Access × Uint256)) (m m' : Nat → UInt8),
    loadsWith byte read m p = loadsWith byte' read' m' p ↔
      ∀ q x r, p = q ++ x :: r → x.1.op = .mload →
        read (fun k => replay (fun x => x.1.covers) byte m q (x.1.offset + k))
          = read' (fun k => replay (fun x => x.1.covers) byte' m' q (x.1.offset + k)) := by
  intro p
  induction p with
  | nil =>
    intro m m'
    refine ⟨fun _ q x r hp => ?_, fun _ => rfl⟩
    cases q <;> cases hp
  | cons y p ih =>
    intro m m'
    have hlater := ih (overwrite (fun x => x.1.covers) byte m y)
      (overwrite (fun x => x.1.covers) byte' m' y)
    rw [loadsWith, loadsWith]
    by_cases hop : y.1.op = .mload
    -- the first access is a load: it is the one with nothing in front of it
    · rw [if_pos hop, if_pos hop, List.singleton_append, List.singleton_append, List.cons.injEq,
        hlater]
      refine ⟨?_, ?_⟩
      · intro h q x r hp hx
        cases q with
        | nil =>
          cases hp
          exact h.1
        | cons z q =>
          cases hp
          exact h.2 q x r rfl hx
      · intro h
        exact ⟨h [] y p rfl hop, fun q x r hp hx => h (y :: q) x r (by rw [hp]; rfl) hx⟩
    · rw [if_neg hop, if_neg hop, List.nil_append, List.nil_append, hlater]
      refine ⟨?_, ?_⟩
      · intro h q x r hp hx
        cases q with
        | nil =>
          cases hp
          exact absurd hx hop
        | cons z q =>
          cases hp
          exact h q x r rfl hx
      · intro h q x r hp hx
        exact h (y :: q) x r (by rw [hp]; rfl) hx

/-- A load at `o` reads the same bytes from the two memories. -/
def BytesAgree (q : List (Access × Uint256)) (o : Nat) : Prop :=
  ∀ k, k < 32 → nativeMem q (o + mirror k) = evmMem q (o + k)

theorem memoryMeets_of_run {c : Code} {p : List (Access × Uint256)} {s s' : Vm}
    {loads : List Uint256} (hrun : performAll c p s = .ok loads s') :
    MemoryMeets c p s ↔ loads.map Uint256.val = evmLoads p := by
  refine ⟨?_, ?_⟩
  · intro h
    obtain ⟨loads', s'', hrun', hval⟩ := h
    rw [hrun] at hrun'
    cases hrun'
    exact hval
  · intro h
    exact ⟨loads, s', hrun, h⟩

/-- **Exactly, for one sequence and its words**: every load finds the bytes of
the big-endian memory at the mirrored addresses of its own. -/
theorem memoryMeets_iff {c : Code} {p : List (Access × Uint256)} {s : Vm} (hs : MemStart s) :
    MemoryMeets c p s ↔
      ∀ q x r, p = q ++ x :: r → x.1.op = .mload → BytesAgree q x.1.offset := by
  obtain ⟨loads, s', hrun, -, hloads, -⟩ := performAll_ok (c := c) p hs.sp_nonneg
    (s := s) hs.room
  rw [memoryMeets_of_run hrun, hloads, hs.peek_mem, evmLoads, loadsWith_eq_iff]
  -- load by load: equal numbers have equal bytes
  refine forall_congr' fun q => forall_congr' fun x => forall_congr' fun r =>
    forall_congr' fun _ => forall_congr' fun _ => ?_
  rw [loadWord_val]
  exact ⟨fun h => beNat_inj h, fun h => beNat_congr h⟩

/-! ## Loads of whole limbs -/

/-- The bytes at `[o, o + 32)` come in whole limbs: each is untouched, or was last
written by an `MSTORE` at a distance of whole limbs. -/
def LimbsWhole (q : List Access) (o : Nat) : Prop :=
  ∀ k, k < 32 → ∀ b, lastWriter Access.covers q (o + k) = some b →
    b.op = .mstore ∧ b.offset % 8 = o % 8

/-- Every load of the sequence reads whole limbs. -/
def LoadsSafe (shape : List Access) : Prop :=
  ∀ q a r, shape = q ++ a :: r → a.op = .mload → LimbsWhole q a.offset

theorem bytesAgree_of_limbsWhole {q : List (Access × Uint256)} {o : Nat}
    (h : LimbsWhole (q.map Prod.fst) o) : BytesAgree q o := by
  intro k hk
  have hm : mirror k = 8 * (k / 8) + (7 - k % 8) := rfl
  -- the last writers of the loaded bytes, with the words they wrote
  have hlast : ∀ i, i < 32 → ∀ x, lastWriter (fun x => x.1.covers) q (o + i) = some x →
      x.1.op = .mstore ∧ x.1.offset % 8 = o % 8 ∧ x.1.offset ≤ o + i ∧ o + i < x.1.offset + 32 := by
    intro i hi x hx
    have hcov := Access.covers_iff.mp
      (covers_of_lastWriter (fun x : Access × Uint256 => x.1.covers) hx)
    have hb := h i hi x.1 (by rw [lastWriter_map, hx]; rfl)
    rw [hb.1] at hcov
    exact ⟨hb.1, hb.2, hcov.2⟩
  have hcovers : ∀ i j, i < 32 → j < 32 → i / 8 = j / 8 → ∀ x,
      lastWriter (fun x => x.1.covers) q (o + i) = some x → x.1.covers (o + j) = true := by
    intro i j hi _ hij x hx
    obtain ⟨hop, halign, hle, hlt⟩ := hlast i hi x hx
    rw [Access.covers_iff, hop]
    refine ⟨nofun, by omega, ?_⟩
    show o + j < x.1.offset + 32
    omega
  have hsame : lastWriter (fun x : Access × Uint256 => x.1.covers) q (o + mirror k)
      = lastWriter (fun x => x.1.covers) q (o + k) :=
    lastWriter_congr _ q (hcovers (mirror k) k (by omega) hk (by omega))
      (hcovers k (mirror k) hk (by omega) (by omega))
  unfold nativeMem evmMem
  rw [replay_eq, replay_eq, hsame]
  cases hx : lastWriter (fun x : Access × Uint256 => x.1.covers) q (o + k) with
  | none => rfl
  | some x =>
    obtain ⟨hop, halign, hle, hlt⟩ := hlast k hk x hx
    show nativeByte x (o + mirror k) = evmByte x (o + k)
    -- whole limbs apart, mirroring at `o` is mirroring inside the stored word
    have hmirror : o + mirror k - x.1.offset = mirror (o + k - x.1.offset) := by
      unfold mirror
      omega
    unfold nativeByte evmByte
    rw [hop]
    show storeWord x.2 (o + mirror k - x.1.offset) = beByte x.2 (o + k - x.1.offset)
    rw [hmirror, storeWord_mirror _ (by omega)]

/-! ## Words that tell the memories apart -/

/-- The word with a one in byte `t` of its big-endian image and zeros elsewhere. -/
def spotWord (t : Nat) : Uint256 :=
  ⟨⟨limb (256 ^ (31 - t)) 3, limb (256 ^ (31 - t)) 2⟩,
    ⟨limb (256 ^ (31 - t)) 1, limb (256 ^ (31 - t)) 0⟩⟩

theorem spotWord_val (t : Nat) : (spotWord t).val = 256 ^ (31 - t) := by
  refine val_of_limbs ?_
  calc 256 ^ (31 - t) ≤ 256 ^ 31 := Nat.pow_le_pow_right (by omega) (by omega)
    _ < 2 ^ 256 := by norm_num

theorem beByte_spotWord {t k : Nat} (ht : t < 32) (hk : k < 32) :
    beByte (spotWord t) k = if k = t then 1 else 0 := by
  unfold beByte
  rw [spotWord_val]
  rcases Nat.lt_trichotomy k t with hlt | rfl | hgt
  · have hpow : (256 : Nat) ^ (31 - t) < 256 ^ (31 - k) := Nat.pow_lt_pow_right (by omega) (by omega)
    rw [Nat.div_eq_of_lt hpow, if_neg (by omega)]
    rfl
  · rw [Nat.div_self (Nat.pow_pos (by omega)), if_pos rfl]
    rfl
  · obtain ⟨d, hd⟩ : ∃ d, 31 - t = (31 - k) + (d + 1) := ⟨k - t - 1, by omega⟩
    rw [hd, Nat.pow_add, Nat.mul_div_cancel_left _ (Nat.pow_pos (by omega)), if_neg (by omega)]
    apply UInt8.toNat_inj.mp
    rw [UInt8.toNat_ofNat', Nat.pow_succ]
    exact Nat.mul_mod_left _ 256

theorem storeWord_clear256 (k : Nat) : storeWord clear256 k = 0 := by
  have hlimb : ∀ i, storeLE64 0 i = 0 := by
    intro i
    unfold storeLE64
    rw [UInt64.zero_shiftRight]
    rfl
  unfold storeWord
  split
  · exact hlimb _
  split
  · exact hlimb _
  split
  · exact hlimb _
  · exact hlimb _

/-- The words that show up a byte at `j` last written by `b`. -/
def spotAt (b : Access) (j : Nat) (a : Access) : Uint256 :=
  if a = b then spotWord (if b.op = .mstore8 then 31 else j - b.offset) else clear256

theorem evmByte_spotAt {b : Access} {j : Nat} (h : b.covers j = true) :
    evmByte (b, spotAt b j b) j = 1 := by
  have hcov := Access.covers_iff.mp h
  unfold evmByte spotAt
  rw [if_pos rfl]
  cases hop : b.op with
  | mstore8 =>
    show UInt8.ofNat (spotWord 31).val = 1
    rw [spotWord_val]
    rfl
  | mstore =>
    rw [hop] at hcov
    have hlt : j < b.offset + 32 := hcov.2.2
    show beByte (spotWord (j - b.offset)) (j - b.offset) = 1
    rw [beByte_spotWord (by omega) (by omega), if_pos rfl]
  | mload => exact absurd hop hcov.1

/-- At the mirrored address nothing of the spot is found, unless `b` is a store of
whole limbs for a load at `o`. -/
theorem nativeByte_spotAt {a b : Access} {o k : Nat} (hb : b.covers (o + k) = true)
    (ha : a.covers (o + mirror k) = true) (hbad : ¬(b.op = .mstore ∧ b.offset % 8 = o % 8)) :
    nativeByte (a, spotAt b (o + k) a) (o + mirror k) = 0 := by
  have hm : mirror k = 8 * (k / 8) + (7 - k % 8) := rfl
  unfold nativeByte spotAt
  by_cases hab : a = b
  · subst hab
    have hcov := Access.covers_iff.mp ha
    have hcov' := Access.covers_iff.mp hb
    rw [if_pos rfl]
    cases hop : a.op with
    | mstore8 =>
      -- it covers one address, and no byte is its own mirror image
      rw [hop] at hcov hcov'
      have hlt : o + mirror k < a.offset + 1 := hcov.2.2
      have hlt' : o + k < a.offset + 1 := hcov'.2.2
      omega
    | mstore =>
      rw [hop] at hcov hcov'
      have hlt : o + mirror k < a.offset + 32 := hcov.2.2
      have hlt' : o + k < a.offset + 32 := hcov'.2.2
      have halign : a.offset % 8 ≠ o % 8 := fun heq => hbad ⟨hop, heq⟩
      show storeWord (spotWord (o + k - a.offset)) (o + mirror k - a.offset) = 0
      rw [← mirror_mirror (o + mirror k - a.offset), storeWord_mirror _ (mirror_lt (by omega)),
        beByte_spotWord (by omega) (mirror_lt (by omega)), if_neg]
      unfold mirror
      omega
    | mload => exact absurd hop hcov.1
  · rw [if_neg hab]
    cases hop : a.op with
    | mstore8 => rfl
    | mstore => exact storeWord_clear256 _
    | mload => exact absurd hop (Access.covers_iff.mp ha).1

/-- If a load agrees for all words, it reads whole limbs. -/
theorem limbsWhole_of_bytesAgree {q : List Access} {o : Nat}
    (h : ∀ word : Access → Uint256, BytesAgree (q.map fun a => (a, word a)) o) : LimbsWhole q o := by
  intro k hk b hb
  by_contra hbad
  have hcov := covers_of_lastWriter _ hb
  have hagree := h (spotAt b (o + k)) k hk
  have hevm : evmMem (q.map fun a => (a, spotAt b (o + k) a)) (o + k) = 1 := by
    unfold evmMem
    rw [replay_eq, lastWriter_map,
      show lastWriter (fun a : Access => a.covers) q (o + k) = some b from hb]
    exact evmByte_spotAt hcov
  have hnative : nativeMem (q.map fun a => (a, spotAt b (o + k) a)) (o + mirror k) = 0 := by
    unfold nativeMem
    rw [replay_eq, lastWriter_map]
    cases ha : lastWriter (fun a : Access => a.covers) q (o + mirror k) with
    | none => rfl
    | some a => exact nativeByte_spotAt hcov (covers_of_lastWriter _ ha) hbad
  rw [hevm, hnative] at hagree
  exact absurd hagree (by decide)

/-! ## Memory refinement -/

/-- **When the interpreter's memory is the big-endian one.** A pattern of accesses
loads the right words for all words stored exactly when each of its loads reads
whole limbs; and a single sequence does exactly when the bytes its loads read
agree. -/
theorem memory_iff (c : Code) :
    (∀ shape : List Access,
      (∀ p : List (Access × Uint256), p.map Prod.fst = shape → ∀ s, MemStart s → MemoryMeets c p s) ↔
        LoadsSafe shape) ∧
      ∀ (p : List (Access × Uint256)) (s : Vm), MemStart s →
        (MemoryMeets c p s ↔
          ∀ q x r, p = q ++ x :: r → x.1.op = .mload → BytesAgree q x.1.offset) := by
  refine ⟨?_, fun p s hs => memoryMeets_iff hs⟩
  intro shape
  refine ⟨?_, ?_⟩
  · intro h q a r hshape ha
    refine limbsWhole_of_bytesAgree fun word => ?_
    have hmeets := h (shape.map fun a => (a, word a)) (by simp [Function.comp_def]) Vm.zeroed
      memStart_zeroed
    rw [memoryMeets_iff memStart_zeroed] at hmeets
    refine hmeets _ (a, word a) (r.map fun a => (a, word a)) ?_ ha
    rw [hshape, List.map_append, List.map_cons]
  · intro h p hp s hs
    rw [memoryMeets_iff hs]
    intro q x r hsplit hx
    refine bytesAgree_of_limbsWhole (h (q.map Prod.fst) x.1 (r.map Prod.fst) ?_ hx)
    rw [← hp, hsplit, List.map_append, List.map_cons]

/-- A word stored at `0` and a load one limb further on. -/
def limbOn : List Access := [⟨.mstore, 0, by decide⟩, ⟨.mload, 8, by decide⟩]

theorem memory_iff_limbOn :
    LoadsSafe limbOn ∧
      ∀ w, MemoryMeets ⟨[], by decide⟩ (limbOn.map fun a => (a, w)) Vm.zeroed := by
  have hsafe : LoadsSafe limbOn := by
    intro q a r hsplit ha k _ b hb
    have hmem : b ∈ limbOn := by
      rw [hsplit]
      exact List.mem_append_left _ (List.mem_filter.mp (List.mem_of_getLast? hb)).1
    have hcov := Access.covers_iff.mp (covers_of_lastWriter _ hb)
    have ha' : a ∈ limbOn := by
      rw [hsplit]
      exact List.mem_append_right _ (List.mem_cons_self ..)
    unfold limbOn at hmem ha'
    simp only [List.mem_cons, List.not_mem_nil, or_false] at hmem ha'
    rcases hmem with rfl | rfl
    · rcases ha' with rfl | rfl
      · cases ha
      · exact ⟨rfl, rfl⟩
    · exact absurd rfl hcov.1
  exact ⟨hsafe, fun w => ((memory_iff ⟨[], by decide⟩).1 limbOn).mpr hsafe _ rfl _ memStart_zeroed⟩

/-- The word one stored at `0` and loaded from `1`. -/
def byteOn : List (Access × Uint256) :=
  [(⟨.mstore, 0, by decide⟩, lowWord 1), (⟨.mload, 1, by decide⟩, clear256)]

/-- The byte one stored at `0` and loaded as the first byte of a word. -/
def firstByte : List (Access × Uint256) :=
  [(⟨.mstore8, 0, by decide⟩, lowWord 1), (⟨.mload, 0, by decide⟩, clear256)]

/-- From all zeros, what a sequence loads is computed by the native replay. -/
theorem performAll_zeroed (c : Code) (p : List (Access × Uint256)) :
    ∃ loads s', performAll c p Vm.zeroed = .ok loads s' ∧
      loads.map Uint256.val
        = loadsWith nativeByte (fun bytes => (loadWord bytes).val) (peek Vm.zeroed.mem 0) p := by
  obtain ⟨loads, s', hrun, -, hloads, -⟩ :=
    performAll_ok (c := c) p (s := Vm.zeroed) (Int.le_refl 0) (by decide)
  exact ⟨loads, s', hrun, hloads⟩

/-- `MLOAD` at `1` yields `2^120` where a big-endian memory yields `2^8`, and at
`0` it yields `2^192` for `2^248`. -/
theorem memory_bytesReversed :
    (∃ loads s', performAll ⟨[], by decide⟩ byteOn Vm.zeroed = .ok loads s' ∧
      loads.map Uint256.val = [2 ^ 120] ∧ evmLoads byteOn = [2 ^ 8]) ∧
    (∃ loads s', performAll ⟨[], by decide⟩ firstByte Vm.zeroed = .ok loads s' ∧
      loads.map Uint256.val = [2 ^ 192] ∧ evmLoads firstByte = [2 ^ 248]) ∧
    ¬MemoryMeets ⟨[], by decide⟩ byteOn Vm.zeroed ∧
    ¬MemoryMeets ⟨[], by decide⟩ firstByte Vm.zeroed := by
  obtain ⟨loads, s₁, hrun, hloads⟩ := performAll_zeroed ⟨[], by decide⟩ byteOn
  obtain ⟨loads', s₂, hrun', hloads'⟩ := performAll_zeroed ⟨[], by decide⟩ firstByte
  refine ⟨⟨loads, s₁, hrun, hloads.trans ?_, ?_⟩, ⟨loads', s₂, hrun', hloads'.trans ?_, ?_⟩, ?_, ?_⟩
  case refine_5 =>
    rw [memoryMeets_of_run hrun, hloads]
    decide +kernel
  case refine_6 =>
    rw [memoryMeets_of_run hrun', hloads']
    decide +kernel
  all_goals decide +kernel

end TinyEvm
