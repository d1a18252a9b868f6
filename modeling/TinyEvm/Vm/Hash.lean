import TinyEvm.Vm.Memory

/-!
# `SHA3` over memory

What `SHA3` pushes after a sequence of stores, against the digest of the bytes a
big-endian memory holds. Four things stand between the two:

* the byte swap overruns a `data` array shorter than 32 bytes (`opSha3_short`);
* 32 bytes are hashed whatever `length` is;
* they are the mirrored bytes of the native memory, so stores that are not whole
  limbs away from `offset` are hashed out of place;
* the digest is put together with its second and third limb exchanged
  (`hashWord_eq`), as `PUSH17` to `PUSH32` do with their immediates.

So the word pushed is right for one word of memory whose bytes are hashed in place and
whose digest the exchange leaves as it is (`HashRight`). Anywhere else it could be right
only through two different messages with one digest up to the exchange, and those are
named (`HashCoincides`): nothing is assumed of `get_keccak256`, the one Keccak-256 the
interpreter calls.
-/

namespace TinyEvm

open Lib.BigEndian Lib.Buffer Lib.Exec Lib.Replay

/-! ## The digest on the stack -/

/-- The loop `element = ( element << 8 ) | result[i]` over at most eight bytes. -/
theorem foldl_bytes (l : List UInt8) (h : l.length ≤ 8) :
    (l.foldl (fun (element : UInt64) b => (element <<< 8) ||| b.toUInt64) 0).toNat
      = beNat (l.getD · 0) l.length := by
  induction l using List.reverseRecOn with
  | nil => rfl
  | append_singleton l b ih =>
    rw [List.length_append, List.length_singleton] at h
    have hbytes : beNat ((l ++ [b]).getD · 0) l.length = beNat (l.getD · 0) l.length := by
      refine beNat_congr fun i hi => ?_
      rw [List.getD_append _ _ _ _ hi]
    have hlast : (l ++ [b]).getD l.length 0 = b := by
      rw [List.getD_append_right _ _ _ _ (Nat.le_refl _), Nat.sub_self]
      rfl
    have hl := ih (by omega)
    have hroom := beNat_lt (l.getD · 0) l.length
    rw [List.foldl_append, List.foldl_cons, List.foldl_nil,
      shl_or_byte_of_lt b (hl ▸ hroom) (by omega), hl, List.length_append, List.length_singleton, beNat, hbytes, hlast]

theorem elementAt_eq (result : List UInt8) {i : Nat} (h : i + 8 ≤ result.length) :
    elementAt result i = readUint64BE fun k => result.getD (k + i) 0 := by
  have hlen : ((result.drop i).take 8).length = 8 := by
    rw [List.length_take, List.length_drop]
    omega
  apply UInt64.toNat_inj.mp
  unfold elementAt
  rw [foldl_bytes _ (by omega), hlen, readUint64BE_toNat]
  refine beNat_congr fun k hk => ?_
  rw [List.getD_eq_getElem?_getD, List.getElem?_take_of_lt hk, List.getElem?_drop, Nat.add_comm i k,
    List.getD_eq_getElem?_getD]

/-- The second and the third of four groups of eight bytes exchanged. -/
def exchange (k : Nat) : Nat :=
  if 8 ≤ k ∧ k < 16 then k + 8 else if 16 ≤ k ∧ k < 24 then k - 8 else k

/-- **The digest is pushed with its middle limbs exchanged.** -/
theorem hashWord_eq {result : List UInt8} (h : result.length = 32) :
    hashWord result = readu256BE fun k => result.getD (exchange k) 0 := by
  unfold hashWord elementsWord
  rw [elementAt_eq _ (by omega), elementAt_eq _ (by omega), elementAt_eq _ (by omega),
    elementAt_eq _ (by omega)]
  rfl

theorem getKeccak256_length (aligned : Nat → Bool) (data : List UInt8) :
    (Keccak.getKeccak256 aligned data).length = 32 := by
  unfold Keccak.getKeccak256 Keccak.keccakFinal
  simp

/-! ## `SHA3`, run -/

section
variable {s : Vm} {o length : Nat}

/-- Operands in range: the bytes at `offset` are copied and the rest runs on them. -/
theorem opSha3_inside (htop : InStack s.sp) (hsecond : InStack (s.sp - 1))
    (ho : (s.slot s.sp).lower.lower.toNat = o) (hl : (s.slot (s.sp - 1)).lower.lower.toNat = length)
    (h256 : length ≤ 256) (hr : o + length ≤ memorySpace) :
    opSha3 s = sha3Result (s.slot (s.sp - 1)).lower.lower (fun k => peek s.mem 0 (o + k))
      s.popped.popped := by
  subst ho hl
  have hlong : ¬(s.slot (s.sp - 1)).lower.lower > 256 := by
    rw [gt_iff_lt, UInt64.lt_iff_toNat_lt]
    exact Nat.not_lt.mpr h256
  unfold opSha3
  rw [bind_ok (stackPopLow_ok htop), bind_ok (stackPopLow_ok (s := s.popped) hsecond),
    Vm.slot_popped, Vm.sp_popped, if_neg hlong, if_neg (by omega)]
  exact bind_ok (memBlock_ok (Or.inr hr)) _

/-- From 32 bytes on: the first 32 of them are hashed, with the bytes of every limb
swapped. -/
theorem sha3Result_ok {length : UInt64} (h : 32 ≤ length.toNat) (data : Nat → UInt8)
    (hroom : InStack (s.sp + 1)) :
    sha3Result length data s = .ok 0 (s.pushed (hashWord (Keccak.getKeccak256 (fun _ => true)
      ((List.range 32).map (swapLimbs data))))) := by
  have hlong : ¬length < 32 := by
    rw [UInt64.lt_iff_toNat_lt]
    exact Nat.not_lt.mpr h
  unfold sha3Result
  rw [if_neg hlong, bind_ok (stackPush_ok _ hroom)]
  rfl

/-- Below 32 bytes the swap leaves the array. -/
theorem sha3Result_short {length : UInt64} (h : length.toNat < 32) (data : Nat → UInt8) :
    sha3Result length data s = .error (.automatic length.toNat) s := by
  unfold sha3Result
  rw [if_pos (UInt64.lt_iff_toNat_lt.mpr h)]
  rfl

end

/-! ## `SHA3` after a sequence of stores -/

/-- Run the accesses, push the operands, decode `SHA3`, and take its result off
the stack. -/
def sha3After (c : Code) (p : List (Access × Uint256)) (offset length : Nat) : VmM (Int × Uint256) := do
  let _ ← performAll c p
  stackPush (lowWord (UInt64.ofNat length))
  stackPush (lowWord (UInt64.ofNat offset))
  let status ← decodeInstruction 0x20 c
  let hash ← stackPop
  return (status, hash)

/-- The `length` bytes at `offset` of the big-endian memory. -/
def evmBytes (p : List (Access × Uint256)) (offset length : Nat) : List UInt8 :=
  (List.range length).map fun k => evmMem p (offset + k)

/-- The bytes `SHA3` hashes: the 32 at `offset` of the native memory, mirrored in their
limbs. -/
def nativeBytes (p : List (Access × Uint256)) (offset : Nat) : List UInt8 :=
  (List.range 32).map fun k => nativeMem p (offset + mirror k)

/-- The digest of the big-endian bytes. -/
def evmDigest (p : List (Access × Uint256)) (offset length : Nat) : List UInt8 :=
  Keccak.getKeccak256 (fun _ => true) (evmBytes p offset length)

/-- The digest of the bytes that are hashed. -/
def nativeDigest (p : List (Access × Uint256)) (offset : Nat) : List UInt8 :=
  Keccak.getKeccak256 (fun _ => true) (nativeBytes p offset)

/-- **`SHA3` is the digest of memory**: status zero, and the one word pushed is
the big-endian reading of the digest. -/
def HashMeets (c : Code) (p : List (Access × Uint256)) (offset length : Nat) (s : Vm) : Prop :=
  ∃ w s', sha3After c p offset length s = .ok (0, w) s' ∧ s'.sp = s.sp ∧
    w = readu256BE fun k => (evmDigest p offset length).getD k 0

/-- Up to the copy of the bytes the run depends on `length` and the native memory
only. -/
theorem sha3After_eq {c : Code} {p : List (Access × Uint256)} {offset length : Nat} {s : Vm}
    (hs : MemStart s) (h256 : length ≤ 256) (hr : offset + length ≤ memorySpace) :
    ∃ t, t.sp = s.sp ∧ sha3After c p offset length s
      = (sha3Result (UInt64.ofNat length) (fun k => nativeMem p (offset + k)) >>= fun status => do
          let hash ← stackPop
          return (status, hash)) t := by
  obtain ⟨loads, s₁, hrun, hsp, -, hmem⟩ := performAll_ok (c := c) p hs.sp_nonneg (s := s) hs.room
  have h0 := hs.sp_nonneg
  have h93 := hs.room
  have hspace : memorySpace = 8089 := rfl
  have hlow : ∀ n, n ≤ memorySpace → (lowWord (UInt64.ofNat n)).lower.lower.toNat = n := by
    intro n hn
    show (UInt64.ofNat n).toNat = n
    rw [UInt64.toNat_ofNat', Nat.mod_eq_of_lt (by omega)]
  obtain ⟨htop, hsecond, hoff, hlen⟩ := operands (s := s₁) (lowWord (UInt64.ofNat length))
    (lowWord (UInt64.ofNat offset)) (by omega) (by omega)
  have hdecode : decodeInstruction 0x20 c
      ((s₁.pushed (lowWord (UInt64.ofNat length))).pushed (lowWord (UInt64.ofNat offset))) = _ :=
    opSha3_inside htop hsecond (o := offset) (by rw [hoff]; exact hlow offset (by omega))
      (by rw [hlen]; exact hlow length (by omega)) h256 hr
  rw [hlen] at hdecode
  refine ⟨((s₁.pushed (lowWord (UInt64.ofNat length))).pushed
    (lowWord (UInt64.ofNat offset))).popped.popped, ?_, ?_⟩
  · show s₁.sp + 1 + 1 - 1 - 1 = s.sp
    omega
  · unfold sha3After
    rw [bind_ok hrun, pushTwo_ok _ _ (by omega) (by omega)]
    -- `SHA3` runs on the native memory the accesses left behind
    refine bind_run (hdecode.trans ?_) _
    rw [show nativeMem p = peek s₁.mem 0 by rw [hmem, hs.peek_mem]; rfl]
    rfl

/-- **`SHA3`, exactly.** A length below 32 runs out of the array `data`. From 32 on,
the word is right exactly when the digest of the 32 mirrored native bytes, its
middle limbs exchanged, is the digest of the `length` big-endian bytes. -/
theorem hashMeets_iff {c : Code} {p : List (Access × Uint256)} {offset length : Nat} {s : Vm}
    (hs : MemStart s) (h256 : length ≤ 256) (hr : offset + length ≤ memorySpace) :
    HashMeets c p offset length s ↔
      32 ≤ length ∧ ∀ k, k < 32 →
        (nativeDigest p offset).getD (exchange k) 0 = (evmDigest p offset length).getD k 0 := by
  obtain ⟨t, hsp, hrun⟩ := sha3After_eq (c := c) (p := p) hs h256 hr
  have hlength : (UInt64.ofNat length).toNat = length := by
    rw [UInt64.toNat_ofNat', Nat.mod_eq_of_lt (by omega)]
  unfold HashMeets
  rw [hrun]
  by_cases h32 : 32 ≤ length
  · have hroom : InStack (t.sp + 1) := by
      have h0 := hs.sp_nonneg
      have h93 := hs.room
      exact inStack_of_le (by omega) (by omega)
    -- the swap pass turns the copied bytes into the mirrored ones
    have hbytes : (List.range 32).map (swapLimbs fun k => nativeMem p (offset + k))
        = (List.range 32).map fun k => nativeMem p (offset + mirror k) := by
      refine List.map_congr_left fun k hk => ?_
      rw [swapLimbs_eq _ (List.mem_range.mp hk)]
    have hpop : stackPop (t.pushed (hashWord (nativeDigest p offset)))
        = .ok (hashWord (nativeDigest p offset)) (t.pushed (hashWord (nativeDigest p offset))).popped :=
      stackPop_pushed _ t.gasCharge hroom
    have hresult : sha3Result (UInt64.ofNat length) (fun k => nativeMem p (offset + k)) t
        = .ok 0 (t.pushed (hashWord (nativeDigest p offset))) := by
      unfold nativeDigest nativeBytes
      rw [← hbytes]
      exact sha3Result_ok (by rw [hlength]; exact h32) _ hroom
    have hlength32 : (nativeDigest p offset).length = 32 := getKeccak256_length _ _
    rw [bind_ok hresult, bind_ok hpop, ← readu256BE_inj, ← hashWord_eq hlength32]
    refine ⟨?_, ?_⟩
    · intro h
      obtain ⟨w, s', heq, -, hw⟩ := h
      cases heq
      exact ⟨h32, hw⟩
    · intro h
      refine ⟨_, _, rfl, ?_, h.2⟩
      show t.sp + 1 - 1 = s.sp
      omega
  · rw [bind_error (sha3Result_short (by rw [hlength]; omega) _)]
    refine ⟨?_, ?_⟩
    · intro h
      obtain ⟨w, s', heq, -⟩ := h
      cases heq
    · intro h
      exact absurd h.1 h32

/-- A digest that the exchange of its second and third group of eight bytes leaves as it
is. -/
def MiddleTwin (digest : List UInt8) : Prop :=
  ∀ k, k < 8 → digest.getD (8 + k) 0 = digest.getD (16 + k) 0

theorem middleTwin_iff (digest : List UInt8) :
    MiddleTwin digest ↔ ∀ k, k < 32 → digest.getD (exchange k) 0 = digest.getD k 0 := by
  refine ⟨?_, ?_⟩
  · intro h k hk
    unfold exchange
    split
    next hmid =>
      have hk' := h (k - 8) (by omega)
      rw [show 8 + (k - 8) = k by omega, show 16 + (k - 8) = k + 8 by omega] at hk'
      exact hk'.symm
    split
    next hmid =>
      have hk' := h (k - 16) (by omega)
      rw [show 8 + (k - 16) = k - 8 by omega, show 16 + (k - 16) = k by omega] at hk'
      exact hk'
    · rfl
  · intro h k hk
    have hk' := h (8 + k) (by omega)
    unfold exchange at hk'
    rw [if_pos (by omega), show 8 + k + 8 = 16 + k by omega] at hk'
    exact hk'.symm

/-- One word of memory, its bytes hashed in place, with a digest the exchange leaves as
it is. -/
structure HashRight (p : List (Access × Uint256)) (offset length : Nat) : Prop where
  oneWord : length = 32
  bytes : BytesAgree p offset
  digest : MiddleTwin (evmDigest p offset 32)

/-- Other bytes are hashed than those of the big-endian memory, and the two messages
have one digest up to the exchange. -/
def HashCoincides (p : List (Access × Uint256)) (offset length : Nat) : Prop :=
  nativeBytes p offset ≠ evmBytes p offset length ∧ ∀ k, k < 32 →
    (nativeDigest p offset).getD (exchange k) 0 = (evmDigest p offset length).getD k 0

/-- The right message is hashed when it is one word, each byte of it in its place. -/
theorem nativeBytes_eq_iff {p : List (Access × Uint256)} {offset length : Nat} :
    nativeBytes p offset = evmBytes p offset length ↔ length = 32 ∧ BytesAgree p offset := by
  unfold nativeBytes evmBytes
  refine ⟨?_, ?_⟩
  · intro h
    obtain rfl : length = 32 := by
      have hlength := congrArg List.length h
      rw [List.length_map, List.length_map, List.length_range, List.length_range] at hlength
      exact hlength.symm
    exact ⟨rfl, fun k hk => List.map_inj_left.mp h k (List.mem_range.mpr hk)⟩
  · intro h
    obtain ⟨rfl, hagree⟩ := h
    exact List.map_congr_left fun k hk => hagree k (List.mem_range.mp hk)

/-- Where the right message is hashed, what is left is the exchange of the digest's
middle limbs. -/
theorem hashMeets_word_iff {c : Code} {p : List (Access × Uint256)} {offset : Nat} {s : Vm}
    (hs : MemStart s) (hr : offset + 32 ≤ memorySpace) (hagree : BytesAgree p offset) :
    HashMeets c p offset 32 s ↔ MiddleTwin (evmDigest p offset 32) := by
  have hdigest : nativeDigest p offset = evmDigest p offset 32 := by
    unfold nativeDigest evmDigest
    rw [nativeBytes_eq_iff.mpr ⟨rfl, hagree⟩]
  rw [hashMeets_iff hs (by omega) hr, hdigest, ← middleTwin_iff]
  exact and_iff_right (Nat.le_refl _)

/-- **When `SHA3` pushes the digest of memory**, for every sequence of stores and every
offset and length in range: not below 32 bytes; for one word hashed in place whose digest
the exchange leaves as it is; and otherwise only where two digests coincide. The last part
is the case of a word in whole limbs. -/
theorem hash_iff (c : Code) (p : List (Access × Uint256)) (offset length : Nat) (s : Vm)
    (hs : MemStart s) (h256 : length ≤ 256) (hr : offset + length ≤ memorySpace) :
    (length < 32 → ¬HashMeets c p offset length s) ∧
    (HashRight p offset length → HashMeets c p offset length s) ∧
    (HashMeets c p offset length s → HashRight p offset length ∨ HashCoincides p offset length) ∧
    (length = 32 → LimbsWhole (p.map Prod.fst) offset →
      (HashMeets c p offset length s ↔ MiddleTwin (evmDigest p offset 32))) := by
  refine ⟨?_, ?_, ?_, ?_⟩
  · intro hshort hmeets
    exact Nat.not_le.mpr hshort ((hashMeets_iff hs h256 hr).mp hmeets).1
  · intro hright
    obtain ⟨rfl, hagree, htwin⟩ := hright
    exact (hashMeets_word_iff hs hr hagree).mpr htwin
  · intro hmeets
    by_cases hsame : nativeBytes p offset = evmBytes p offset length
    · obtain ⟨rfl, hagree⟩ := nativeBytes_eq_iff.mp hsame
      exact Or.inl ⟨rfl, hagree, (hashMeets_word_iff hs hr hagree).mp hmeets⟩
    · exact Or.inr ⟨hsame, ((hashMeets_iff hs h256 hr).mp hmeets).2⟩
  · intro hlength hwhole
    subst hlength
    exact hashMeets_word_iff hs hr (bytesAgree_of_limbsWhole hwhole)

/-- A word stored at 32, and a second one behind it. -/
def twoStores : List (Access × Uint256) :=
  [(⟨.mstore, 32, by decide⟩, lowWord 1), (⟨.mstore, 64, by decide⟩, lowWord 2)]

/-- The word stored at 32 is not hashed right, for its digest is
`b10e2d527612073b 26eecdfd717e6a32 0cf44b4afac2b073 2d9fcbe2b7fa0cf6`; the two words are
not, for only the first is hashed and the digests do not coincide. -/
theorem hash_iff_twoStores :
    ¬HashMeets ⟨[], by decide⟩ (twoStores.take 1) 32 32 Vm.zeroed ∧
    ¬HashMeets ⟨[], by decide⟩ twoStores 32 64 Vm.zeroed ∧
    ¬HashMeets ⟨[], by decide⟩ twoStores 32 31 Vm.zeroed := by
  have hwhole : LimbsWhole ((twoStores.take 1).map Prod.fst) 32 := by
    intro k _ b hb
    have hmem := (List.mem_filter.mp (List.mem_of_getLast? hb)).1
    obtain rfl := List.mem_singleton.mp hmem
    exact ⟨rfl, rfl⟩
  -- what is hashed is the first word either way
  have hword : evmDigest (twoStores.take 1) 32 32 = nativeDigest twoStores 32 :=
    congrArg (Keccak.getKeccak256 fun _ => true) (by decide)
  have hdigests : (nativeDigest twoStores 32).getD 8 0 ≠ (nativeDigest twoStores 32).getD 16 0 ∧
      (nativeDigest twoStores 32).getD 0 0 ≠ (evmDigest twoStores 32 64).getD 0 0 := by
    decide +kernel
  obtain ⟨hdiffers, hdistinct⟩ := hdigests
  refine ⟨?_, ?_, ?_⟩
  · rw [(hash_iff ⟨[], by decide⟩ (twoStores.take 1) 32 32 Vm.zeroed memStart_zeroed (by decide)
      (by decide)).2.2.2 rfl hwhole, hword]
    exact fun h => hdiffers (h 0 (by decide))
  · intro hmeets
    obtain ⟨hone, -⟩ | ⟨-, hequal⟩ := (hash_iff ⟨[], by decide⟩ twoStores 32 64 Vm.zeroed
      memStart_zeroed (by decide) (by decide)).2.2.1 hmeets
    · exact absurd hone (by decide)
    · exact hdistinct (hequal 0 (by decide))
  · exact (hash_iff ⟨[], by decide⟩ twoStores 32 31 Vm.zeroed memStart_zeroed (by decide)
      (by decide)).1 (by decide)

/-- `SHA3` of 32 zero bytes, and of none: the digest
`290decd9548b62a8 d60345a988386fc8 4ba6bc95484008f6 362f93160ef3e563` is pushed with
its middle limbs exchanged, and an empty `data` is overrun. -/
theorem hash_zeroWord :
    ¬HashMeets ⟨[], by decide⟩ [] 0 32 Vm.zeroed ∧ ¬HashMeets ⟨[], by decide⟩ [] 0 0 Vm.zeroed := by
  have hdiffers : (evmDigest [] 0 32).getD 8 0 ≠ (evmDigest [] 0 32).getD 16 0 := by
    decide +kernel
  refine ⟨?_, ?_⟩
  · rw [hashMeets_word_iff memStart_zeroed (by decide)
      (bytesAgree_of_limbsWhole fun _ _ _ h => by cases h)]
    exact fun h => hdiffers (h 0 (by decide))
  · rw [hashMeets_iff memStart_zeroed (by decide) (by decide)]
    exact fun h => absurd h.1 (by decide)

end TinyEvm
