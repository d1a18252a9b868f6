import Mathlib.Data.List.GetD
import TinyEvm.Keccak.Permutation

/-!
# The two Keccaks agree

`keccak256.c` collects whole blocks of 136 bytes in a leftover buffer and adds a block
to the state lane by lane; `sha3.c` adds every byte to the state as it comes and keeps
no buffer. Between two calls they are related by `Agree`: both are at the same position
in the block, and the state of `sha3.c` is that of `keccak256.c` with the buffered bytes
added.

* `inject_block`: adding 136 bytes one by one is adding 17 little-endian lanes.
* `update_agree`: a chunk of any length keeps the relation: it may stay in the buffer,
  fill it to the last byte, span many blocks, or be empty, and each full block is
  permuted by both at the same byte.
* `final_agree`: the padding of `keccak_final`, written into the cleared buffer, is the
  padding of `sha3_final` added to the state, also where its two bytes are one
  (position 135).
-/

namespace TinyEvm.Keccak

open Sha3 (xorByte byteAt)

/-! ## Bytes added to the state -/

/-- The bytes `bs` added to the state from byte `j` on. -/
def inject (q : Lanes) (j : Nat) : List UInt8 → Lanes
  | [] => q
  | x :: bs => inject (xorByte q j x) (j + 1) bs

theorem inject_append : ∀ (as : List UInt8) (q : Lanes) (j : Nat) (bs : List UInt8),
    inject q j (as ++ bs) = inject (inject q j as) (j + as.length) bs := by
  intro as
  induction as with
  | nil =>
    intro q j bs
    rfl
  | cons x as ih =>
    intro q j bs
    rw [List.cons_append, inject, ih, inject, List.length_cons, Nat.add_right_comm, Nat.add_assoc]

/-- Adding zero changes nothing. -/
theorem xorByte_zero (q : Lanes) {j : Nat} (hj : j < 200) : xorByte q j 0 = q := by
  apply lanes_ext
  intro k _
  unfold xorByte
  rw [lane_set _ (by omega), show (0 : UInt8).toUInt64 = 0 from rfl, UInt64.zero_shiftLeft,
    UInt64.xor_zero, Function.update_eq_self]

/-- The little-endian `uint64_t` of up to eight bytes. -/
def lanes64 (bs : List UInt8) : UInt64 := bs.foldr (fun b acc => (acc <<< 8) ||| b.toUInt64) 0

/-- A byte and what was shifted out of its way have no bit in common. -/
theorem shl_or_eq_xor (x : UInt64) (b : UInt8) :
    (x <<< 8) ||| b.toUInt64 = b.toUInt64 ^^^ (x <<< 8) := by
  apply UInt64.toBitVec_inj.mp
  apply BitVec.eq_of_getLsbD_eq
  intro i hi
  rw [UInt64.toBitVec_xor, UInt64.toBitVec_or, BitVec.getLsbD_xor, BitVec.getLsbD_or,
    UInt64.toBitVec_shiftLeft, BitVec.shiftLeft_eq',
    show ((8 : UInt64).toBitVec % 64).toNat = 8 from rfl, BitVec.getLsbD_shiftLeft,
    UInt8.toBitVec_toUInt64, BitVec.getLsbD_setWidth]
  by_cases hlow : i < 8
  · simp [hlow]
  · rw [BitVec.getLsbD_of_ge b.toBitVec i (by omega)]
    simp

theorem toNat_eight_mul {t : Nat} (ht : t ≤ 8) : ((8 * t).toUInt64).toNat = 8 * t := by
  show (UInt64.ofNat (8 * t)).toNat = _
  rw [UInt64.toNat_ofNat']
  omega

/-- One more byte in front: it is added, and the others move up. -/
theorem lanes64_shl (b : UInt8) {bs : List UInt8} {t : Nat} (h : t + (bs.length + 1) ≤ 8) :
    lanes64 (b :: bs) <<< (8 * t).toUInt64
      = (b.toUInt64 <<< (8 * t).toUInt64) ^^^ (lanes64 bs <<< (8 * (t + 1)).toUInt64) := by
  have hstep : lanes64 (b :: bs) = b.toUInt64 ^^^ (lanes64 bs <<< 8) := shl_or_eq_xor (lanes64 bs) b
  rw [hstep, UInt64.shiftLeft_xor]
  refine congrArg (b.toUInt64 <<< (8 * t).toUInt64 ^^^ ·) ?_
  cases bs with
  | nil =>
    show ((0 : UInt64) <<< 8) <<< _ = (0 : UInt64) <<< _
    rw [UInt64.zero_shiftLeft, UInt64.zero_shiftLeft, UInt64.zero_shiftLeft]
  | cons x bs =>
    rw [List.length_cons] at h
    have hsum : (8 : UInt64) + (8 * t).toUInt64 = (8 * (t + 1)).toUInt64 := by
      apply UInt64.toNat_inj.mp
      rw [UInt64.toNat_add, toNat_eight_mul (by omega), toNat_eight_mul (by omega)]
      show (8 + 8 * t) % 2 ^ 64 = _
      omega
    rw [← hsum, UInt64.shiftLeft_add_of_toNat_lt]
    rw [toNat_eight_mul (by omega)]
    show 8 + 8 * t < 64
    omega

/-- Up to eight bytes from byte `t` of lane `i` on change that lane only. -/
theorem lane_inject_lane {i : Nat} (hi : i < 25) : ∀ (bs : List UInt8) (t : Nat) (q : Lanes),
    t + bs.length ≤ 8 → lane (inject q (8 * i + t) bs)
      = Function.update (lane q) i (lane q i ^^^ (lanes64 bs <<< (8 * t).toUInt64)) := by
  intro bs
  induction bs with
  | nil =>
    intro t q _
    rw [inject, show lanes64 [] = 0 from rfl, UInt64.zero_shiftLeft, UInt64.xor_zero,
      Function.update_eq_self]
  | cons b bs ih =>
    intro t q hlen
    rw [List.length_cons] at hlen
    have hdiv : (8 * i + t) / 8 = i := by omega
    have hmod : (8 * i + t) % 8 = t := by omega
    rw [inject, Nat.add_assoc, ih _ _ (by omega), xorByte, hdiv, hmod, lane_set _ hi,
      Function.update_self, Function.update_idem, UInt64.xor_assoc, lanes64_shl b hlen]

/-- Eight bytes at a time from the first lane on. -/
theorem lane_inject : ∀ (n : Nat) (bs : List UInt8) (q : Lanes), n ≤ 25 → bs.length = 8 * n →
    ∀ k, lane (inject q 0 bs) k
      = if k < n then lane q k ^^^ lanes64 ((bs.drop (8 * k)).take 8) else lane q k := by
  intro n
  induction n with
  | zero =>
    intro bs q _ hlen k
    obtain rfl : bs = [] := List.length_eq_zero_iff.mp hlen
    rw [if_neg (Nat.not_lt_zero k), inject]
  | succ n ih =>
    intro bs q hn hlen k
    -- the last lane is added to a state that has the lanes before it
    have hfront : (bs.take (8 * n)).length = 8 * n := by
      rw [List.length_take]
      omega
    have hback : (bs.drop (8 * n)).length = 8 := by
      rw [List.length_drop]
      omega
    have hzero : (8 * 0 : Nat).toUInt64 = 0 := rfl
    have hsplit : inject q 0 bs
        = inject (inject q 0 (bs.take (8 * n))) (8 * n + 0) (bs.drop (8 * n)) := by
      rw [← List.take_append_drop (8 * n) bs, inject_append, List.take_append_drop, hfront,
        Nat.zero_add, Nat.add_zero]
    rw [hsplit, lane_inject_lane (by omega) _ _ _ (by omega), hzero, UInt64.shiftLeft_zero,
      Function.update_apply]
    by_cases hlast : k = n
    · subst hlast
      rw [if_pos rfl, if_pos (Nat.lt_succ_self k), ih _ q (by omega) hfront,
        if_neg (Nat.lt_irrefl k), List.take_of_length_le (Nat.le_of_eq hback)]
    · rw [if_neg hlast, ih _ q (by omega) hfront]
      by_cases hk : k < n
      · rw [if_pos hk, if_pos (by omega), List.drop_take, List.take_take,
          Nat.min_eq_left (by omega)]
      · rw [if_neg hk, if_neg (by omega)]

theorem blockLane_eq {block : Nat → UInt8} {bs : List UInt8} {i : Nat}
    (hlen : 8 * i + 8 ≤ bs.length) (h : ∀ k, k < bs.length → block k = bs.getD k 0) :
    blockLane block i = lanes64 ((bs.drop (8 * i)).take 8) := by
  have hbytes : (bs.drop (8 * i)).take 8 = (List.range 8).map fun k => block (8 * i + k) := by
    apply List.ext_getElem
    · simp
      omega
    · intro k h1 h2
      have hk : k < 8 := by simpa using h2
      rw [List.getElem_take, List.getElem_drop, List.getElem_map, List.getElem_range,
        h _ (by omega), List.getD_eq_getElem?_getD, List.getElem?_eq_getElem (by omega),
        Option.getD_some]
  rw [hbytes, blockLane, lanes64, List.foldr_map]

/-- **A block.** `sha3_process_block` is the 136 bytes added one by one, and the
permutation of `sha3.c`. -/
theorem inject_block {block : Nat → UInt8} {bs : List UInt8} (q : Lanes)
    (hlen : bs.length = blockSize) (h : ∀ k, k < bs.length → block k = bs.getD k 0) :
    sha3ProcessBlock q block = Sha3.sha3Keccakf (inject q 0 bs) := by
  have hadd : (Vector.ofFn fun i : Fin 25 =>
      if i.val < 17 then lane q i ^^^ blockLane block i else lane q i) = inject q 0 bs := by
    apply lanes_ext
    intro k hk
    rw [lane_ofFn _ hk, lane_inject 17 bs q (by omega) hlen]
    by_cases hrate : k < 17
    · rw [if_pos hrate, if_pos hrate, blockLane_eq _ h]
      rw [hlen]
      show 8 * k + 8 ≤ 136
      omega
    · rw [if_neg hrate, if_neg hrate]
  rw [sha3ProcessBlock, hadd, permutation_eq]

/-! ## The loop of `sha3_update` -/

theorem updateLoop_append (rsiz : Nat) : ∀ (as bs : List UInt8) (q : Lanes) (j : Nat),
    Sha3.updateLoop rsiz (as ++ bs) q j
      = Sha3.updateLoop rsiz bs (Sha3.updateLoop rsiz as q j).1
          (Sha3.updateLoop rsiz as q j).2 := by
  intro as
  induction as with
  | nil =>
    intro bs q j
    rfl
  | cons x as ih =>
    intro bs q j
    rw [List.cons_append, Sha3.updateLoop, Sha3.updateLoop]
    split
    · exact ih bs _ _
    · exact ih bs _ _

/-- Bytes that do not fill the block are only added. -/
theorem updateLoop_partial {rsiz : Nat} : ∀ (bs : List UInt8) (q : Lanes) (j : Nat),
    j + bs.length < rsiz → Sha3.updateLoop rsiz bs q j = (inject q j bs, j + bs.length) := by
  intro bs
  induction bs with
  | nil =>
    intro q j _
    rfl
  | cons x bs ih =>
    intro q j hlt
    rw [List.length_cons] at hlt
    rw [Sha3.updateLoop, if_neg (by omega), ih _ _ (by omega), inject, List.length_cons,
      Nat.add_right_comm, Nat.add_assoc]

/-- Bytes that fill it are added, and the state is permuted behind the last one. -/
theorem updateLoop_block {rsiz : Nat} : ∀ (bs : List UInt8) (q : Lanes) (j : Nat), j < rsiz →
    j + bs.length = rsiz → Sha3.updateLoop rsiz bs q j = (Sha3.sha3Keccakf (inject q j bs), 0) := by
  intro bs
  induction bs with
  | nil =>
    intro q j hj hlen
    rw [List.length_nil] at hlen
    omega
  | cons x bs ih =>
    intro q j hj hlen
    rw [List.length_cons] at hlen
    rw [Sha3.updateLoop, inject]
    by_cases hlast : j + 1 ≥ rsiz
    · obtain rfl : bs = [] := List.length_eq_zero_iff.mp (by omega)
      rw [if_pos hlast]
      rfl
    · rw [if_neg hlast]
      exact ih _ _ (by omega) (by omega)

/-- A chunk that reaches the end of the block: the bytes up to there, and the others. -/
theorem updateLoop_fill {rsiz j left : Nat} {msg : List UInt8} (q : Lanes) (hj : j < rsiz)
    (hleft : j + left = rsiz) (hlen : left ≤ msg.length) : Sha3.updateLoop rsiz msg q j
      = Sha3.updateLoop rsiz (msg.drop left) (Sha3.sha3Keccakf (inject q j (msg.take left))) 0 := by
  have htake : (msg.take left).length = left := by
    rw [List.length_take]
    omega
  have hfill := updateLoop_block (msg.take left) q j hj (by omega)
  have happend := updateLoop_append rsiz (msg.take left) (msg.drop left) q j
  rw [List.take_append_drop, hfill] at happend
  exact happend

/-! ## The buffer of `keccak_update` -/

/-- The first `n` bytes of `ctx->message`. -/
def buffered (message : Vector UInt8 192) (n : Nat) : List UInt8 :=
  (List.range n).map fun k => message.getD k 0

theorem length_buffered (message : Vector UInt8 192) (n : Nat) :
    (buffered message n).length = n := by
  simp [buffered]

theorem getD_buffered {message : Vector UInt8 192} {n k : Nat} (hk : k < n) :
    (buffered message n).getD k 0 = message.getD k 0 := by
  simp [buffered, List.getD_eq_getElem?_getD, hk]

theorem getD_copyAt {message : Vector UInt8 192} {off k : Nat} {bytes : List UInt8} (hk : k < 192) :
    (copyAt message off bytes).getD k 0
      = if off ≤ k ∧ k < off + bytes.length then bytes.getD (k - off) 0 else message.getD k 0 := by
  unfold copyAt
  simp [Vector.getD, hk]

/-- What is copied behind the buffered bytes is buffered with them. -/
theorem buffered_copyAt {message : Vector UInt8 192} {off : Nat} {bytes : List UInt8}
    (h : off + bytes.length ≤ 192) :
    buffered (copyAt message off bytes) (off + bytes.length) = buffered message off ++ bytes := by
  apply List.ext_getElem
  · simp [length_buffered]
  · intro k h1 h2
    rw [length_buffered] at h1
    have hleft : (buffered (copyAt message off bytes) (off + bytes.length))[k]
        = (copyAt message off bytes).getD k 0 := by
      simp [buffered]
    rw [hleft, getD_copyAt (by omega)]
    by_cases hk : k < off
    · rw [if_neg (by omega), List.getElem_append_left (by rw [length_buffered]; exact hk)]
      simp [buffered]
    · rw [if_pos (by omega), List.getElem_append_right (by rw [length_buffered]; omega)]
      simp [length_buffered, List.getD_eq_getElem?_getD, show k - off < bytes.length by omega]

/-! ## Between two calls -/

/-- Both contexts stand at the same byte of a block, and the state of `sha3.c` is that of
`keccak256.c` with the buffered bytes added. -/
structure Agree (ctx : Sha3Ctx) (c : Sha3.Ctx) : Prop where
  position : c.pt = ctx.rest
  inside : ctx.rest < blockSize
  state : c.st = inject ctx.hash 0 (buffered ctx.message ctx.rest)
  rate : c.rsiz = blockSize
  length : c.mdlen = 32

theorem init_agree : Agree keccakInit (Sha3.sha3Init 32) where
  position := rfl
  inside := by decide
  state := rfl
  rate := rfl
  length := rfl

/-- The blocks of a chunk from a block boundary on, and what is left behind them. -/
theorem updateBlocks_agree (aligned : Nat → Bool) : ∀ (rounds : Nat) (ctx : Sha3Ctx)
    (msg : List UInt8), msg.length < rounds →
    Sha3.updateLoop blockSize msg ctx.hash 0
      = (inject (updateBlocks aligned rounds ctx msg).hash 0
          (buffered (updateBlocks aligned rounds ctx msg).message (msg.length % blockSize)),
        msg.length % blockSize) ∧
    (updateBlocks aligned rounds ctx msg).rest = ctx.rest := by
  intro rounds
  induction rounds with
  | zero =>
    intro ctx msg hlt
    exact absurd hlt (Nat.not_lt_zero _)
  | succ rounds ih =>
    intro ctx msg hlt
    have hsize : blockSize = 136 := rfl
    rw [updateBlocks]
    split
    next hblock =>
      -- a whole block, which both permute behind its last byte
      have htake : (msg.take blockSize).length = blockSize := by
        rw [List.length_take]
        omega
      have hprocess : sha3ProcessBlock ctx.hash (fun k => msg.getD k 0)
          = Sha3.sha3Keccakf (inject ctx.hash 0 (msg.take blockSize)) := by
        refine inject_block ctx.hash htake ?_
        intro k hk
        rw [htake] at hk
        simp [List.getD_eq_getElem?_getD, hk]
      have hloop : Sha3.updateLoop blockSize msg ctx.hash 0
          = Sha3.updateLoop blockSize (msg.drop blockSize)
            (sha3ProcessBlock ctx.hash fun k => msg.getD k 0) 0 := by
        rw [updateLoop_fill ctx.hash (by omega) (Nat.zero_add _) hblock, hprocess]
      have hrest : (msg.drop blockSize).length % blockSize = msg.length % blockSize := by
        rw [List.length_drop]
        exact (Nat.mod_eq_sub_mod hblock).symm
      rw [hloop, ← hrest]
      exact ih { ctx with
        hash := sha3ProcessBlock ctx.hash fun k => msg.getD k 0
        message := if aligned rounds then ctx.message
          else copyAt ctx.message 0 (msg.take blockSize) } (msg.drop blockSize)
        (by rw [List.length_drop]; omega)
    next hblock =>
      have hmod : msg.length % blockSize = msg.length := Nat.mod_eq_of_lt (by omega)
      rw [hmod, updateLoop_partial _ _ _ (by omega), Nat.zero_add]
      split
      next =>
        have hbuffer : buffered (copyAt ctx.message 0 msg) (0 + msg.length) = msg :=
          buffered_copyAt (by omega)
        rw [Nat.zero_add] at hbuffer
        rw [hbuffer]
        exact ⟨rfl, rfl⟩
      next hempty =>
        obtain rfl : msg = [] := List.length_eq_zero_iff.mp (not_not.mp hempty)
        exact ⟨rfl, rfl⟩

/-- Behind the blocks the contexts agree, if `rest` already counts what is left. -/
theorem agree_updateBlocks (aligned : Nat → Bool) {rounds : Nat} {ctx : Sha3Ctx} {msg : List UInt8}
    (hrounds : msg.length < rounds) (hrest : ctx.rest = msg.length % blockSize) :
    Agree (updateBlocks aligned rounds ctx msg)
      ⟨(Sha3.updateLoop blockSize msg ctx.hash 0).1, (Sha3.updateLoop blockSize msg ctx.hash 0).2,
        blockSize, 32⟩ := by
  obtain ⟨hloop, hkept⟩ := updateBlocks_agree aligned rounds ctx msg hrounds
  rw [hloop, ← hrest, ← hkept]
  refine ⟨rfl, ?_, rfl, rfl, rfl⟩
  rw [hkept, hrest]
  exact Nat.mod_lt _ (by decide)

/-- A buffer that has been filled up is added byte by byte. -/
theorem process_filled (hash : Lanes) {message : Vector UInt8 192} {idx : Nat} {bytes : List UInt8}
    (h : idx + bytes.length = blockSize) :
    sha3ProcessBlock hash (fun k => (copyAt message idx bytes).getD k 0)
      = Sha3.sha3Keccakf (inject (inject hash 0 (buffered message idx)) idx bytes) := by
  have hsize : blockSize = 136 := rfl
  have hblock : sha3ProcessBlock hash (fun k => (copyAt message idx bytes).getD k 0)
      = Sha3.sha3Keccakf (inject hash 0 (buffered (copyAt message idx bytes) blockSize)) := by
    refine inject_block hash (length_buffered _ blockSize) ?_
    intro k hk
    rw [length_buffered] at hk
    exact (getD_buffered hk).symm
  rw [hblock, ← h, buffered_copyAt (by omega), inject_append, length_buffered, Nat.zero_add]

/-- **A chunk.** Whatever the position, the length of the chunk and the alignment of its
blocks, the contexts agree behind it. -/
theorem update_agree {ctx : Sha3Ctx} {c : Sha3.Ctx} (aligned : Nat → Bool) (msg : List UInt8)
    (h : Agree ctx c) : Agree (keccakUpdate aligned ctx msg) (Sha3.sha3Update c msg) := by
  obtain ⟨hpt, hinside, hst, hrsiz, hmdlen⟩ := h
  obtain ⟨hash, message, rest⟩ := ctx
  obtain ⟨st, pt, rsiz, mdlen⟩ := c
  dsimp only at hpt hinside hst hrsiz hmdlen
  subst hpt hst hrsiz hmdlen
  have hsize : blockSize = 136 := rfl
  unfold keccakUpdate Sha3.sha3Update
  dsimp only
  by_cases hzero : pt = 0
  · -- nothing buffered: the chunk starts at a block boundary
    subst hzero
    rw [if_neg (not_not.mpr rfl)]
    exact agree_updateBlocks aligned (Nat.lt_succ_self _) (congrArg (· % blockSize) (Nat.zero_add _))
  · rw [if_pos hzero]
    by_cases hshort : msg.length < blockSize - pt
    · -- the chunk stays in the buffer
      have hmod : (pt + msg.length) % blockSize = pt + msg.length := Nat.mod_eq_of_lt (by omega)
      rw [if_pos hshort, List.take_of_length_le (by omega), updateLoop_partial _ _ _ (by omega),
        hmod]
      refine ⟨rfl, ?_, ?_, rfl, rfl⟩
      · dsimp only
        omega
      · dsimp only
        rw [buffered_copyAt (by omega), inject_append, length_buffered, Nat.zero_add]
    · -- it fills the buffer, and the blocks behind it follow
      have hleft : pt + (msg.take (blockSize - pt)).length = blockSize := by
        rw [List.length_take]
        omega
      have hfill := updateLoop_fill (inject hash 0 (buffered message pt)) hinside
        (Nat.add_sub_cancel' (Nat.le_of_lt hinside)) (Nat.le_of_not_lt hshort)
      have hrest : (pt + msg.length) % blockSize
          = (msg.drop (blockSize - pt)).length % blockSize := by
        have hsum : pt + msg.length = msg.length - (blockSize - pt) + blockSize := by omega
        rw [List.length_drop, hsum, Nat.add_mod_right]
      rw [if_neg hshort, hfill, ← process_filled hash hleft]
      exact agree_updateBlocks aligned (by rw [List.length_drop]; omega) hrest

/-! ## The padding -/

theorem inject_zeros : ∀ (n : Nat) (q : Lanes) (j : Nat), j + n ≤ 200 →
    inject q j (List.replicate n 0) = q := by
  intro n
  induction n with
  | zero =>
    intro q j _
    rfl
  | succ n ih =>
    intro q j hle
    rw [List.replicate_succ, inject, xorByte_zero _ (by omega), ih _ _ (by omega)]

/-- Two bytes added at one place. -/
theorem xorByte_xorByte (q : Lanes) {j : Nat} (hj : j < 200) (x y : UInt8) :
    xorByte (xorByte q j x) j y = xorByte q j (x ^^^ y) := by
  apply lanes_ext
  intro k _
  unfold xorByte
  rw [lane_set _ (by omega), lane_set _ (by omega), lane_set _ (by omega), Function.update_idem,
    Function.update_self, UInt64.xor_assoc, UInt8.toUInt64_xor, UInt64.shiftLeft_xor]

/-- What `keccak_final` leaves behind the buffered bytes. -/
def padding (rest : Nat) : List UInt8 :=
  if rest + 1 = blockSize then [0x81]
  else 0x01 :: (List.replicate (blockSize - 2 - rest) 0 ++ [0x80])

theorem length_padding {rest : Nat} (h : rest < blockSize) :
    rest + (padding rest).length = blockSize := by
  have hsize : blockSize = 136 := rfl
  unfold padding
  split
  next hlast => exact hlast
  next hlast =>
    simp
    omega

/-- The two bytes of the padding are added as `sha3_final` adds them; at position 135 they
meet in one byte. -/
theorem inject_padding (q : Lanes) {rest : Nat} (h : rest < blockSize) :
    inject q rest (padding rest) = xorByte (xorByte q rest 0x01) (blockSize - 1) 0x80 := by
  have hsize : blockSize = 136 := rfl
  unfold padding
  split
  next hlast =>
    obtain rfl : rest = blockSize - 1 := by omega
    rw [inject, inject, xorByte_xorByte _ (by omega)]
    rfl
  next hlast =>
    have hlast' : rest + 1 + (blockSize - 2 - rest) = blockSize - 1 := by omega
    rw [inject, inject_append, inject_zeros _ _ _ (by omega), List.length_replicate, hlast', inject,
      inject]

theorem getD_of_lt (message : Vector UInt8 192) {k : Nat} (hk : k < 192) :
    message.getD k 0 = message[k] := by
  simp [Vector.getD, hk]

theorem getD_set {message : Vector UInt8 192} {i k : Nat} {x : UInt8} (hk : k < 192) :
    (message.setIfInBounds i x).getD k 0 = if i = k then x else message.getD k 0 := by
  rw [getD_of_lt _ hk, getD_of_lt _ hk, Vector.getElem_setIfInBounds]

theorem getD_padding {rest k : Nat} (h : rest < blockSize) (hk : rest + k < blockSize) :
    (padding rest).getD k 0
      = (if k = 0 then 0x01 else 0) ||| (if rest + k + 1 = blockSize then 0x80 else 0) := by
  have hsize : blockSize = 136 := rfl
  unfold padding
  split
  next hlast =>
    obtain rfl : k = 0 := by omega
    rw [if_pos rfl, if_pos hlast]
    rfl
  next hlast =>
    cases k with
    | zero =>
      rw [if_pos rfl, if_neg hlast]
      rfl
    | succ k =>
      rw [if_neg (Nat.succ_ne_zero k), List.getD_cons_succ, List.getD_eq_getElem?_getD]
      by_cases hend : rest + (k + 1) + 1 = blockSize
      · rw [if_pos hend, List.getElem?_append_right (by simp; omega)]
        simp [show k - (blockSize - 2 - rest) = 0 by omega]
      · rw [if_neg hend, List.getElem?_append_left (by simp; omega)]
        simp [show k < blockSize - 2 - rest by omega]

/-- The block that `keccak_final` processes: the leftovers and the padding. -/
theorem getD_final {message : Vector UInt8 192} {rest k : Nat} (h : rest < blockSize)
    (hk : k < blockSize) :
    let cleared := copyAt message rest (List.replicate (blockSize - rest) 0)
    let first := cleared.setIfInBounds rest (cleared.getD rest 0 ||| 0x01)
    (first.setIfInBounds (blockSize - 1) (first.getD (blockSize - 1) 0 ||| 0x80)).getD k 0
      = (buffered message rest ++ padding rest).getD k 0 := by
  have hsize : blockSize = 136 := rfl
  have hcleared : ∀ i, i < blockSize →
      (copyAt message rest (List.replicate (blockSize - rest) 0)).getD i 0
        = if rest ≤ i then 0 else message.getD i 0 := by
    intro i hi
    rw [getD_copyAt (by omega), List.length_replicate]
    by_cases hrest : rest ≤ i
    · rw [if_pos (by omega), if_pos hrest]
      simp [List.getD_eq_getElem?_getD, show i - rest < blockSize - rest by omega]
    · rw [if_neg (by omega), if_neg hrest]
  have hzero : ∀ i, i < blockSize → rest ≤ i →
      (copyAt message rest (List.replicate (blockSize - rest) 0)).getD i 0 = 0 := by
    intro i hi hrest
    rw [hcleared i hi, if_pos hrest]
  dsimp only
  rw [getD_set (by omega), getD_set (by omega), getD_set (by omega), hzero rest h (Nat.le_refl _),
    hzero (blockSize - 1) (by omega) (by omega)]
  by_cases hrest : k < rest
  · rw [if_neg (show ¬ blockSize - 1 = k by omega), if_neg (show ¬ rest = k by omega),
      hcleared k hk, if_neg (show ¬ rest ≤ k by omega),
      List.getD_append _ _ _ _ (by rw [length_buffered]; exact hrest), getD_buffered hrest]
  · rw [hzero k hk (by omega), List.getD_append_right _ _ _ _ (by rw [length_buffered]; omega),
      length_buffered, getD_padding h (by omega)]
    by_cases hlast : blockSize - 1 = k
    · rw [if_pos hlast, if_pos (show rest + (k - rest) + 1 = blockSize by omega)]
      by_cases hfirst : rest = k
      · rw [if_pos (hfirst.trans hlast.symm), if_pos (show k - rest = 0 by omega)]
        rfl
      · rw [if_neg (show ¬ rest = blockSize - 1 by omega), if_neg (show ¬ k - rest = 0 by omega)]
    · rw [if_neg hlast, if_neg (show ¬ rest + (k - rest) + 1 = blockSize by omega)]
      by_cases hfirst : rest = k
      · rw [if_pos hfirst, if_pos (show k - rest = 0 by omega)]
        rfl
      · rw [if_neg hfirst, if_neg (show ¬ k - rest = 0 by omega)]
        rfl

/-- **The digest.** `keccak_final` writes what `sha3_final` writes for the domain byte
`0x01`. -/
theorem final_agree {ctx : Sha3Ctx} {c : Sha3.Ctx} (h : Agree ctx c) :
    keccakFinal ctx = Sha3.finalWith 0x01 c := by
  obtain ⟨hpt, hinside, hst, hrsiz, hmdlen⟩ := h
  have hlen : (buffered ctx.message ctx.rest ++ padding ctx.rest).length = blockSize := by
    rw [List.length_append, length_buffered, length_padding hinside]
  unfold keccakFinal Sha3.finalWith
  dsimp only
  rw [inject_block ctx.hash hlen (fun k hk => getD_final hinside (hlen ▸ hk)), inject_append,
    length_buffered, Nat.zero_add, inject_padding _ hinside, hpt, hst, hrsiz, hmdlen]
  rfl

/-! ## Whole messages -/

/-- A chunk for `keccak_update`: its `size` is a `uint16_t`. -/
abbrev Chunk := { msg : List UInt8 // msg.length < 2 ^ 16 }

/-- Two chunks for `sha3_update` are one. -/
theorem sha3Update_append (c : Sha3.Ctx) (as bs : List UInt8) :
    Sha3.sha3Update c (as ++ bs) = Sha3.sha3Update (Sha3.sha3Update c as) bs := by
  unfold Sha3.sha3Update
  dsimp only
  rw [updateLoop_append]

/-- The chunks of a message, each with the alignment of its blocks in memory. -/
theorem feeds_agree : ∀ (feeds : List ((Nat → Bool) × Chunk)) (ctx : Sha3Ctx) (c : Sha3.Ctx),
    Agree ctx c →
    Agree (feeds.foldl (fun ctx f => keccakUpdate f.1 ctx f.2.val) ctx)
      (Sha3.sha3Update c (feeds.flatMap fun f => f.2.val)) := by
  intro feeds
  induction feeds with
  | nil =>
    intro ctx c h
    exact h
  | cons f feeds ih =>
    intro ctx c h
    rw [List.foldl_cons, List.flatMap_cons, sha3Update_append]
    exact ih _ _ (update_agree f.1 f.2.val h)

/-- **The two Keccaks of the repository are one function.** The permutations are equal on
every state. For every message and every way to cut it into chunks, empty ones and ones
that end on a block boundary included, `keccak_init`, the `keccak_update`s and
`keccak_final` write the 32 bytes that `sha3.c` writes for the whole message with the
domain byte `0x01`; `get_keccak256` is the case of one chunk. -/
theorem keccak_agree :
    (∀ state : Lanes, sha3Permutation state = Sha3.sha3Keccakf state) ∧
    (∀ feeds : List ((Nat → Bool) × Chunk),
      keccakFinal (feeds.foldl (fun ctx f => keccakUpdate f.1 ctx f.2.val) keccakInit)
        = Sha3.finalWith 0x01
          (Sha3.sha3Update (Sha3.sha3Init 32) (feeds.flatMap fun f => f.2.val))) ∧
    ∀ (aligned : Nat → Bool) (data : Chunk), getKeccak256 aligned data.val
      = Sha3.finalWith 0x01 (Sha3.sha3Update (Sha3.sha3Init 32) data.val) := by
  refine ⟨permutation_eq, ?_, ?_⟩
  · intro feeds
    exact final_agree (feeds_agree feeds _ _ init_agree)
  · intro aligned data
    exact final_agree (update_agree aligned data.val init_agree)

end TinyEvm.Keccak
