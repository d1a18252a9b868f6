import TinyEvm.Keccak.Agree
import TinyEvm.Lib.Sponge

/-!
# `sha3.c` as a sponge

`sha3_update`, `sha3_final`, `shake_xof` and `shake_out` of `sha3.c` go byte by byte
through the state. Between them they compute the sponge of `Lib.Sponge`: the message
with its padding is absorbed block by block, and the output is read off block by
block (`sha3_sponge`, `shake_stream`). The calls may cut message and output wherever
they like. `sha3_final` and `shake_xof` differ in the domain byte, which opens the
padding.
-/

namespace TinyEvm.Sha3

open Lib.Sponge Keccak

def shakeXof (c : Ctx) : Ctx :=
  { c with st := sha3Keccakf (xorByte (xorByte c.st c.pt 0x1F) (c.rsiz - 1) 0x80), pt := 0 }

/-- The loop of `shake_out`. -/
def outLoop (rsiz : Nat) : Nat → Lanes → Nat → List UInt8 × Lanes × Nat
  | 0, st, j => ([], st, j)
  | len + 1, st, j =>
    let p := if j ≥ rsiz then (sha3Keccakf st, 0) else (st, j)
    let rest := outLoop rsiz len p.1 (p.2 + 1)
    (byteAt p.1 p.2 :: rest.1, rest.2)

def shakeOut (c : Ctx) (len : Nat) : List UInt8 × Ctx :=
  let p := outLoop c.rsiz len c.st c.pt
  (p.1, { c with st := p.2.1, pt := p.2.2 })

/-- The output of calls of `shake_out` for the lengths `lens`, one after the other. -/
def shakeOuts : List Nat → Ctx → List UInt8
  | [], _ => []
  | len :: lens, c => (shakeOut c len).1 ++ shakeOuts lens (shakeOut c len).2

/-- What fills a block of `rsiz` bytes with `rest` bytes in it. -/
def pad (domain : UInt8) (rsiz rest : Nat) : List UInt8 :=
  if rest + 1 = rsiz then [domain ^^^ 0x80]
  else domain :: (List.replicate (rsiz - 2 - rest) 0 ++ [0x80])

/-- The state behind a padded message. -/
def absorbed (domain : UInt8) (rsiz : Nat) (data : List UInt8) : Lanes :=
  absorb sha3Keccakf xorByte rsiz (data.length / rsiz + 1)
    (data ++ pad domain rsiz (data.length % rsiz)) (Vector.replicate 25 0)

/-! ## The loops of the library -/

theorem inject_eq : ∀ (bs : List UInt8) (q : Lanes) (j : Nat), inject q j bs = place xorByte q j bs := by
  intro bs
  induction bs with
  | nil =>
    intro q j
    rfl
  | cons x bs ih =>
    intro q j
    exact ih _ _

theorem updateLoop_eq (rsiz : Nat) : ∀ (data : List UInt8) (q : Lanes) (j : Nat),
    updateLoop rsiz data q j = absorbLoop sha3Keccakf xorByte rsiz data q j := by
  intro data
  induction data with
  | nil =>
    intro q j
    rfl
  | cons x data ih =>
    intro q j
    rw [updateLoop, absorbLoop, ih, ih]

theorem outLoop_eq (rsiz : Nat) : ∀ (len : Nat) (q : Lanes) (j : Nat),
    outLoop rsiz len q j = squeezeLoop sha3Keccakf byteAt rsiz len q j := by
  intro len
  induction len with
  | zero =>
    intro q j
    rfl
  | succ len ih =>
    intro q j
    rw [outLoop, squeezeLoop]
    simp only [ih]

theorem shakeOuts_eq : ∀ (lens : List Nat) (c : Ctx),
    shakeOuts lens c = squeezeAll sha3Keccakf byteAt c.rsiz lens c.st c.pt := by
  intro lens
  induction lens with
  | nil =>
    intro c
    rfl
  | cons len lens ih =>
    intro c
    rw [shakeOuts, squeezeAll, ih, shakeOut, outLoop_eq]

/-! ## The padding -/

theorem pad_length (domain : UInt8) {rsiz rest : Nat} (h : rest < rsiz) :
    rest + (pad domain rsiz rest).length = rsiz := by
  unfold pad
  split
  next hlast => exact hlast
  next hlast =>
    simp
    omega

/-- The padding is added in two bytes, at the last position in one. -/
theorem place_pad (domain : UInt8) {rsiz rest : Nat} (q : Lanes) (h : rest < rsiz) (hr : rsiz ≤ 200) :
    place xorByte q rest (pad domain rsiz rest) = xorByte (xorByte q rest domain) (rsiz - 1) 0x80 := by
  rw [← inject_eq]
  unfold pad
  split
  next hlast =>
    obtain rfl : rest = rsiz - 1 := by omega
    rw [inject, inject, xorByte_xorByte _ (by omega)]
  next hlast =>
    have hlast' : rest + 1 + (rsiz - 2 - rest) = rsiz - 1 := by omega
    rw [inject, inject_append, inject_zeros _ _ _ (by omega), List.length_replicate, hlast', inject,
      inject]

/-- **The two bytes of the padding end the absorption.** -/
theorem absorbed_eq (domain : UInt8) {rsiz : Nat} (hr : 0 < rsiz) (hr' : rsiz ≤ 200) (data : List UInt8) :
    let p := updateLoop rsiz data (Vector.replicate 25 0) 0
    sha3Keccakf (xorByte (xorByte p.1 p.2 domain) (rsiz - 1) 0x80) = absorbed domain rsiz data := by
  intro p
  have hp : p = absorbLoop sha3Keccakf xorByte rsiz data (Vector.replicate 25 0) 0 :=
    updateLoop_eq rsiz data _ 0
  have hpos : p.2 = data.length % rsiz := by
    rw [hp, absorbLoop_pos _ _ _ hr, Nat.zero_add]
  have hrest : data.length % rsiz < rsiz := Nat.mod_lt _ hr
  have hlen : (data ++ pad domain rsiz (data.length % rsiz)).length = (data.length / rsiz + 1) * rsiz := by
    have hpad := pad_length domain hrest
    have hsplit := Nat.div_add_mod' data.length rsiz
    rw [List.length_append, Nat.succ_mul]
    omega
  have hall := absorbLoop_eq sha3Keccakf xorByte hr _ _ (Vector.replicate 25 0) hlen
  rw [absorbLoop_append, ← hp, hpos, absorbLoop_block _ _ _ hrest (pad_length domain hrest),
    place_pad domain _ hrest hr'] at hall
  rw [hpos]
  exact (Prod.mk.inj hall).1

/-- Chunks are absorbed as the message they make up. -/
theorem foldl_update : ∀ (chunks : List (List UInt8)) (q : Lanes) (pt rsiz mdlen : Nat),
    chunks.foldl sha3Update ⟨q, pt, rsiz, mdlen⟩
      = ⟨(updateLoop rsiz chunks.flatten q pt).1, (updateLoop rsiz chunks.flatten q pt).2, rsiz, mdlen⟩ := by
  intro chunks
  induction chunks with
  | nil =>
    intro q pt rsiz mdlen
    rfl
  | cons chunk chunks ih =>
    intro q pt rsiz mdlen
    rw [List.foldl_cons, sha3Update, ih, List.flatten_cons, updateLoop_append]

/-! ## The results -/

/-- **`sha3`, `sha3_final`**: the digest is the first `mdlen` bytes of the state that has
absorbed the padded message, whatever chunks it came in. -/
theorem sha3_sponge (mdlen : Nat) (h : 2 * mdlen < 200) (chunks : List (List UInt8)) :
    sha3Final (chunks.foldl sha3Update (sha3Init mdlen))
      = (List.range mdlen).map (byteAt (absorbed 0x06 (200 - 2 * mdlen) chunks.flatten)) := by
  rw [sha3Init, foldl_update]
  unfold sha3Final finalWith
  dsimp only
  rw [absorbed_eq 0x06 (by omega) (by omega)]

theorem sha3_sponge_abc : sha3Final (sha3Update (sha3Update (sha3Init 32) [0x61, 0x62]) [0x63])
    = (List.range 32).map (byteAt (absorbed 0x06 136 [0x61, 0x62, 0x63])) :=
  sha3_sponge 32 (by omega) [[0x61, 0x62], [0x63]]

/-- **`shake_xof`, `shake_out`**: the output is one stream, whatever chunks the message
came in and whatever pieces the output is asked for in: byte `k` is byte `k % rsiz` of
the absorbed state, permuted `k / rsiz` times. -/
theorem shake_stream (mdlen : Nat) (h : 2 * mdlen < 200) (chunks : List (List UInt8)) (lens : List Nat) :
    shakeOuts lens (shakeXof (chunks.foldl sha3Update (sha3Init mdlen)))
      = (List.range lens.sum).map (stream sha3Keccakf byteAt (200 - 2 * mdlen)
          (absorbed 0x1F (200 - 2 * mdlen) chunks.flatten)) := by
  rw [sha3Init, foldl_update, shakeOuts_eq]
  unfold shakeXof
  dsimp only
  rw [absorbed_eq 0x1F (by omega) (by omega), squeezeAll_eq (by omega) lens (at_start _),
    List.range_eq_range']

theorem shake_stream_abc :
    shakeOuts [1, 200] (shakeXof (sha3Update (sha3Update (sha3Init 16) [0x61, 0x62]) [0x63]))
      = (List.range 201).map (stream sha3Keccakf byteAt 168 (absorbed 0x1F 168 [0x61, 0x62, 0x63])) :=
  shake_stream 16 (by omega) [[0x61, 0x62], [0x63]] [1, 200]

end TinyEvm.Sha3
