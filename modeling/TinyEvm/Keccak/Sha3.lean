import TinyEvm.Keccak.Basic

/-!
# `sha3.c`

The second Keccak of the repository, from the tiny SHA-3 of `sha3.c`. It absorbs one
byte at a time into the union `st`, which is 25 lanes `q` and 200 bytes `b` at once:
on a little-endian target byte `j` of `b` is bits `8 (j mod 8) ..` of lane `j / 8`, and
that is how `byteAt` reads and `xorByte` changes it. The permutation `sha3_keccakf`
joins rho and pi in one walk along the cycle of pi, with the lane in flight in `t`, and
takes its round constants from a table.

`sha3_final` is one definition with the domain byte as a parameter: `0x06` in the
source, `0x01` for the padding of `keccak256.c`. The conversions under
`__BYTE_ORDER__ != __ORDER_LITTLE_ENDIAN__` are compiled out, and `shake_xof` and
`shake_out` have no caller.
-/

namespace TinyEvm.Sha3

open Keccak (Lanes lane)

abbrev keccakfRounds : Nat := 24

/-- `ROTL64` with the OR of `sha3.h`. -/
def rotl64 (x y : UInt64) : UInt64 := (x <<< y) ||| (x >>> (64 - y))

def keccakfRndc : Array UInt64 := #[
  0x0000000000000001, 0x0000000000008082, 0x800000000000808a,
  0x8000000080008000, 0x000000000000808b, 0x0000000080000001,
  0x8000000080008081, 0x8000000000008009, 0x000000000000008a,
  0x0000000000000088, 0x0000000080008009, 0x000000008000000a,
  0x000000008000808b, 0x800000000000008b, 0x8000000000008089,
  0x8000000000008003, 0x8000000000008002, 0x8000000000000080,
  0x000000000000800a, 0x800000008000000a, 0x8000000080008081,
  0x8000000000008080, 0x0000000080000001, 0x8000000080008008]

def keccakfRotc : Array UInt64 := #[
  1, 3, 6, 10, 15, 21, 28, 36, 45, 55, 2, 14, 27, 41, 56, 8, 25, 43, 62, 18, 39, 61, 20, 44]

def keccakfPiln : Array Nat := #[
  10, 7, 11, 17, 18, 3, 5, 16, 8, 21, 24, 4, 15, 23, 19, 13, 12, 2, 20, 14, 22, 9, 6, 1]

/-- Theta: the five column parities in `bc`, then `t` into every lane of its column. -/
def theta (st : Lanes) : Lanes :=
  let bc : Vector UInt64 5 := Vector.ofFn fun i : Fin 5 =>
    lane st i ^^^ lane st (i + 5) ^^^ lane st (i + 10) ^^^ lane st (i + 15) ^^^ lane st (i + 20)
  let t (i : Nat) : UInt64 := lane bc ((i + 4) % 5) ^^^ rotl64 (lane bc ((i + 1) % 5)) 1
  Vector.ofFn fun k : Fin 25 => lane st k ^^^ t (k % 5)

/-- The loop of "Rho Pi" over the indices `i`, with the lane in flight in `t`. -/
def rhoPiLoop : List Nat → UInt64 → Lanes → Lanes
  | [], _, st => st
  | i :: is, t, st =>
    let j := keccakfPiln.getD i 0
    rhoPiLoop is (lane st j) (st.setIfInBounds j (rotl64 t (keccakfRotc.getD i 0)))

def rhoPi (st : Lanes) : Lanes := rhoPiLoop (List.range 24) (lane st 1) st

/-- One row of chi: the row is saved in `bc` before it is changed. -/
def chiRow (st : Lanes) (j : Nat) : Lanes :=
  let bc : Vector UInt64 5 := Vector.ofFn fun i : Fin 5 => lane st (j + i)
  (List.range 5).foldl (fun st i => st.setIfInBounds (j + i)
    (lane st (j + i) ^^^ (~~~lane bc ((i + 1) % 5) &&& lane bc ((i + 2) % 5)))) st

def chi (st : Lanes) : Lanes := [0, 5, 10, 15, 20].foldl chiRow st

/-- One round of `sha3_keccakf`. -/
def keccakfRound (st : Lanes) (r : Nat) : Lanes :=
  let st := chi (rhoPi (theta st))
  st.setIfInBounds 0 (lane st 0 ^^^ keccakfRndc.getD r 0)

def sha3Keccakf (st : Lanes) : Lanes := (List.range keccakfRounds).foldl keccakfRound st

/-! ## The sponge -/

/-- `st.b[j]`. -/
def byteAt (q : Lanes) (j : Nat) : UInt8 := (lane q (j / 8) >>> (8 * (j % 8)).toUInt64).toUInt8

/-- `st.b[j] ^= x`. -/
def xorByte (q : Lanes) (j : Nat) (x : UInt8) : Lanes :=
  q.setIfInBounds (j / 8) (lane q (j / 8) ^^^ (x.toUInt64 <<< (8 * (j % 8)).toUInt64))

/-- `sha3_ctx_t`. -/
structure Ctx where
  st : Lanes
  pt : Nat
  rsiz : Nat
  mdlen : Nat

def sha3Init (mdlen : Nat) : Ctx := ⟨Vector.replicate 25 0, 0, 200 - 2 * mdlen, mdlen⟩

/-- The loop of `sha3_update`. -/
def updateLoop (rsiz : Nat) : List UInt8 → Lanes → Nat → Lanes × Nat
  | [], st, j => (st, j)
  | x :: data, st, j =>
    let st := xorByte st j x
    if j + 1 ≥ rsiz then updateLoop rsiz data (sha3Keccakf st) 0
    else updateLoop rsiz data st (j + 1)

def sha3Update (c : Ctx) (data : List UInt8) : Ctx :=
  let p := updateLoop c.rsiz data c.st c.pt
  { c with st := p.1, pt := p.2 }

/-- The body of `sha3_final` for a domain byte. -/
def finalWith (domain : UInt8) (c : Ctx) : List UInt8 :=
  let st := sha3Keccakf (xorByte (xorByte c.st c.pt domain) (c.rsiz - 1) 0x80)
  (List.range c.mdlen).map (byteAt st)

def sha3Final (c : Ctx) : List UInt8 := finalWith 0x06 c

def sha3 (input : List UInt8) (mdlen : Nat) : List UInt8 :=
  sha3Final (sha3Update (sha3Init mdlen) input)

end TinyEvm.Sha3
