import Mathlib.Data.Nat.Notation

/-!
# `keccak256.c`

The Keccak-256 of the interpreter: a 25-lane state, a leftover buffer that is
addressed by bytes, and a permutation with separate theta, rho, pi, chi and iota
passes driven by one compressed table of constants.

`hash` is read and written through `getD` and `setIfInBounds`; every index the
source uses is a constant or a table entry inside the array. The buffer
`message` (24 `uint64_t`, used through `char *`) is its 192 bytes.
`sha3_process_block` reads 17 little-endian lanes of it.
-/

namespace TinyEvm.Keccak

/-- `BLOCK_SIZE`: `(1600 - 256 * 2) / 8`. -/
abbrev blockSize : Nat := 136

/-- `ROTL64` with the XOR of `keccak256.c`. -/
def rotl64 (qword : UInt64) (n : UInt64) : UInt64 := (qword <<< n) ^^^ (qword >>> (64 - n))

/-- The three tables of `constants`: round information, pi and rho. -/
def constants : Array UInt8 := #[
  1, 26, 94, 112, 31, 33, 121, 85, 14, 12, 53, 38, 63, 79, 93, 83, 82, 72, 22, 102, 121, 88, 33, 116,
  1, 6, 9, 22, 14, 20, 2, 12, 13, 19, 23, 15, 4, 24, 21, 8, 16, 5, 3, 18, 17, 11, 7, 10,
  1, 62, 28, 27, 36, 44, 6, 55, 20, 3, 10, 43, 25, 39, 41, 45, 15, 21, 8, 18, 2, 61, 56, 14]

abbrev typeRoundInfo : Nat := 0
abbrev typePiTransform : Nat := 24
abbrev typeRhoTransform : Nat := 48

def getConstant (type index : Nat) : UInt8 := constants.getD (type + index) 0

def getRoundConstant (round : Nat) : UInt64 :=
  let roundInfo := getConstant typeRoundInfo round
  -- `if (roundInfo & (1 << i)) { result |= ((uint64_t)1 << shift); }`
  let bit (i : UInt8) (shift : UInt64) : UInt64 :=
    if roundInfo &&& ((1 : UInt8) <<< i) ≠ 0 then (1 : UInt64) <<< shift else 0
  bit 6 63 ||| bit 5 31 ||| bit 4 15 ||| bit 3 7 ||| bit 2 3 ||| bit 1 1 ||| bit 0 0

/-- A 1600-bit state: 25 lanes. -/
abbrev Lanes := Vector UInt64 25

/-- `A[i]`. -/
def lane {n : Nat} (a : Vector UInt64 n) (i : Nat) : UInt64 := a.getD i 0

def keccakTheta (a : Lanes) : Lanes :=
  let c : Vector UInt64 5 := Vector.ofFn fun i : Fin 5 =>
    lane a i ^^^ lane a (i + 5) ^^^ lane a (i + 10) ^^^ lane a (i + 15) ^^^ lane a (i + 20)
  let d : Vector UInt64 5 := Vector.ofFn fun i : Fin 5 =>
    rotl64 (lane c ((i + 1) % 5)) 1 ^^^ lane c ((i + 4) % 5)
  Vector.ofFn fun k : Fin 25 => lane a k ^^^ lane d (k % 5)

/-- The rho pass of `sha3_permutation`: lane 0 is not rotated. -/
def keccakRho (a : Lanes) : Lanes :=
  Vector.ofFn fun k : Fin 25 =>
    if k.val = 0 then lane a 0
    else rotl64 (lane a k) (getConstant typeRhoTransform (k - 1)).toUInt64

/-- The assignments of `keccak_pi`, one after the other. -/
def piLoop : List Nat → Lanes → Lanes
  | [], a => a
  | i :: is, a => piLoop is (a.setIfInBounds (getConstant typePiTransform (i - 1)).toNat
      (lane a (getConstant typePiTransform i).toNat))

def keccakPi (a : Lanes) : Lanes :=
  (piLoop (List.range' 1 23) a).setIfInBounds 10 (lane a 1)

/-- One row of `keccak_chi`. -/
def chiRow (a : Lanes) (i : Nat) : Lanes :=
  let a0 := lane a i
  let a1 := lane a (1 + i)
  let a := a.setIfInBounds i (lane a i ^^^ (~~~a1 &&& lane a (2 + i)))
  let a := a.setIfInBounds (1 + i) (lane a (1 + i) ^^^ (~~~lane a (2 + i) &&& lane a (3 + i)))
  let a := a.setIfInBounds (2 + i) (lane a (2 + i) ^^^ (~~~lane a (3 + i) &&& lane a (4 + i)))
  let a := a.setIfInBounds (3 + i) (lane a (3 + i) ^^^ (~~~lane a (4 + i) &&& a0))
  a.setIfInBounds (4 + i) (lane a (4 + i) ^^^ (~~~a0 &&& a1))

def keccakChi (a : Lanes) : Lanes := [0, 5, 10, 15, 20].foldl chiRow a

/-- One round of `sha3_permutation`. -/
def permutationRound (state : Lanes) (round : Nat) : Lanes :=
  let a := keccakChi (keccakPi (keccakRho (keccakTheta state)))
  a.setIfInBounds 0 (lane a 0 ^^^ getRoundConstant round)

def sha3Permutation (state : Lanes) : Lanes := (List.range 24).foldl permutationRound state

/-- Lane `i` of a block of bytes, little-endian. -/
def blockLane (block : Nat → UInt8) (i : Nat) : UInt64 :=
  (List.range 8).foldr (fun k acc => (acc <<< 8) ||| (block (8 * i + k)).toUInt64) 0

def sha3ProcessBlock (hash : Lanes) (block : Nat → UInt8) : Lanes :=
  sha3Permutation (Vector.ofFn fun i : Fin 25 =>
    if i.val < 17 then lane hash i ^^^ blockLane block i else lane hash i)

/-- `SHA3_CTX`. -/
structure Sha3Ctx where
  hash : Lanes
  message : Vector UInt8 192
  rest : Nat

def keccakInit : Sha3Ctx := ⟨Vector.replicate 25 0, Vector.replicate 192 0, 0⟩

/-- `memcpy((char *)ctx->message + off, bytes, bytes.length)`. -/
def copyAt (message : Vector UInt8 192) (off : Nat) (bytes : List UInt8) :
    Vector UInt8 192 :=
  Vector.ofFn fun k : Fin 192 =>
    if off ≤ k.val ∧ k.val < off + bytes.length then bytes.getD (k - off) 0
    else message.getD k 0

/-- The `while (size >= BLOCK_SIZE)` loop of `keccak_update` and the copy of the
leftovers behind it. `aligned` answers `IS_ALIGNED_64` for the successive values
of `msg`: an aligned block is hashed where it lies, any other is copied into
`ctx->message` first. -/
def updateBlocks (aligned : Nat → Bool) : Nat → Sha3Ctx → List UInt8 → Sha3Ctx
  | 0, ctx, _ => ctx
  | rounds + 1, ctx, msg =>
    if msg.length ≥ blockSize then
      let message := if aligned rounds then ctx.message
        else copyAt ctx.message 0 (msg.take blockSize)
      let hash := sha3ProcessBlock ctx.hash fun k => msg.getD k 0
      updateBlocks aligned rounds { ctx with hash, message } (msg.drop blockSize)
    else if msg.length ≠ 0 then { ctx with message := copyAt ctx.message 0 msg }
    else ctx

/-- `keccak_update`; `msg` is the chunk of `size` bytes. -/
def keccakUpdate (aligned : Nat → Bool) (ctx : Sha3Ctx) (msg : List UInt8) : Sha3Ctx :=
  let idx := ctx.rest
  let ctx := { ctx with rest := (ctx.rest + msg.length) % blockSize }
  if idx ≠ 0 then
    let left := blockSize - idx
    let message := copyAt ctx.message idx (msg.take left)
    if msg.length < left then { ctx with message }
    else
      let hash := sha3ProcessBlock ctx.hash fun k => message.getD k 0
      updateBlocks aligned (msg.length + 1) { ctx with hash, message } (msg.drop left)
  else updateBlocks aligned (msg.length + 1) ctx msg

/-- `keccak_final`: the 32 bytes it writes. -/
def keccakFinal (ctx : Sha3Ctx) : List UInt8 :=
  let message := copyAt ctx.message ctx.rest (List.replicate (blockSize - ctx.rest) 0)
  let message := message.setIfInBounds ctx.rest (message.getD ctx.rest 0 ||| 0x01)
  let message := message.setIfInBounds (blockSize - 1)
    (message.getD (blockSize - 1) 0 ||| 0x80)
  let hash := sha3ProcessBlock ctx.hash fun k => message.getD k 0
  (List.range 32).map fun k => (lane hash (k / 8) >>> (8 * (k % 8)).toUInt64).toUInt8

/-- `get_keccak256`. -/
def getKeccak256 (aligned : Nat → Bool) (data : List UInt8) : List UInt8 :=
  keccakFinal (keccakUpdate aligned keccakInit data)

end TinyEvm.Keccak
