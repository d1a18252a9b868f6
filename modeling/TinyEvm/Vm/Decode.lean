import TinyEvm.Keccak.Basic
import TinyEvm.Vm.Machine
import TinyEvm.Vm.OpCode
import Mathlib.Logic.Function.Iterate

/-!
# `decode_instruction`

One definition for every `case` of the switch, in the order of `eth_vm.c`. Each
returns the status the C function returns: `0` from the `break`s, `-1`, or
`RETURN` (`0xf3`).

Cases with the same body are one definition with parameters: `unary`, `binary`,
`dividing` and `pushing`. A case that differs from its family keeps its own
body: `SUB`, `SLOAD`, `SHA3` and several pushes forget to charge, `DIV` tests
its divisor and passes `NULL` for the remainder, `CODESIZE` and `CALLDATASIZE`
do not charge.
-/

namespace TinyEvm

open Lib.Buffer

/-- The entries of `GAS_TABLE` the interpreter uses. -/
structure GasPrice where
  stepGas2 : UInt32
  stepGas3 : UInt32
  stepGas5 : UInt32
  stepGas8 : UInt32
  stepGas10 : UInt32
  sstoreSetGas : UInt32

def gasTable : GasPrice where
  stepGas2 := 2
  stepGas3 := 3
  stepGas5 := 5
  stepGas8 := 8
  stepGas10 := 10
  sstoreSetGas := 20000

/-- `RETURN` as a status. -/
abbrev returnStatus : Int := 0xf3

/-- `swapLong`: the bytes of a `uint64_t` in reverse. -/
def swapLong (x : UInt64) : UInt64 :=
  let x := ((x &&& 0x00000000FFFFFFFF) <<< 32) ||| ((x &&& 0xFFFFFFFF00000000) >>> 32)
  let x := ((x &&& 0x0000FFFF0000FFFF) <<< 16) ||| ((x &&& 0xFFFF0000FFFF0000) >>> 16)
  ((x &&& 0x00FF00FF00FF00FF) <<< 8) ||| ((x &&& 0xFF00FF00FF00FF00) >>> 8)

/-- A word with only its lowest limb set, as `uint256_t w = {0};
LOWER(LOWER(w)) = x`. -/
def lowWord (x : UInt64) : Uint256 := ⟨clear128, ⟨0, x⟩⟩

/-- The word `zeroORone`. -/
def boolWord (b : Bool) : Uint256 := if b then lowWord 1 else clear256

/-- The four assignments behind the byte loops of `PUSH` and `SHA3`:
`LOWER(LOWER(w)) = element_low_low`, `LOWER(UPPER(w)) = element_low_upp`,
`UPPER(LOWER(w)) = element_upp_low`, `UPPER(UPPER(w)) = element_upp_upp`. -/
def elementsWord (uppUpp uppLow lowUpp lowLow : UInt64) : Uint256 :=
  ⟨⟨uppUpp, lowUpp⟩, ⟨uppLow, lowLow⟩⟩

/-! ## `PUSH` -/

/-- `for(i = 0; i < k; i++) { PC ++; element = ( element << 8 ) | s_contract[PC]; }` -/
def pushBytes (sContract : Code) : Nat → UInt64 → VmM UInt64
  | 0, element => return element
  | k + 1, element => do
    modify fun s => { s with pc := s.pc + 1 }
    let b ← codeAt sContract (← get).pc.toNat
    pushBytes sContract k ((element <<< 8) ||| b.toUInt64)

/-- What the four copies of `PUSH` share: the overflow check on
`SP + numberOfBytes`, the bump of `SP`, and the write of the new top. -/
def pushImmediate (numberOfBytes : Nat) (read : VmM Uint256) : VmM Int := do
  let s ← get
  if s.sp + numberOfBytes ≥ stackSpace then return -1
  set { s with sp := s.sp + 1 }
  let word ← read
  setStackAt (s.sp + 1) word
  charge gasTable.stepGas2
  return 0

def opPush1 (sContract : Code) (numberOfBytes : Nat) : VmM Int :=
  pushImmediate numberOfBytes do
    let lowLow ← pushBytes sContract numberOfBytes 0
    return elementsWord 0 0 0 lowLow

def opPush9 (sContract : Code) (numberOfBytes : Nat) : VmM Int :=
  pushImmediate numberOfBytes do
    let sizeLowUp := numberOfBytes - 1 - 8
    let lowUpp ← pushBytes sContract (sizeLowUp + 1) 0
    let lowLow ← pushBytes sContract 8 0
    return elementsWord 0 0 lowUpp lowLow

def opPush17 (sContract : Code) (numberOfBytes : Nat) : VmM Int :=
  pushImmediate numberOfBytes do
    let sizeLowUp := numberOfBytes - 1 - 16
    let uppLow ← pushBytes sContract (sizeLowUp + 1) 0
    let lowUpp ← pushBytes sContract 8 0
    let lowLow ← pushBytes sContract 8 0
    return elementsWord 0 uppLow lowUpp lowLow

def opPush25 (sContract : Code) (numberOfBytes : Nat) : VmM Int :=
  pushImmediate numberOfBytes do
    let sizeLowUp := numberOfBytes - 1 - 24
    let uppUpp ← pushBytes sContract (sizeLowUp + 1) 0
    let uppLow ← pushBytes sContract 8 0
    let lowUpp ← pushBytes sContract 8 0
    let lowLow ← pushBytes sContract 8 0
    return elementsWord uppUpp uppLow lowUpp lowLow

/-- `PUSHn` for `n = 1, …, 32`. -/
def opPush (sContract : Code) (numberOfBytes : Nat) : VmM Int :=
  if numberOfBytes ≤ 8 then opPush1 sContract numberOfBytes
  else if numberOfBytes ≤ 16 then opPush9 sContract numberOfBytes
  else if numberOfBytes ≤ 24 then opPush17 sContract numberOfBytes
  else opPush25 sContract numberOfBytes

/-! ## Arithmetic and comparisons -/

/-- Pop one word, push a function of it, charge. -/
def unary (f : Uint256 → Uint256) (gas : UInt32) : VmM Int := do
  let top ← stackPop
  stackPush (f top)
  charge gas
  return 0

/-- Pop two words, push a function of them, charge. -/
def binary (f : Uint256 → Uint256 → Uint256) (gas : UInt32) : VmM Int := do
  let number1 ← stackPop
  let number2 ← stackPop
  stackPush (f number1 number2)
  charge gas
  return 0

def opAdd : VmM Int := binary add256 gasTable.stepGas3

def opMul : VmM Int := binary mul256 gasTable.stepGas5

/-- `SUB` does not charge. -/
def opSub : VmM Int := do
  let number1 ← stackPop
  let number2 ← stackPop
  stackPush (minus256 number1 number2)
  return 0

/-- Rounds within which the loop of `divmod256` ends, if it ends at all. -/
abbrev divRounds : Nat := 257

/-- A call of `divmod256`. `retMod` says whether the remainder pointer is there:
both exits of the function store through it. -/
def callDivmod256 (l r : Uint256) (retMod : Bool) : VmM (Uint256 × Uint256) :=
  match divmod256 divRounds l r with
  | none => throw .endless
  | some p => if retMod then return p else throw .null

/-- The `target` of `DIV`. -/
def divTarget (number1 number2 : Uint256) : VmM Uint256 :=
  if zero256 number2 then return clear256
  else do
    let p ← callDivmod256 number1 number2 false
    return p.1

def opDiv : VmM Int := do
  let number1 ← stackPop
  let number2 ← stackPop
  let target ← divTarget number1 number2
  stackPush target
  charge gasTable.stepGas5
  return 0

/-- `SDIV`, `MOD` and `SMOD`: no test of the divisor, one of the two results. -/
def dividing (result : Uint256 × Uint256 → Uint256) : VmM Int := do
  let number1 ← stackPop
  let number2 ← stackPop
  let p ← callDivmod256 number1 number2 true
  stackPush (result p)
  charge gasTable.stepGas5
  return 0

def opSdiv : VmM Int := dividing Prod.fst

def opMod : VmM Int := dividing Prod.snd

def opSmod : VmM Int := dividing Prod.snd

/-- `ADDMOD` and `MULMOD`: a wrapping operation, then the remainder. -/
def modular (f : Uint256 → Uint256 → Uint256) (gas : UInt32) : VmM Int := do
  let number1 ← stackPop
  let number2 ← stackPop
  let moduloN ← stackPop
  let p ← callDivmod256 (f number1 number2) moduloN true
  stackPush p.2
  charge gas
  return 0

def opAddmod : VmM Int := modular add256 gasTable.stepGas5

def opMulmod : VmM Int := modular mul256 gasTable.stepGas8

/-- The loop of `EXP`: `accumulator` starts at zero and is multiplied by `base`
once for every unit of the exponent's lowest limb. -/
def expWord (base exponent : Uint256) : Uint256 :=
  if exponent.lower.lower = 0 then lowWord 1
  else (fun accumulator => mul256 base accumulator)^[exponent.lower.lower.toNat] clear256

def opExp : VmM Int := binary expWord gasTable.stepGas10

/-- `SIGNEXTEND` only prints and charges. -/
def opSignextend : VmM Int := do
  charge gasTable.stepGas5
  return 0

def opLt : VmM Int := binary (fun top bot => boolWord (gt256 bot top)) gasTable.stepGas3

def opGt : VmM Int := binary (fun top bot => boolWord (gt256 top bot)) gasTable.stepGas3

def opSlt : VmM Int := binary (fun top bot => boolWord (gt256 bot top)) gasTable.stepGas3

def opSgt : VmM Int := binary (fun top bot => boolWord (gt256 top bot)) gasTable.stepGas3

def opEq : VmM Int := binary (fun top bot => boolWord (equal256 top bot)) gasTable.stepGas3

def opIszero : VmM Int := unary (fun top => boolWord (zero256 top)) gasTable.stepGas3

def opAnd : VmM Int := binary and256 gasTable.stepGas3

def opOr : VmM Int := binary or256 gasTable.stepGas3

def opXor : VmM Int := binary xor256 gasTable.stepGas3

def opNot : VmM Int := unary not256 gasTable.stepGas3

/-- `BYTE`: the shift is computed in wrapping 32-bit arithmetic. -/
def byteWord (i x : Uint256) : Uint256 :=
  and256 (shiftr256 x (248 - i.lower.lower.toUInt32 * 8)) (lowWord 0xFF)

def opByte : VmM Int := binary byteWord gasTable.stepGas3

def opShl : VmM Int :=
  binary (fun shift value => shiftl256 value shift.lower.lower.toUInt32) gasTable.stepGas3

def opShr : VmM Int :=
  binary (fun shift value => shiftr256 value shift.lower.lower.toUInt32) gasTable.stepGas3

def opSar : VmM Int :=
  binary (fun shift value => shiftr256 value shift.lower.lower.toUInt32) gasTable.stepGas3

/-! ## `SHA3` -/

/-- The contents of the next uninitialised automatic array. -/
def automaticFrame : VmM (Nat → UInt8) := do
  let s ← get
  set { s with frames := fun i => s.frames (i + 1) }
  return s.frames 0

/-- `ptr[i] = swapLong(&ptr[i])` for the first four limbs of `data`. -/
def swapLimbs (data : Nat → UInt8) (k : Nat) : UInt8 :=
  if k < 32 then storeLE64 (swapLong (loadLE64 fun j => data (8 * (k / 8) + j))) (k % 8)
  else data k

/-- `for(i = from; i < from + 8; i++) element = ( element << 8 ) | result[i];` -/
def elementAt (result : List UInt8) (i : Nat) : UInt64 :=
  ((result.drop i).take 8).foldl (fun element b => (element <<< 8) ||| b.toUInt64) 0

/-- The digest as `SHA3` puts it on the stack. -/
def hashWord (result : List UInt8) : Uint256 :=
  elementsWord (elementAt result 0) (elementAt result 8) (elementAt result 16)
    (elementAt result 24)

/-- `SHA3` from the copied `data` on. An array of fewer than 32 bytes is overrun
by the byte swap; `get_keccak256` hashes 32 bytes whatever `length` is. -/
def sha3Result (length : UInt64) (data : Nat → UInt8) : VmM Int :=
  if length < 32 then throw (.automatic length.toNat)
  else do
    stackPush (hashWord (Keccak.getKeccak256 (fun _ => true) ((List.range 32).map (swapLimbs data))))
    return 0

/-- `SHA3` does not charge; for an offset above `MEMORY_SPACE` it hashes what the
automatic array `data` happens to hold. -/
def opSha3 : VmM Int := do
  let offset ← stackPopLow
  let length ← stackPopLow
  if length > 256 then return -1
  else if offset.toNat > memorySpace then
    let data ← automaticFrame
    sha3Result length data
  else
    let data ← memBlock offset.toNat length.toNat
    sha3Result length data

/-! ## Environment -/

/-- Push a word read from the machine, charge. -/
def pushing (item : Vm → Uint256) (gas : UInt32) : VmM Int := do
  stackPush (item (← get))
  charge gas
  return 0

def opAddress : VmM Int := pushing (·.message.address) gasTable.stepGas2

def opCaller : VmM Int := pushing (·.message.caller) gasTable.stepGas2

def opCallvalue : VmM Int := pushing (·.message.callValue) gasTable.stepGas2

/-- Push a word read from the machine, without a charge. -/
def pushingFree (item : Vm → Uint256) : VmM Int := do
  stackPush (item (← get))
  return 0

def opCalldatasize : VmM Int := pushingFree fun s => lowWord s.message.datasize.toUInt64

def opCodesize : VmM Int := pushingFree fun s => lowWord s.message.codesize.toUInt64

/-- `BLOCKHASH` pushes zero and pops nothing. -/
def opBlockhash : VmM Int := pushingFree fun _ => clear256

def opTimestamp : VmM Int := do
  let s ← get
  set { s with rtimer := fun i => s.rtimer (i + 1) }
  stackPush (lowWord (s.rtimer 0).toUInt64)
  return 0

/-- `CALLDATALOAD`: nothing is pushed for an offset above `MESSAGEDATASIZE`,
four bytes are read at offset zero, 32 at any other. -/
def opCalldataload : VmM Int := do
  let offset := (← stackPopLow).toUInt32.toNat
  let s ← get
  if offset > messageDataSize then return 0
  else if offset = 0 then
    let functionName := loadLE64 fun k => if k < 4 then peek s.message.data 0 k else 0
    stackPush ⟨⟨swapLong functionName, 0⟩, clear128⟩
    return 0
  else if Fits messageDataSize offset 32 then
    let w := loadWord fun k => peek s.message.data 0 (offset + k)
    stackPush ⟨⟨swapLong w.upper.upper, swapLong w.upper.lower⟩,
      ⟨swapLong w.lower.upper, swapLong w.lower.lower⟩⟩
    return 0
  else throw (.data (offset + 32))

/-- `CALLDATACOPY`: the bound checks add in wrapping 64-bit arithmetic, and the
bytes come from `s_contract`. -/
def opCalldatacopy (sContract : Code) : VmM Int := do
  let destOffset ← stackPopLow
  let offset ← stackPopLow
  let length ← stackPopLow
  if (destOffset + length).toNat > memorySpace then
    charge gasTable.stepGas2
    return 0
  else if (offset + length).toNat > messageDataSize then
    charge gasTable.stepGas2
    return 0
  else
    let bytes ← codeBlock sContract offset.toNat (sizeT length)
    setMemBlock destOffset.toNat (sizeT length) bytes
    modify fun s => { s with maxMemOffset := max s.maxMemOffset (destOffset + length).toNat }
    charge gasTable.stepGas2
    return 0

/-- `RETURN`: publishes `MEM[offset .. offset + length)`. -/
def opReturn : VmM Int := do
  let offset ← stackPopLow
  let length ← stackPopLow
  let (offset, length) := if (offset + length).toNat > memorySpace
    then ((0 : UInt64), (8088 : UInt64)) else (offset, length)
  let returnValue ← memBlock offset.toNat (sizeT length)
  modify fun s => { s with deployLength := offset + length }
  if Fits deploySpace 0 (sizeT length) then
    modify fun s => { s with deployedContract := blit s.deployedContract 0 (sizeT length) returnValue }
    return returnStatus
  else throw (.deployed (sizeT length))

/-- `BALANCE` only prints. -/
def opBalance : VmM Int := return 0

/-- Eight rounds of `element = ( element << 8 ) | s_contract[Offset]; Offset++;` -/
def codeElement (sContract : Code) : Nat → UInt64 → UInt64 → VmM UInt64
  | 0, _, element => return element
  | k + 1, offset, element => do
    let b ← codeAt sContract offset.toNat
    codeElement sContract k (offset + 1) ((element <<< 8) ||| b.toUInt64)

/-- The loop `while (len > 0)` of `CODECOPY`: 32 code bytes a round, and four
`memcpy`s to the same eight bytes of memory. -/
def codecopyLoop (sContract : Code) (memOffset : Nat) : Nat → Int → UInt64 → VmM Unit
  | 0, _, _ => return ()
  | rounds + 1, len, offset =>
    if len > 0 then do
      let uppUpp ← codeElement sContract 8 offset 0
      let uppLow ← codeElement sContract 8 (offset + 8) 0
      let lowUpp ← codeElement sContract 8 (offset + 16) 0
      let lowLow ← codeElement sContract 8 (offset + 24) 0
      setMemBlock memOffset 8 (storeLE64 uppUpp)
      setMemBlock memOffset 8 (storeLE64 uppLow)
      setMemBlock memOffset 8 (storeLE64 lowUpp)
      setMemBlock memOffset 8 (storeLE64 lowLow)
      codecopyLoop sContract memOffset rounds (len - 32) (offset + 32)
    else return ()

def opCodecopy (sContract : Code) : VmM Int := do
  let memOffset ← stackPopLow
  let offset ← stackPopLow
  let length ← stackPopLow
  if memOffset.toNat > memorySpace then
    charge gasTable.stepGas2
    return 0
  else if length < 100 then
    modify fun s => { s with maxMemOffset := max s.maxMemOffset (memOffset + length).toNat }
    codecopyLoop sContract memOffset.toNat length.toNat length.toNat offset
    charge gasTable.stepGas2
    return 0
  else
    let bytes ← codeBlock sContract offset.toNat (sizeT length)
    setMemBlock memOffset.toNat (sizeT length) bytes
    charge gasTable.stepGas2
    return 0

/-! ## Stack, memory, storage -/

def opPop : VmM Int := do
  let _ ← stackPop
  charge gasTable.stepGas2
  return 0

/-- `MLOAD`: an offset above `MEMORY_SPACE` pushes nothing. -/
def opMload : VmM Int := do
  let offset := (← stackPopLow).toNat
  if offset > memorySpace then
    charge gasTable.stepGas3
    return 0
  else
    let bytes ← memBlock offset 32
    stackPush (loadWord bytes)
    charge gasTable.stepGas3
    return 0

def opMstore : VmM Int := do
  let offset := (← stackPopLow).toNat
  let word ← stackPop
  if offset > memorySpace then
    charge gasTable.stepGas3
    return 0
  else
    setMemBlock offset 32 (storeWord word)
    -- `if (sizeof( word ) > max_mem_offset) max_mem_offset = offset + sizeof( word );`
    modify fun s =>
      { s with maxMemOffset := if 32 > s.maxMemOffset then offset + 32 else s.maxMemOffset }
    charge gasTable.stepGas3
    return 0

def opMstore8 : VmM Int := do
  let offset := (← stackPopLow).toNat
  let word ← stackPopLow
  if offset > memorySpace then
    charge gasTable.stepGas3
    return 0
  else
    setMemBlock offset 1 fun _ => word.toUInt8
    charge gasTable.stepGas3
    return 0

/-- `SSTORE`: the key is narrowed to 64 bits and tested with `key > STORAGE_SPACE`. -/
def opSstore : VmM Int := do
  let key := (← stackPopLow).toNat
  let value ← stackPop
  modify fun s => { s with maxStorageCounter := s.maxStorageCounter + 1 }
  if key > storageSpace then
    charge gasTable.sstoreSetGas
    return 0
  else if h : key < storageSpace then
    modify fun s => { s with storage := poke s.storage ⟨key, h⟩ value }
    charge gasTable.sstoreSetGas
    return 0
  else throw (.storage key)

/-- `SLOAD` does not charge; an invalid key pushes nothing. -/
def opSload : VmM Int := do
  let key := (← stackPopLow).toNat
  let s ← get
  if key > storageSpace then return 0
  else if h : key < storageSpace then
    stackPush (s.storage ⟨key, h⟩)
    return 0
  else throw (.storage key)

/-! ## Control flow -/

/-- `JUMPI`: `PC` is a `uint32_t`, and only the lowest limb of the condition is
tested. No charge. -/
def opJumpi : VmM Int := do
  let destination ← stackPopLow
  let cond ← stackPopLow
  modify fun s => { s with pc := if cond ≠ 0 then destination.toUInt32 else s.pc }
  return 0

def opJumpdest : VmM Int := return 0

/-- `JUMP`: its test `destination < 0` is never true of a `uint64_t`. -/
def opJump : VmM Int := do
  let destination ← stackPopLow
  modify fun s => { s with pc := destination.toUInt32 }
  return 0

/-- `DUPn`, `offset = n - 1`. -/
def opDup (offset : Nat) : VmM Int := do
  let s ← get
  let indexToClone := s.sp - offset
  if indexToClone < 0 then return 0
  else
    let toClone ← stackAt indexToClone
    stackPush toClone
    return 0

/-- `SWAPn`, `offset = n`. -/
def opSwap (offset : Nat) : VmM Int := do
  let s ← get
  let swapOffset := s.sp - offset
  if swapOffset < 0 ∨ swapOffset > stackSpace then return 0
  else
    let tempStore ← stackAt s.sp
    let other ← stackAt swapOffset
    setStackAt s.sp other
    setStackAt swapOffset tempStore
    return 0

/-- `REVERT`: with an offset above `MEMORY_SPACE` the run goes on. The local copy
`return_value[ offset + length ]` is long enough whenever the bytes copied into
it lie in `MEM`, and is never read. -/
def opRevert : VmM Int := do
  let offset ← stackPopLow
  let length ← stackPopLow
  if offset.toNat > memorySpace then
    charge gasTable.stepGas3
    return 0
  else
    let _ ← memBlock offset.toNat (sizeT length)
    return returnStatus

def opStop : VmM Int := do
  shutdownMachine
  return 0

/-- `decode_instruction`. -/
def decodeInstruction (opCodeExc : UInt8) (sContract : Code) : VmM Int :=
  match OpCode.ofByte opCodeExc with
  | .sensor | .temperature | .led => return 0
  | .stop => opStop
  | .push n => opPush sContract (n + 1)
  | .add => opAdd
  | .mul => opMul
  | .sub => opSub
  | .div => opDiv
  | .sdiv => opSdiv
  | .mod => opMod
  | .smod => opSmod
  | .addmod => opAddmod
  | .mulmod => opMulmod
  | .exp => opExp
  | .signextend => opSignextend
  | .lt => opLt
  | .gt => opGt
  | .slt => opSlt
  | .sgt => opSgt
  | .eq => opEq
  | .iszero => opIszero
  | .and => opAnd
  | .or => opOr
  | .xor => opXor
  | .not => opNot
  | .byte => opByte
  | .shl => opShl
  | .shr => opShr
  | .sar => opSar
  | .sha3 => opSha3
  | .address => opAddress
  | .caller => opCaller
  | .callvalue => opCallvalue
  | .calldataload => opCalldataload
  | .calldatasize => opCalldatasize
  | .calldatacopy => opCalldatacopy sContract
  | .ret => opReturn
  | .balance => opBalance
  | .codecopy => opCodecopy sContract
  | .codesize => opCodesize
  | .pop => opPop
  | .mload => opMload
  | .mstore => opMstore
  | .mstore8 => opMstore8
  | .sstore => opSstore
  | .sload => opSload
  | .jumpi => opJumpi
  | .jumpdest => opJumpdest
  | .jump => opJump
  | .dup n => opDup n
  | .swap n => opSwap (n + 1)
  | .log _ => return 0
  | .timestamp => opTimestamp
  | .revert => opRevert
  | .blockhash => opBlockhash
  | .invalid => return 0
  | .unsupported => return -1

end TinyEvm
