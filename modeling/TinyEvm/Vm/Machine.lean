import TinyEvm.Lib.Buffer
import TinyEvm.Lib.Exec
import TinyEvm.Uint256.Basic

/-!
# The machine of `evm.h` and its primitive accesses

`Machine` is the `struct machine` of `evm.h`. `Vm` adds what the interpreter
keeps outside it: the published contract of `Ethereum_App.c`, the usage
counters of `eth_vm.c`, and the inputs the program does not compute (the
hardware timer and the contents of uninitialised automatic arrays).

C has no bounds checks. Here every array access that leaves its array, every
store through `NULL` and every loop that never ends is a `Fault`, and the
command it happens in stops with the state it had reached. Nothing else
faults: whatever the source accepts silently (a pop below the bottom of the
stack as long as the slot read is still in `STACK`, a jump to any address) the
model accepts too.

`Vm.slots` is a ghost: the indices of the `STACK` slots read so far, newest
first. No command looks at it.

`printf`, `leds_on` and the `CC2538_CHIP` code (compiled out) have no effect on
this state and are left out.
-/

namespace TinyEvm

open Lib.Buffer

abbrev memorySpace : Nat := 8089
abbrev messageDataSize : Nat := 9
abbrev stackSpace : Nat := 96
abbrev storageSpace : Nat := 64
abbrev gasLimit : UInt32 := 16000000

/-- `DEPLOY_LENGTH`, the size of `deployed_contract`. -/
abbrev deploySpace : Nat := 3000

/-- `Message_Ext`. -/
structure MessageExt where
  callValue : Uint256
  caller : Uint256
  address : Uint256
  data : Fin messageDataSize → UInt8
  datasize : UInt32
  codesize : UInt32

/-- `struct machine`. -/
structure Machine where
  pc : UInt32
  sp : Int
  mem : Fin memorySpace → UInt8
  stack : Fin stackSpace → Uint256
  storage : Fin storageSpace → Uint256
  gasCharge : UInt32
  message : MessageExt

/-- The machine with the globals around it. -/
structure Vm extends Machine where
  deployedContract : Fin deploySpace → UInt8
  deployLength : UInt64
  maxMemOffset : Nat
  maxStorageCounter : Nat
  maxSp : Int
  /-- The values the next calls of `RTIMER_NOW()` return. -/
  rtimer : Nat → UInt32
  /-- What the next automatic arrays hold before they are written. -/
  frames : Nat → Nat → UInt8
  slots : List Int

/-- The globals as a C program starts, all zero. -/
def Vm.zeroed : Vm where
  pc := 0
  sp := 0
  mem := fun _ => 0
  stack := fun _ => clear256
  storage := fun _ => clear256
  gasCharge := 0
  message :=
    { callValue := clear256, caller := clear256, address := clear256, data := fun _ => 0
      datasize := 0, codesize := 0 }
  deployedContract := fun _ => 0
  deployLength := 0
  maxMemOffset := 0
  maxStorageCounter := 0
  maxSp := 0
  rtimer := fun _ => 0
  frames := fun _ _ => 0
  slots := []

/-- A contract as the interpreter sees it: `size` is a `uint32_t`, so an array
of code is shorter than `2^32` bytes. -/
structure Code where
  bytes : List UInt8
  size_lt : bytes.length < 2 ^ 32

def Code.size (c : Code) : Nat := c.bytes.length

/-- What the C abstract machine leaves undefined, or never finishes. -/
inductive Fault where
  | stack (i : Int)
  | mem (i : Nat)
  | storage (i : Nat)
  | code (i : Nat)
  | data (i : Nat)
  | deployed (i : Nat)
  | automatic (i : Nat)
  | null
  | endless
deriving DecidableEq, Repr

abbrev VmM := EStateM Fault Vm

/-! ## Array accesses -/

/-- Read `STACK[i]`. -/
def stackAt (i : Int) : VmM Uint256 := do
  let s ← get
  if h : 0 ≤ i ∧ i < stackSpace then
    set { s with slots := i :: s.slots }
    return s.stack ⟨i.toNat, by omega⟩
  else throw (.stack i)

/-- Write `STACK[i]`. -/
def setStackAt (i : Int) (item : Uint256) : VmM Unit := do
  let s ← get
  if h : 0 ≤ i ∧ i < stackSpace then
    set { s with stack := poke s.stack ⟨i.toNat, by omega⟩ item }
  else throw (.stack i)

/-- Read `s_contract[i]`. -/
def codeAt (sContract : Code) (i : Nat) : VmM UInt8 :=
  match sContract.bytes[i]? with
  | some b => return b
  | none => throw (.code i)

/-- A block of `len` bytes at `s_contract + off`. -/
def codeBlock (sContract : Code) (off len : Nat) : VmM (Nat → UInt8) :=
  if Fits sContract.size off len then return fun k => (sContract.bytes[off + k]?).getD 0
  else throw (.code (off + len))

/-- A block of `len` bytes at `MEM + off`. -/
def memBlock (off len : Nat) : VmM (Nat → UInt8) := do
  let s ← get
  if Fits memorySpace off len then return fun k => peek s.mem 0 (off + k)
  else throw (.mem (off + len))

/-- `memcpy(&MEM[off], bytes, len)`. -/
def setMemBlock (off len : Nat) (bytes : Nat → UInt8) : VmM Unit := do
  if Fits memorySpace off len then
    modify fun s => { s with mem := blit s.mem off len bytes }
  else throw (.mem (off + len))

/-- The 32-bit `size_t` of the target: what `memcpy` makes of a 64-bit length. -/
def sizeT (length : UInt64) : Nat := length.toUInt32.toNat

/-! ## Words in memory

A `uint256_t` is copied to and from memory as the struct it is: limbs most
significant first, the bytes of each limb in the little-endian order of the
target. -/

/-- The eight bytes at `bytes` as a little-endian `uint64_t`. -/
def loadLE64 (bytes : Nat → UInt8) : UInt64 :=
  (bytes 0).toUInt64 ||| ((bytes 1).toUInt64 <<< 8) |||
  ((bytes 2).toUInt64 <<< 16) ||| ((bytes 3).toUInt64 <<< 24) |||
  ((bytes 4).toUInt64 <<< 32) ||| ((bytes 5).toUInt64 <<< 40) |||
  ((bytes 6).toUInt64 <<< 48) ||| ((bytes 7).toUInt64 <<< 56)

/-- Byte `k` of a `uint64_t` in memory. -/
def storeLE64 (x : UInt64) (k : Nat) : UInt8 := (x >>> (8 * k).toUInt64).toUInt8

/-- The 32 bytes at `bytes` as a `uint256_t`. -/
def loadWord (bytes : Nat → UInt8) : Uint256 :=
  ⟨⟨loadLE64 bytes, loadLE64 fun k => bytes (k + 8)⟩,
    ⟨loadLE64 fun k => bytes (k + 16), loadLE64 fun k => bytes (k + 24)⟩⟩

/-- Byte `k` of a `uint256_t` in memory. -/
def storeWord (w : Uint256) (k : Nat) : UInt8 :=
  if k < 8 then storeLE64 w.upper.upper k
  else if k < 16 then storeLE64 w.upper.lower (k - 8)
  else if k < 24 then storeLE64 w.lower.upper (k - 16)
  else storeLE64 w.lower.lower (k - 24)

/-! ## The stack of `eth_vm.c` -/

/-- `stack_push`. A push at `SP >= STACK_SPACE` only prints. -/
def stackPush (item : Uint256) : VmM Unit := do
  let s ← get
  if s.sp ≥ stackSpace then return ()
  else
    set { s with sp := s.sp + 1 }
    setStackAt (s.sp + 1) item

/-- `stack_pop`. -/
def stackPop : VmM Uint256 := do
  let s ← get
  let tmp ← stackAt s.sp
  modify fun s => { s with sp := s.sp - 1 }
  return tmp

/-- `stack_pop` narrowed to its lowest limb, `LOWER(LOWER(stack_pop(..)))`. -/
def stackPopLow : VmM UInt64 := do
  let w ← stackPop
  return w.lower.lower

/-- `GAS_Charge = GAS_Charge + gas`. -/
def charge (gas : UInt32) : VmM Unit :=
  modify fun s => { s with gasCharge := s.gasCharge + gas }

/-- `init_machine`; `shutdown_machine` has the same body. -/
def initMachine : VmM Unit :=
  modify fun s => { s with pc := 0, sp := 0, gasCharge := 0 }

def shutdownMachine : VmM Unit :=
  modify fun s => { s with pc := 0, sp := 0, gasCharge := 0 }

end TinyEvm
