import Mathlib.Algebra.Group.Nat.Defs

/-!
# The two-level integers of `uint256.c`

`uint256.h` builds a 256-bit word out of two 128-bit halves and each half out
of two `uint64_t` limbs, most significant first:

* `UPPER(x)` is `x.elements[0]`, here the field `upper`;
* `LOWER(x)` is `x.elements[1]`, here the field `lower`.

So `LOWER(UPPER(w))` is `w.upper.lower` and has weight `2^128`, while
`UPPER(LOWER(w))` is `w.lower.upper` and has weight `2^64`. `Uint256.val` is
the reading of a word that `readu256BE`, `gt256` and `add256` share.

Every routine below writes its result through a `target` pointer; here it
returns it. The in-place calls of the source (`add128` on `UPPER_P(target)`,
`shiftr128(&up, 1, &up)`, `minus256(&resMod, ..., &resMod)`) may be read this way
(`Uint256.InPlace`): each routine has read the limbs it needs before it overwrites
them, or goes through a local `result`. The one that has not, `shiftr128` by 64, is
never called in place.
-/

namespace TinyEvm

/-- `uint128_t`: `elements[0]` is `upper`, `elements[1]` is `lower`. -/
structure Uint128 where
  upper : UInt64
  lower : UInt64
deriving DecidableEq, Repr

/-- `uint256_t`: `elements[0]` is `upper`, `elements[1]` is `lower`. -/
structure Uint256 where
  upper : Uint128
  lower : Uint128
deriving DecidableEq, Repr

/-- The number a `uint128_t` stands for. -/
def Uint128.val (x : Uint128) : Nat := x.upper.toNat * 2 ^ 64 + x.lower.toNat

/-- The number a `uint256_t` stands for. -/
def Uint256.val (w : Uint256) : Nat := w.upper.val * 2 ^ 128 + w.lower.val

/-! ## Reading, clearing, comparing -/

/-- `readUint64BE` over the eight bytes at `buffer`. -/
def readUint64BE (buffer : Nat → UInt8) : UInt64 :=
  ((buffer 0).toUInt64 <<< 56) ||| ((buffer 1).toUInt64 <<< 48) |||
  ((buffer 2).toUInt64 <<< 40) ||| ((buffer 3).toUInt64 <<< 32) |||
  ((buffer 4).toUInt64 <<< 24) ||| ((buffer 5).toUInt64 <<< 16) |||
  ((buffer 6).toUInt64 <<< 8) ||| (buffer 7).toUInt64

def readu128BE (buffer : Nat → UInt8) : Uint128 :=
  ⟨readUint64BE buffer, readUint64BE fun i => buffer (i + 8)⟩

def readu256BE (buffer : Nat → UInt8) : Uint256 :=
  ⟨readu128BE buffer, readu128BE fun i => buffer (i + 16)⟩

def clear128 : Uint128 := ⟨0, 0⟩

def clear256 : Uint256 := ⟨clear128, clear128⟩

def zero128 (number : Uint128) : Bool := number.lower == 0 && number.upper == 0

def zero256 (number : Uint256) : Bool := zero128 number.lower && zero128 number.upper

def equal128 (number1 number2 : Uint128) : Bool :=
  number1.upper == number2.upper && number1.lower == number2.lower

def equal256 (number1 number2 : Uint256) : Bool :=
  equal128 number1.upper number2.upper && equal128 number1.lower number2.lower

def gt128 (number1 number2 : Uint128) : Bool :=
  if number1.upper == number2.upper then number1.lower > number2.lower
  else number1.upper > number2.upper

def gt256 (number1 number2 : Uint256) : Bool :=
  if equal128 number1.upper number2.upper then gt128 number1.lower number2.lower
  else gt128 number1.upper number2.upper

def gte256 (number1 number2 : Uint256) : Bool :=
  gt256 number1 number2 || equal256 number1 number2

/-! ## Addition, subtraction and the bitwise operations -/

def add128 (number1 number2 : Uint128) : Uint128 :=
  ⟨number1.upper + number2.upper +
      (if number1.lower + number2.lower < number1.lower then 1 else 0),
    number1.lower + number2.lower⟩

def add256 (number1 number2 : Uint256) : Uint256 :=
  let upper := add128 number1.upper number2.upper
  let tmp := add128 number1.lower number2.lower
  ⟨if gt128 number1.lower tmp then add128 upper ⟨0, 1⟩ else upper,
    add128 number1.lower number2.lower⟩

def minus128 (number1 number2 : Uint128) : Uint128 :=
  ⟨number1.upper - number2.upper -
      (if number1.lower - number2.lower > number1.lower then 1 else 0),
    number1.lower - number2.lower⟩

def minus256 (number1 number2 : Uint256) : Uint256 :=
  let upper := minus128 number1.upper number2.upper
  let tmp := minus128 number1.lower number2.lower
  ⟨if gt128 tmp number1.lower then minus128 upper ⟨0, 1⟩ else upper,
    minus128 number1.lower number2.lower⟩

/-- `or128`, `xor128` and `and128` act limb by limb. -/
def limbwise128 (f : UInt64 → UInt64 → UInt64) (number1 number2 : Uint128) : Uint128 :=
  ⟨f number1.upper number2.upper, f number1.lower number2.lower⟩

/-- `or256`, `xor256` and `and256` act half by half. -/
def limbwise256 (f : UInt64 → UInt64 → UInt64) (number1 number2 : Uint256) : Uint256 :=
  ⟨limbwise128 f number1.upper number2.upper, limbwise128 f number1.lower number2.lower⟩

def or256 : Uint256 → Uint256 → Uint256 := limbwise256 (· ||| ·)

def xor256 : Uint256 → Uint256 → Uint256 := limbwise256 (· ^^^ ·)

def and256 : Uint256 → Uint256 → Uint256 := limbwise256 (· &&& ·)

def not128 (number : Uint128) : Uint128 := ⟨~~~number.upper, ~~~number.lower⟩

def not256 (number : Uint256) : Uint256 := ⟨not128 number.upper, not128 number.lower⟩

/-! ## Shifts

The tests come in the order of the source; its last `else` (reached by no
amount) clears the target once more. -/

def shiftl128 (number : Uint128) (value : UInt32) : Uint128 :=
  if value ≥ 128 then clear128
  else if value = 64 then ⟨number.lower, 0⟩
  else if value = 0 then number
  else if value < 64 then
    ⟨(number.upper <<< value.toUInt64) + (number.lower >>> (64 - value).toUInt64),
      number.lower <<< value.toUInt64⟩
  else if 128 > value ∧ value > 64 then ⟨number.lower <<< (value - 64).toUInt64, 0⟩
  else clear128

def shiftr128 (number : Uint128) (value : UInt32) : Uint128 :=
  if value ≥ 128 then clear128
  else if value = 64 then ⟨0, number.upper⟩
  else if value = 0 then number
  else if value < 64 then
    ⟨number.upper >>> value.toUInt64,
      (number.upper <<< (64 - value).toUInt64) + (number.lower >>> value.toUInt64)⟩
  else if 128 > value ∧ value > 64 then ⟨0, number.upper >>> (value - 64).toUInt64⟩
  else clear128

def shiftl256 (number : Uint256) (value : UInt32) : Uint256 :=
  if value ≥ 256 then clear256
  else if value = 128 then ⟨number.lower, clear128⟩
  else if value = 0 then number
  else if value < 128 then
    let tmp1 := shiftl128 number.upper value
    let tmp2 := shiftr128 number.lower (128 - value)
    ⟨add128 tmp1 tmp2, shiftl128 number.lower value⟩
  else if 256 > value ∧ value > 128 then ⟨shiftl128 number.lower (value - 128), clear128⟩
  else clear256

def shiftr256 (number : Uint256) (value : UInt32) : Uint256 :=
  if value ≥ 256 then clear256
  else if value = 128 then ⟨clear128, number.upper⟩
  else if value = 0 then number
  else if value < 128 then
    let tmp1 := shiftr128 number.lower value
    let tmp2 := shiftl128 number.upper (128 - value)
    ⟨shiftr128 number.upper value, add128 tmp1 tmp2⟩
  else if 256 > value ∧ value > 128 then ⟨clear128, shiftr128 number.upper (value - 128)⟩
  else clear256

/-! ## Multiplication -/

/-- `x & 0xffffffff`. -/
def low32 (x : UInt64) : UInt64 := x &&& 0xffffffff

/-- `x >> 32`. -/
def high32 (x : UInt64) : UInt64 := x >>> 32

/-- The 32-bit limbs of a `uint128_t`, most significant first: the arrays `top`
and `bottom` of `mul128`. -/
def limbs32 (number : Uint128) : Fin 4 → UInt64
  | 0 => high32 number.upper
  | 1 => low32 number.upper
  | 2 => high32 number.lower
  | 3 => low32 number.lower

def mul128 (number1 number2 : Uint128) : Uint128 :=
  let top := limbs32 number1
  let bottom := limbs32 number2
  -- `products[3 - x][y] = top[x] * bottom[y]`
  let products : Fin 4 → Fin 4 → UInt64 := fun i j => top (3 - i) * bottom j
  let fourth32 := low32 (products 0 3)
  let third32 := low32 (products 0 2) + high32 (products 0 3)
  let second32 := low32 (products 0 1) + high32 (products 0 2)
  let first32 := low32 (products 0 0) + high32 (products 0 1)
  let third32 := third32 + low32 (products 1 3)
  let second32 := second32 + (low32 (products 1 2) + high32 (products 1 3))
  let first32 := first32 + (low32 (products 1 1) + high32 (products 1 2))
  let second32 := second32 + low32 (products 2 3)
  let first32 := first32 + (low32 (products 2 2) + high32 (products 2 3))
  let first32 := first32 + low32 (products 3 3)
  let target := add128 ⟨first32 <<< 32, 0⟩ ⟨high32 third32, third32 <<< 32⟩
  let tmp2 := add128 ⟨second32, 0⟩ target
  add128 ⟨0, fourth32⟩ tmp2

/-! The columns of `mul128`, each with the additions of its `+=` lines. -/

/-- `products[3 - x][y] = top[x] * bottom[y]`. -/
def products (x y : Uint128) (i j : Fin 4) : UInt64 := limbs32 x (3 - i) * limbs32 y j

def fourth32 (x y : Uint128) : UInt64 := low32 (products x y 0 3)

def third32 (x y : Uint128) : UInt64 :=
  low32 (products x y 0 2) + high32 (products x y 0 3) + low32 (products x y 1 3)

def second32 (x y : Uint128) : UInt64 :=
  low32 (products x y 0 1) + high32 (products x y 0 2) +
    (low32 (products x y 1 2) + high32 (products x y 1 3)) + low32 (products x y 2 3)

def first32 (x y : Uint128) : UInt64 :=
  low32 (products x y 0 0) + high32 (products x y 0 1) +
    (low32 (products x y 1 1) + high32 (products x y 1 2)) +
    (low32 (products x y 2 2) + high32 (products x y 2 3)) + low32 (products x y 3 3)

/-- The 64-bit limbs of a `uint256_t`, most significant first, each as the low
half of a `uint128_t`: the arrays `top` and `bottom` of `mul256`. -/
def limbs64 (number : Uint256) : Fin 4 → Uint128
  | 0 => ⟨0, number.upper.upper⟩
  | 1 => ⟨0, number.upper.lower⟩
  | 2 => ⟨0, number.lower.upper⟩
  | 3 => ⟨0, number.lower.lower⟩

/-- `mul256`: the ten partial products that stay below `2^256`, added column by
column. The temporaries `tmp` and `tmp2` are written out at their uses. -/
def mul256 (number1 number2 : Uint256) : Uint256 :=
  let top := limbs64 number1
  let bottom := limbs64 number2
  let products : Fin 4 → Fin 4 → Uint128 := fun i j => mul128 (top (3 - i)) (bottom j)
  let fourth64 : Uint128 := ⟨0, (products 0 3).lower⟩
  let third64 := add128 ⟨0, (products 0 2).lower⟩ ⟨0, (products 0 3).upper⟩
  let second64 := add128 ⟨0, (products 0 1).lower⟩ ⟨0, (products 0 2).upper⟩
  let first64 := add128 ⟨0, (products 0 0).lower⟩ ⟨0, (products 0 1).upper⟩
  let third64 := add128 ⟨0, (products 1 3).lower⟩ third64
  let tmp2 := add128 ⟨0, (products 1 2).lower⟩ second64
  let second64 := add128 ⟨0, (products 1 3).upper⟩ tmp2
  let tmp2 := add128 ⟨0, (products 1 1).lower⟩ first64
  let first64 := add128 ⟨0, (products 1 2).upper⟩ tmp2
  let second64 := add128 ⟨0, (products 2 3).lower⟩ second64
  let tmp2 := add128 ⟨0, (products 2 2).lower⟩ first64
  let first64 := add128 ⟨0, (products 2 3).upper⟩ tmp2
  let first64 := add128 ⟨0, (products 3 3).lower⟩ first64
  let target1 : Uint256 := ⟨shiftl128 first64 64, clear128⟩
  -- the carry of the `2^64` column goes to `UPPER(UPPER(target2))`
  let target2 : Uint256 := ⟨⟨third64.upper, 0⟩, shiftl128 third64 64⟩
  let target := add256 target1 target2
  let target2 := add256 ⟨second64, clear128⟩ target
  add256 ⟨clear128, fourth64⟩ target2

/-! The columns of `mul256`, each with its additions in a row. -/

def products64 (x y : Uint256) (i j : Fin 4) : Uint128 :=
  mul128 (limbs64 x (3 - i)) (limbs64 y j)

def fourth64 (x y : Uint256) : Uint128 := ⟨0, (products64 x y 0 3).lower⟩

def third64 (x y : Uint256) : Uint128 :=
  add128 ⟨0, (products64 x y 1 3).lower⟩
    (add128 ⟨0, (products64 x y 0 2).lower⟩ ⟨0, (products64 x y 0 3).upper⟩)

def second64 (x y : Uint256) : Uint128 :=
  add128 ⟨0, (products64 x y 2 3).lower⟩
    (add128 ⟨0, (products64 x y 1 3).upper⟩
      (add128 ⟨0, (products64 x y 1 2).lower⟩
        (add128 ⟨0, (products64 x y 0 1).lower⟩ ⟨0, (products64 x y 0 2).upper⟩)))

def first64 (x y : Uint256) : Uint128 :=
  add128 ⟨0, (products64 x y 3 3).lower⟩
    (add128 ⟨0, (products64 x y 2 3).upper⟩
      (add128 ⟨0, (products64 x y 2 2).lower⟩
        (add128 ⟨0, (products64 x y 1 2).upper⟩
          (add128 ⟨0, (products64 x y 1 1).lower⟩
            (add128 ⟨0, (products64 x y 0 0).lower⟩ ⟨0, (products64 x y 0 1).upper⟩)))))

/-! ## Division -/

/-- The `while (up) { up >>= 1; result++; }` loop of `bits256` over a
`uint128_t`. A `uint128_t` is zero after at most 128 of its rounds, so the loop
is written over a round counter. -/
def bitsLoop : Nat → Uint128 → UInt32 → UInt32
  | 0, _, result => result
  | rounds + 1, up, result =>
    if zero128 up then result else bitsLoop rounds (shiftr128 up 1) (result + 1)

def bits256 (number : Uint256) : UInt32 :=
  if !zero128 number.upper then bitsLoop 128 number.upper 128
  else bitsLoop 128 number.lower 0

/-- The state of the shift-and-subtract loop of `divmod256`. -/
structure DivState where
  copyd : Uint256
  adder : Uint256
  resDiv : Uint256
  resMod : Uint256
deriving DecidableEq, Repr

/-- One round of the loop of `divmod256`, its guard already tested. -/
def divStep (s : DivState) : DivState :=
  let s' := if gte256 s.resMod s.copyd then
      { s with resMod := minus256 s.resMod s.copyd, resDiv := or256 s.resDiv s.adder }
    else s
  { s' with copyd := shiftr256 s'.copyd 1, adder := shiftr256 s'.adder 1 }

/-- `while (gte256(&resMod, r))` for at most `rounds` rounds; `none` when the
guard still holds after them. -/
def divLoop (r : Uint256) : Nat → DivState → Option DivState
  | 0, s => if gte256 s.resMod r then none else some s
  | rounds + 1, s => if gte256 s.resMod r then divLoop r rounds (divStep s) else some s

/-- `divmod256`: quotient and remainder, `none` when its loop does not end
within `rounds` rounds. -/
def divmod256 (rounds : Nat) (l r : Uint256) : Option (Uint256 × Uint256) :=
  let one : Uint256 := ⟨clear128, ⟨0, 1⟩⟩
  let diffBits := bits256 l - bits256 r
  if gt256 r l then some (clear256, l)
  else
    let copyd := shiftl256 r diffBits
    let adder := shiftl256 one diffBits
    let s : DivState := if gt256 copyd l then
        ⟨shiftr256 copyd 1, shiftr256 adder 1, clear256, l⟩
      else ⟨copyd, adder, clear256, l⟩
    (divLoop r rounds s).map fun s => (s.resDiv, s.resMod)

end TinyEvm
