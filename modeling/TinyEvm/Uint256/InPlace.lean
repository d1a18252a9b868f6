import TinyEvm.Uint256.Div128
import Mathlib.Data.Fintype.Basic
import Mathlib.Data.Option.Basic
import Mathlib.Data.Set.Function
import Mathlib.Logic.Function.Basic
import Mathlib.Tactic.FinCases

/-!
# The routines of `uint256.c` on memory

The routines take pointers and write through `target`, which their callers let be one
of the operands: `shiftr128(&up, 1, &up)`, `minus256(&resMod, &copyd, &resMod)`.
`Uint256.Basic` has them as functions of values. Here they are as they stand in the
source, statement by statement on a memory of `uint128_t` objects; a `uint256_t` is two
of these, the upper one first. A routine that hands the addresses of its locals on keeps
them at its frame `fp`, and gives what it calls a frame above them.

Read and written as values a routine takes all its operands first and writes its target
last. `Call.run` and `Call.eval` are the two readings of a call. They agree over any sequence
of calls with any operands in common, up to what the routines leave above `fp`
(`calls_agree_iff`). There is one exception: `shiftr128` of an object in place by exactly
64 clears the upper limb before it reads it.
-/

namespace TinyEvm.InPlace

open Function

/-- The `uint128_t` objects. -/
abbrev Mem := Nat → Uint128

/-- The `uint256_t` at `p`. -/
def word (m : Mem) (p : Nat) : Uint256 := ⟨m p, m (p + 1)⟩

def put (m : Mem) (p : Nat) (w : Uint256) : Mem := update (update m p w.upper) (p + 1) w.lower

/-- `UPPER_P(p) = x`. -/
def setUpper (m : Mem) (p : Nat) (x : UInt64) : Mem := update m p ⟨x, (m p).lower⟩

/-- `LOWER_P(p) = x`. -/
def setLower (m : Mem) (p : Nat) (x : UInt64) : Mem := update m p ⟨(m p).upper, x⟩

/-! ## The 128-bit routines -/

def copy128 (target number : Nat) (m : Mem) : Mem :=
  let m := setUpper m target (m number).upper
  setLower m target (m number).lower

def clear128 (target : Nat) (m : Mem) : Mem := setLower (setUpper m target 0) target 0

def not128 (number : Nat) (m : Mem) : Mem :=
  let m := setUpper m number (~~~(m number).upper)
  setLower m number (~~~(m number).lower)

/-- `or128`, `xor128` and `and128`. -/
def limbwise128 (f : UInt64 → UInt64 → UInt64) (number1 number2 target : Nat) (m : Mem) : Mem :=
  let m := setUpper m target (f (m number1).upper (m number2).upper)
  setLower m target (f (m number1).lower (m number2).lower)

def add128 (number1 number2 target : Nat) (m : Mem) : Mem :=
  let m := setUpper m target ((m number1).upper + (m number2).upper +
    (if (m number1).lower + (m number2).lower < (m number1).lower then 1 else 0))
  setLower m target ((m number1).lower + (m number2).lower)

def minus128 (number1 number2 target : Nat) (m : Mem) : Mem :=
  let m := setUpper m target ((m number1).upper - (m number2).upper -
    (if (m number1).lower - (m number2).lower > (m number1).lower then 1 else 0))
  setLower m target ((m number1).lower - (m number2).lower)

def shiftl128 (number : Nat) (value : UInt32) (target : Nat) (m : Mem) : Mem :=
  if value ≥ 128 then clear128 target m
  else if value = 64 then
    let m := setUpper m target (m number).lower
    setLower m target 0
  else if value = 0 then copy128 target number m
  else if value < 64 then
    let m := setUpper m target
      (((m number).upper <<< value.toUInt64) + ((m number).lower >>> (64 - value).toUInt64))
    setLower m target ((m number).lower <<< value.toUInt64)
  else if 128 > value ∧ value > 64 then
    let m := setUpper m target ((m number).lower <<< (value - 64).toUInt64)
    setLower m target 0
  else clear128 target m

def shiftr128 (number : Nat) (value : UInt32) (target : Nat) (m : Mem) : Mem :=
  if value ≥ 128 then clear128 target m
  else if value = 64 then
    let m := setUpper m target 0
    setLower m target (m number).upper
  else if value = 0 then copy128 target number m
  else if value < 64 then
    -- `result`, which only `copy128(target, &result)` sees
    let result : Uint128 := ⟨(m number).upper >>> value.toUInt64,
      ((m number).upper <<< (64 - value).toUInt64) + ((m number).lower >>> value.toUInt64)⟩
    setLower (setUpper m target result.upper) target result.lower
  else if 128 > value ∧ value > 64 then
    let m := setLower m target ((m number).upper >>> (value - 64).toUInt64)
    setUpper m target 0
  else clear128 target m

/-- `tmp` and `tmp2` stand at `fp` and `fp + 1`. The limbs of the operands are copied to
`top` and `bottom` first; the sums are those of the columns. -/
def mul128 (fp number1 number2 target : Nat) (m : Mem) : Mem :=
  let x := m number1
  let y := m number2
  let m := update m fp ⟨first32 x y <<< 32, 0⟩
  let m := update m (fp + 1) ⟨high32 (third32 x y), third32 x y <<< 32⟩
  let m := add128 fp (fp + 1) target m
  let m := update m fp ⟨second32 x y, 0⟩
  let m := add128 fp target (fp + 1) m
  let m := update m fp ⟨0, fourth32 x y⟩
  add128 fp (fp + 1) target m

/-! ### What they write -/

section

variable (m : Mem)

@[simp] theorem setUpper_lower (p q : Nat) (x : UInt64) : (setUpper m p x q).lower = (m q).lower := by
  unfold setUpper
  by_cases h : q = p
  · rw [h, update_self]
  · rw [update_of_ne h]

@[simp] theorem setLower_upper (p q : Nat) (x : UInt64) : (setLower m p x q).upper = (m q).upper := by
  unfold setLower
  by_cases h : q = p
  · rw [h, update_self]
  · rw [update_of_ne h]

@[simp] theorem setLower_setUpper (p : Nat) (x y : UInt64) :
    setLower (setUpper m p x) p y = update m p ⟨x, y⟩ := by
  simp [setLower, setUpper]

@[simp] theorem setUpper_setLower (p : Nat) (x y : UInt64) :
    setUpper (setLower m p y) p x = update m p ⟨x, y⟩ := by
  simp [setLower, setUpper]

@[simp] theorem copy128_eq (target number : Nat) : copy128 target number m = update m target (m number) := by
  simp [copy128]

@[simp] theorem clear128_eq (target : Nat) : clear128 target m = update m target TinyEvm.clear128 := by
  simp [clear128, TinyEvm.clear128]

@[simp] theorem not128_eq (number : Nat) : not128 number m = update m number (TinyEvm.not128 (m number)) := by
  simp [not128, TinyEvm.not128]

@[simp] theorem limbwise128_eq (f : UInt64 → UInt64 → UInt64) (number1 number2 target : Nat) :
    limbwise128 f number1 number2 target m
      = update m target (TinyEvm.limbwise128 f (m number1) (m number2)) := by
  simp [limbwise128, TinyEvm.limbwise128]

@[simp] theorem add128_eq (number1 number2 target : Nat) : add128 number1 number2 target m
    = update m target (TinyEvm.add128 (m number1) (m number2)) := by
  simp [add128, TinyEvm.add128]

@[simp] theorem minus128_eq (number1 number2 target : Nat) : minus128 number1 number2 target m
    = update m target (TinyEvm.minus128 (m number1) (m number2)) := by
  simp [minus128, TinyEvm.minus128]

@[simp] theorem shiftl128_eq (number target : Nat) (value : UInt32) : shiftl128 number value target m
    = update m target (TinyEvm.shiftl128 (m number) value) := by
  unfold shiftl128 TinyEvm.shiftl128
  repeat' split
  all_goals simp

/-- The one that must not shift in place by 64. -/
theorem shiftr128_eq {number target : Nat} {value : UInt32}
    (h : number = target → value = 64 → (m number).upper = 0) :
    shiftr128 number value target m = update m target (TinyEvm.shiftr128 (m number) value) := by
  unfold shiftr128 TinyEvm.shiftr128
  by_cases h128 : value ≥ 128
  · simp [h128]
  by_cases h64 : value = 64
  · rw [if_neg h128, if_pos h64, if_neg h128, if_pos h64, setLower_setUpper]
    congr 2
    unfold setUpper
    by_cases halias : number = target
    · rw [halias, update_self, ← halias, h halias h64]
    · rw [update_of_ne halias]
  · rw [if_neg h128, if_neg h64, if_neg h128, if_neg h64]
    repeat' split
    all_goals simp

theorem shiftr128_of_ne {number target : Nat} (h : number ≠ target) (value : UInt32) :
    shiftr128 number value target m = update m target (TinyEvm.shiftr128 (m number) value) :=
  shiftr128_eq m fun h' => absurd h' h

@[simp] theorem shiftr128_one (p : Nat) : shiftr128 p 1 p m = update m p (TinyEvm.shiftr128 (m p) 1) :=
  shiftr128_eq m fun _ h => absurd h (by decide)

theorem shiftr128_clears (p : Nat) : shiftr128 p 64 p m = update m p TinyEvm.clear128 := by
  unfold shiftr128
  rw [if_neg (by decide), if_pos rfl, setLower_setUpper]
  simp [setUpper, TinyEvm.clear128]

end

/-! ## The 256-bit routines -/

def copy256 (target number : Nat) (m : Mem) : Mem :=
  copy128 (target + 1) (number + 1) (copy128 target number m)

def clear256 (target : Nat) (m : Mem) : Mem := clear128 (target + 1) (clear128 target m)

def not256 (number : Nat) (m : Mem) : Mem := not128 (number + 1) (not128 number m)

/-- `or256`, `xor256` and `and256`. -/
def limbwise256 (f : UInt64 → UInt64 → UInt64) (number1 number2 target : Nat) (m : Mem) : Mem :=
  limbwise128 f (number1 + 1) (number2 + 1) (target + 1) (limbwise128 f number1 number2 target m)

/-- The body of `add256` and `minus256`: `op` on the upper halves, and once more with
`one` where the lower halves `carry`. `tmp` stands at `fp`, `one` at `fp + 1`. -/
def carried256 (op : Nat → Nat → Nat → Mem → Mem) (carry : Uint128 → Uint128 → Bool)
    (fp number1 number2 target : Nat) (m : Mem) : Mem :=
  let m := op number1 number2 target m
  let m := op (number1 + 1) (number2 + 1) fp m
  let m := if carry (m (number1 + 1)) (m fp) then
      op target (fp + 1) target (update m (fp + 1) ⟨0, 1⟩)
    else m
  op (number1 + 1) (number2 + 1) (target + 1) m

def add256 : Nat → Nat → Nat → Nat → Mem → Mem := carried256 add128 fun lower tmp => gt128 lower tmp

def minus256 : Nat → Nat → Nat → Nat → Mem → Mem :=
  carried256 minus128 fun lower tmp => gt128 tmp lower

/-- `tmp1` at `fp`, `tmp2` at `fp + 1`, `result` at `fp + 2`. -/
def shiftl256 (fp number : Nat) (value : UInt32) (target : Nat) (m : Mem) : Mem :=
  if value ≥ 256 then clear256 target m
  else if value = 128 then clear128 (target + 1) (copy128 target (number + 1) m)
  else if value = 0 then copy256 target number m
  else if value < 128 then
    let m := shiftl128 number value fp m
    let m := shiftr128 (number + 1) (128 - value) (fp + 1) m
    let m := add128 fp (fp + 1) (fp + 2) m
    let m := shiftl128 (number + 1) value (fp + 3) m
    copy256 target (fp + 2) m
  else if 256 > value ∧ value > 128 then
    clear128 (target + 1) (shiftl128 (number + 1) (value - 128) target m)
  else clear256 target m

/-- `tmp1` at `fp`, `tmp2` at `fp + 1`, `result` at `fp + 2`. -/
def shiftr256 (fp number : Nat) (value : UInt32) (target : Nat) (m : Mem) : Mem :=
  if value ≥ 256 then clear256 target m
  else if value = 128 then clear128 target (copy128 (target + 1) number m)
  else if value = 0 then copy256 target number m
  else if value < 128 then
    let m := shiftr128 number value (fp + 2) m
    let m := shiftr128 (number + 1) value fp m
    let m := shiftl128 number (128 - value) (fp + 1) m
    let m := add128 fp (fp + 1) (fp + 3) m
    copy256 target (fp + 2) m
  else if 256 > value ∧ value > 128 then
    clear128 target (shiftr128 number (value - 128) (target + 1) m)
  else clear256 target m

section

variable {fp number number1 number2 target : Nat} (m : Mem)

/-- Two `uint256_t`: one object, or two that do not overlap. -/
def Aligned (p q : Nat) : Prop := p + 1 ≠ q ∧ q + 1 ≠ p

theorem copy256_eq (h : Aligned number target) :
    copy256 target number m = put m target (word m number) := by
  obtain ⟨h1, h2⟩ := h
  simp [copy256, put, word, update_of_ne h1]

theorem clear256_eq (target : Nat) : clear256 target m = put m target TinyEvm.clear256 := by
  simp [clear256, put, TinyEvm.clear256]

theorem not256_eq (number : Nat) :
    not256 number m = put m number (TinyEvm.not256 (word m number)) := by
  simp [not256, put, word, TinyEvm.not256]

theorem limbwise256_eq (f : UInt64 → UInt64 → UInt64) (h1 : Aligned number1 target)
    (h2 : Aligned number2 target) : limbwise256 f number1 number2 target m
      = put m target (TinyEvm.limbwise256 f (word m number1) (word m number2)) := by
  simp [limbwise256, put, word, TinyEvm.limbwise256, update_of_ne h1.1, update_of_ne h2.1]

/-- To leave a word at `target` and nothing else. -/
theorem eqOn_put {M m : Mem} {w : Uint256} (hupper : M target = w.upper)
    (hlower : M (target + 1) = w.lower)
    (hrest : ∀ p < fp, p ≠ target → p ≠ target + 1 → M p = m p) :
    Set.EqOn M (put m target w) (Set.Iio fp) := by
  intro p hp
  unfold put
  by_cases h1 : p = target + 1
  · rw [h1, update_self, hlower]
  rw [update_of_ne h1]
  by_cases h : p = target
  · rw [h, update_self, hupper]
  · rw [update_of_ne h, hrest p hp h h1]

theorem carried256_eq {op : Nat → Nat → Nat → Mem → Mem} {f : Uint128 → Uint128 → Uint128}
    (hop : ∀ p q t m, op p q t m = update m t (f (m p) (m q))) (carry : Uint128 → Uint128 → Bool)
    (h1fp : number1 + 1 < fp) (h2fp : number2 + 1 < fp) (hfp : target + 1 < fp)
    (h1 : Aligned number1 target) (h2 : Aligned number2 target) :
    Set.EqOn (carried256 op carry fp number1 number2 target m)
      (put m target
        ⟨if carry (m (number1 + 1)) (f (m (number1 + 1)) (m (number2 + 1))) then
            f (f (m number1) (m number2)) ⟨0, 1⟩
          else f (m number1) (m number2),
        f (m (number1 + 1)) (m (number2 + 1))⟩) (Set.Iio fp) := by
  obtain ⟨h1, -⟩ := h1
  obtain ⟨h2, -⟩ := h2
  simp (disch := omega) only [carried256, hop, update_of_ne, update_self]
  split
  all_goals
    refine eqOn_put ?_ ?_ ?_
    · simp (disch := omega) only [update_of_ne, update_self]
    · simp (disch := omega) only [update_of_ne, update_self]
    · intro p hp h h'
      simp (disch := omega) only [update_of_ne]

theorem add256_eq (h1fp : number1 + 1 < fp) (h2fp : number2 + 1 < fp) (hfp : target + 1 < fp)
    (h1 : Aligned number1 target) (h2 : Aligned number2 target) :
    Set.EqOn (add256 fp number1 number2 target m)
      (put m target (TinyEvm.add256 (word m number1) (word m number2))) (Set.Iio fp) :=
  carried256_eq m (fun p q t m => add128_eq m p q t) _ h1fp h2fp hfp h1 h2

theorem minus256_eq (h1fp : number1 + 1 < fp) (h2fp : number2 + 1 < fp) (hfp : target + 1 < fp)
    (h1 : Aligned number1 target) (h2 : Aligned number2 target) :
    Set.EqOn (minus256 fp number1 number2 target m)
      (put m target (TinyEvm.minus256 (word m number1) (word m number2))) (Set.Iio fp) :=
  carried256_eq m (fun p q t m => minus128_eq m p q t) _ h1fp h2fp hfp h1 h2

theorem shiftl256_eq (hfp : number + 1 < fp) (htfp : target + 1 < fp) (h : Aligned number target)
    (value : UInt32) :
    Set.EqOn (shiftl256 fp number value target m)
      (put m target (TinyEvm.shiftl256 (word m number) value)) (Set.Iio fp) := by
  unfold shiftl256 TinyEvm.shiftl256
  by_cases h256 : value ≥ 256
  · rw [if_pos h256, if_pos h256, clear256_eq]
    exact Set.eqOn_refl _ _
  rw [if_neg h256, if_neg h256]
  by_cases h128 : value = 128
  · rw [if_pos h128, if_pos h128, copy128_eq, clear128_eq]
    exact Set.eqOn_refl _ _
  rw [if_neg h128, if_neg h128]
  by_cases h0 : value = 0
  · rw [if_pos h0, if_pos h0, copy256_eq m h]
    exact Set.eqOn_refl _ _
  rw [if_neg h0, if_neg h0]
  by_cases hlow : value < 128
  · rw [if_pos hlow, if_pos hlow]
    obtain ⟨h1, h2⟩ := h
    simp (disch := omega) only [copy256, copy128_eq, shiftl128_eq, shiftr128_of_ne, add128_eq, word,
      update_of_ne, update_self]
    refine eqOn_put ?_ ?_ ?_
    · simp (disch := omega) only [update_of_ne, update_self]
    · simp (disch := omega) only [update_self]
    · intro p hp h h'
      simp (disch := omega) only [update_of_ne]
  rw [if_neg hlow, if_neg hlow]
  split
  · rw [shiftl128_eq, clear128_eq]
    exact Set.eqOn_refl _ _
  · rw [clear256_eq]
    exact Set.eqOn_refl _ _

theorem shiftr256_eq (hfp : number + 1 < fp) (htfp : target + 1 < fp) (h : Aligned number target)
    (value : UInt32) :
    Set.EqOn (shiftr256 fp number value target m)
      (put m target (TinyEvm.shiftr256 (word m number) value)) (Set.Iio fp) := by
  unfold shiftr256 TinyEvm.shiftr256
  by_cases h256 : value ≥ 256
  · rw [if_pos h256, if_pos h256, clear256_eq]
    exact Set.eqOn_refl _ _
  rw [if_neg h256, if_neg h256]
  by_cases h128 : value = 128
  · rw [if_pos h128, if_pos h128, copy128_eq, clear128_eq]
    refine eqOn_put ?_ ?_ ?_
    · simp (disch := omega) only [update_self]
    · simp (disch := omega) only [update_of_ne, update_self, word]
    · intro p hp h h'
      simp (disch := omega) only [update_of_ne]
  rw [if_neg h128, if_neg h128]
  by_cases h0 : value = 0
  · rw [if_pos h0, if_pos h0, copy256_eq m h]
    exact Set.eqOn_refl _ _
  rw [if_neg h0, if_neg h0]
  obtain ⟨h1, h2⟩ := h
  by_cases hlow : value < 128
  · rw [if_pos hlow, if_pos hlow]
    simp (disch := omega) only [copy256, copy128_eq, shiftl128_eq, shiftr128_of_ne, add128_eq, word,
      update_of_ne, update_self]
    refine eqOn_put ?_ ?_ ?_
    · simp (disch := omega) only [update_of_ne, update_self]
    · simp (disch := omega) only [update_self]
    · intro p hp h h'
      simp (disch := omega) only [update_of_ne]
  rw [if_neg hlow, if_neg hlow]
  split
  · rw [shiftr128_of_ne m (by omega), clear128_eq]
    refine eqOn_put ?_ ?_ ?_
    · simp (disch := omega) only [update_self]
    · simp (disch := omega) only [update_of_ne, update_self, word]
    · intro p hp h h'
      simp (disch := omega) only [update_of_ne]
  · rw [clear256_eq]
    exact Set.eqOn_refl _ _

/-! ### Reading what was written -/

theorem word_put (m : Mem) (p : Nat) (w : Uint256) : word (put m p w) p = w := by
  simp (disch := omega) only [word, put, update_of_ne, update_self]

theorem word_congr {M m : Mem} (h : Set.EqOn M m (Set.Iio fp)) {p : Nat} (hp : p + 1 < fp) :
    word M p = word m p := by
  rw [word, word, h (show p < fp by omega), h (show p + 1 < fp by omega)]

/-- The written word. -/
theorem word_of_put {M m : Mem} {p : Nat} {w : Uint256} (h : Set.EqOn M (put m p w) (Set.Iio fp))
    (hp : p + 1 < fp) : word M p = w := by
  rw [word_congr h hp, word_put]

theorem update_congr {M m : Mem} (h : Set.EqOn M m (Set.Iio fp)) (p : Nat) (x : Uint128) :
    Set.EqOn (update M p x) (update m p x) (Set.Iio fp) := by
  intro q hq
  by_cases hqp : q = p
  · rw [hqp, update_self, update_self]
  · rw [update_of_ne hqp, update_of_ne hqp, h hq]

theorem put_congr {M m : Mem} (h : Set.EqOn M m (Set.Iio fp)) (p : Nat) (w : Uint256) :
    Set.EqOn (put M p w) (put m p w) (Set.Iio fp) :=
  update_congr (update_congr h p w.upper) (p + 1) w.lower

theorem put_comm {p q : Nat} (hne : p ≠ q) (hal : Aligned p q) (m : Mem) (v w : Uint256) :
    put (put m p v) q w = put (put m q w) p v := by
  obtain ⟨h1, h2⟩ := hal
  unfold put
  rw [update_comm h1, update_comm (show p + 1 ≠ q + 1 by omega), update_comm hne,
    update_comm (show p ≠ q + 1 by omega)]

/-- Any other object. -/
theorem apart_of_put {M m : Mem} {p : Nat} {w : Uint256} (h : Set.EqOn M (put m p w) (Set.Iio fp))
    {q : Nat} (hq : q < fp) (hne : q ≠ p) (hne' : q ≠ p + 1) : M q = m q := by
  rw [h (show q < fp from hq), put, update_of_ne hne', update_of_ne hne]

/-- Any other word. -/
theorem word_apart_of_put {M m : Mem} {p : Nat} {w : Uint256}
    (h : Set.EqOn M (put m p w) (Set.Iio fp)) {q : Nat} (hq : q + 1 < fp) (hne : p ≠ q)
    (hal : Aligned p q) : word M q = word m q := by
  obtain ⟨h1, h2⟩ := hal
  rw [word, word, apart_of_put h (by omega) (by omega) (by omega),
    apart_of_put h (by omega) (by omega) (by omega)]

end

/-! ## Multiplication -/

theorem mul128_eq {fp number1 number2 target : Nat} (m : Mem) (ht : target < fp) :
    Set.EqOn (mul128 fp number1 number2 target m)
      (update m target (TinyEvm.mul128 (m number1) (m number2))) (Set.Iio fp) := by
  intro p hp
  have hp : p < fp := hp
  simp (disch := omega) only [mul128, add128_eq, update_of_ne, update_self]
  by_cases h : p = target
  · rw [h, update_self, update_self]
    rfl
  · simp (disch := omega) only [update_of_ne]

/-- `target1` at `fp` and `target2` at `fp + 2` before the first sum, the columns from
`fp + 4` on. Up to these the routine works on copies of the limbs and on locals only. -/
def mulStart (fp : Nat) (x y : Uint256) (m : Mem) : Mem :=
  let m := update m (fp + 4) (first64 x y)
  let m := update m (fp + 5) (second64 x y)
  let m := update m (fp + 6) (third64 x y)
  let m := update m (fp + 7) (fourth64 x y)
  let m := clear256 fp m
  let m := shiftl128 (fp + 4) 64 fp m
  let m := clear256 (fp + 2) m
  let m := setUpper m (fp + 2) (m (fp + 6)).upper
  shiftl128 (fp + 6) 64 (fp + 3) m

def mul256 (fp number1 number2 target : Nat) (m : Mem) : Mem :=
  let m := mulStart fp (word m number1) (word m number2) m
  let m := add256 (fp + 8) fp (fp + 2) target m
  let m := clear256 fp m
  let m := copy128 fp (fp + 5) m
  let m := add256 (fp + 8) fp target (fp + 2) m
  let m := clear256 fp m
  let m := copy128 (fp + 1) (fp + 7) m
  add256 (fp + 8) fp (fp + 2) target m

theorem mul256_columns (x y : Uint256) : TinyEvm.mul256 x y =
    TinyEvm.add256 ⟨TinyEvm.clear128, fourth64 x y⟩
      (TinyEvm.add256 ⟨second64 x y, TinyEvm.clear128⟩
        (TinyEvm.add256 ⟨TinyEvm.shiftl128 (first64 x y) 64, TinyEvm.clear128⟩
          ⟨⟨(third64 x y).upper, 0⟩, TinyEvm.shiftl128 (third64 x y) 64⟩)) := rfl

section

variable {fp target : Nat} {x y : Uint256} (m : Mem)

theorem mulStart_target1 : word (mulStart fp x y m) fp
    = ⟨TinyEvm.shiftl128 (first64 x y) 64, TinyEvm.clear128⟩ := by
  simp (disch := omega) only [mulStart, clear256, clear128_eq, shiftl128_eq, setUpper, word,
    update_of_ne, update_self]

theorem mulStart_target2 : word (mulStart fp x y m) (fp + 2)
    = ⟨⟨(third64 x y).upper, 0⟩, TinyEvm.shiftl128 (third64 x y) 64⟩ := by
  simp (disch := omega) only [mulStart, clear256, clear128_eq, shiftl128_eq, setUpper, word,
    update_of_ne, update_self, TinyEvm.clear128]

theorem mulStart_columns :
    mulStart fp x y m (fp + 5) = second64 x y ∧ mulStart fp x y m (fp + 7) = fourth64 x y := by
  simp (disch := omega) only [mulStart, clear256, clear128_eq, shiftl128_eq, setUpper,
    update_of_ne, update_self, and_self]

theorem mulStart_below {p : Nat} (hp : p < fp) : mulStart fp x y m p = m p := by
  simp (disch := omega) only [mulStart, clear256, clear128_eq, shiftl128_eq, setUpper, update_of_ne]

/-- `target1` as a column in its upper half. -/
theorem word_upperHalf {k : Nat} (hk : 1 < k) :
    word (copy128 fp (fp + k) (clear256 fp m)) fp = ⟨m (fp + k), TinyEvm.clear128⟩ := by
  simp (disch := omega) only [clear256, clear128_eq, copy128_eq, word, update_of_ne, update_self]

/-- And in its lower half. -/
theorem word_lowerHalf {k : Nat} (hk : 1 < k) :
    word (copy128 (fp + 1) (fp + k) (clear256 fp m)) fp = ⟨TinyEvm.clear128, m (fp + k)⟩ := by
  simp (disch := omega) only [clear256, clear128_eq, copy128_eq, word, update_of_ne, update_self]

theorem half_apart {h : Nat} (hh : h = fp ∨ h = fp + 1) (k : Nat) {p : Nat} (hp : p ≠ fp)
    (hp' : p ≠ fp + 1) : copy128 h (fp + k) (clear256 fp m) p = m p := by
  simp (disch := omega) only [clear256, clear128_eq, copy128_eq, update_of_ne]

theorem mul256_eq {number1 number2 : Nat} (ht : target + 1 < fp) :
    Set.EqOn (mul256 fp number1 number2 target m)
      (put m target (TinyEvm.mul256 (word m number1) (word m number2))) (Set.Iio fp) := by
  rw [mul256_columns]
  unfold mul256
  generalize word m number1 = x
  generalize word m number2 = y
  extract_lets m₀ m₁ m₂ m₃ m₄ m₅ m₆
  have hsecond : m₀ (fp + 5) = second64 x y := (mulStart_columns m).1
  have hfourth : m₀ (fp + 7) = fourth64 x y := (mulStart_columns m).2
  have hal : Aligned fp target := ⟨by omega, by omega⟩
  have hal2 : Aligned (fp + 2) target := ⟨by omega, by omega⟩
  -- `target = target1 + target2`
  have h₁ : Set.EqOn m₁ (put m₀ target _) _ := @add256_eq (fp + 8) fp (fp + 2) target m₀
    (by omega) (by omega) (by omega) hal hal2
  rw [mulStart_target1, mulStart_target2] at h₁
  have hrest₃ : ∀ p, p ≠ fp → p ≠ fp + 1 → m₃ p = m₁ p := fun p => half_apart m₁ (Or.inl rfl) 5
  have hupper : word m₃ fp = ⟨second64 x y, TinyEvm.clear128⟩ := by
    rw [word_upperHalf m₁ (by omega), apart_of_put h₁ (by omega) (by omega) (by omega), hsecond]
  have hsum₁ : word m₃ target = word m₁ target := by
    rw [word, hrest₃ target (by omega) (by omega), hrest₃ (target + 1) (by omega) (by omega), ← word]
  -- `target2 = target1 + target`
  have h₂ : Set.EqOn m₄ (put m₃ (fp + 2) _) _ := @add256_eq (fp + 8) fp target (fp + 2)
    m₃ (by omega) (by omega) (by omega) ⟨by omega, by omega⟩ ⟨by omega, by omega⟩
  rw [hupper, hsum₁, word_of_put h₁ (by omega)] at h₂
  have hrest₆ : ∀ p, p ≠ fp → p ≠ fp + 1 → m₆ p = m₄ p := fun p => half_apart m₄ (Or.inr rfl) 7
  have hlower : word m₆ fp = ⟨TinyEvm.clear128, fourth64 x y⟩ := by
    rw [word_lowerHalf m₄ (by omega), apart_of_put h₂ (by omega) (by omega) (by omega),
      hrest₃ _ (by omega) (by omega), apart_of_put h₁ (by omega) (by omega) (by omega), hfourth]
  have hsum₂ : word m₆ (fp + 2) = word m₄ (fp + 2) := by
    rw [word, hrest₆ (fp + 2) (by omega) (by omega), hrest₆ (fp + 2 + 1) (by omega) (by omega), ← word]
  -- `target = target1 + target2`
  have h₃ := @add256_eq (fp + 8) fp (fp + 2) target m₆
    (by omega) (by omega) (by omega) hal hal2
  rw [hlower, hsum₂, word_of_put h₂ (by omega)] at h₃
  have hresult := word_of_put h₃ (by omega)
  refine eqOn_put (congrArg Uint256.upper hresult) (congrArg Uint256.lower hresult) ?_
  intro p hp hne hne'
  calc add256 (fp + 8) fp (fp + 2) target m₆ p
      = m₆ p := apart_of_put h₃ (by omega) hne hne'
    _ = m₄ p := hrest₆ p (by omega) (by omega)
    _ = m₃ p := apart_of_put h₂ (by omega) (by omega) (by omega)
    _ = m₁ p := hrest₃ p (by omega) (by omega)
    _ = m₀ p := apart_of_put h₁ (by omega) hne hne'
    _ = m p := mulStart_below m hp

end

/-! ## Division -/

/-- `while (!zero128(&up)) { shiftr128(&up, 1, &up); result++; }`, with `up` in memory. -/
def bitsLoop : Nat → Nat → UInt32 → Mem → UInt32 × Mem
  | 0, _, result, m => (result, m)
  | rounds + 1, up, result, m =>
    if zero128 (m up) then (result, m) else bitsLoop rounds up (result + 1) (shiftr128 up 1 up m)

/-- `up` or `low` at `fp`. -/
def bits256 (fp number : Nat) (m : Mem) : UInt32 × Mem :=
  if !zero128 (m number) then bitsLoop 128 fp 128 (copy128 fp number m)
  else bitsLoop 128 fp 0 (copy128 fp (number + 1) m)

/-- One round of the loop of `divmod128`: `copyd` at `fp`, `adder` at `fp + 1`, `resDiv` at
`fp + 2` and `resMod` at `fp + 3`. -/
def divStep128 (fp : Nat) (m : Mem) : Mem :=
  let m := if gte128 (m (fp + 3)) (m fp) then
      let m := minus128 (fp + 3) fp (fp + 3) m
      limbwise128 (· ||| ·) (fp + 2) (fp + 1) (fp + 2) m
    else m
  let m := shiftr128 fp 1 fp m
  shiftr128 (fp + 1) 1 (fp + 1) m

def divLoop128 (fp r : Nat) : Nat → Mem → Option Mem
  | 0, m => if gte128 (m (fp + 3)) (m r) then none else some m
  | rounds + 1, m =>
    if gte128 (m (fp + 3)) (m r) then divLoop128 fp r rounds (divStep128 fp m) else some m

/-- `one` at `fp + 4`. -/
def divmod128 (rounds fp l r retDiv retMod : Nat) (m : Mem) : Option Mem :=
  let m := update m (fp + 4) ⟨0, 1⟩
  let diffBits := bits128 (m l) - bits128 (m r)
  let m := clear128 (fp + 2) m
  let m := copy128 (fp + 3) l m
  if gt128 (m r) (m l) then
    let m := copy128 retMod l m
    some (clear128 retDiv m)
  else
    let m := shiftl128 r diffBits fp m
    let m := shiftl128 (fp + 4) diffBits (fp + 1) m
    let m := if gt128 (m fp) (m (fp + 3)) then
        shiftr128 (fp + 1) 1 (fp + 1) (shiftr128 fp 1 fp m)
      else m
    (divLoop128 fp r rounds m).map fun m => copy128 retMod (fp + 3) (copy128 retDiv (fp + 2) m)

/-- One round of the loop of `divmod256`: `copyd` at `fp`, `adder` at `fp + 2`, `resDiv` at
`fp + 4` and `resMod` at `fp + 6`. -/
def divStep (fp : Nat) (m : Mem) : Mem :=
  let m := if gte256 (word m (fp + 6)) (word m fp) then
      let m := minus256 (fp + 10) (fp + 6) fp (fp + 6) m
      limbwise256 (· ||| ·) (fp + 4) (fp + 2) (fp + 4) m
    else m
  let m := shiftr256 (fp + 10) fp 1 fp m
  shiftr256 (fp + 10) (fp + 2) 1 (fp + 2) m

def divLoop (fp r : Nat) : Nat → Mem → Option Mem
  | 0, m => if gte256 (word m (fp + 6)) (word m r) then none else some m
  | rounds + 1, m =>
    if gte256 (word m (fp + 6)) (word m r) then divLoop fp r rounds (divStep fp m) else some m

/-- What comes before the test `gt256(r, l)`, with `diffBits`; `one` at `fp + 8`. -/
def divSetup (fp l r : Nat) (m : Mem) : UInt32 × Mem :=
  let m := clear256 (fp + 8) m
  let m := setUpper m (fp + 9) 0
  let m := setLower m (fp + 9) 1
  let bitsL := bits256 (fp + 10) l m
  let bitsR := bits256 (fp + 10) r bitsL.2
  let m := clear256 (fp + 4) bitsR.2
  (bitsL.1 - bitsR.1, copy256 (fp + 6) l m)

/-- And before the loop. -/
def divAlign (fp r : Nat) (diffBits : UInt32) (m : Mem) : Mem :=
  let m := shiftl256 (fp + 10) r diffBits fp m
  let m := shiftl256 (fp + 10) (fp + 8) diffBits (fp + 2) m
  if gt256 (word m fp) (word m (fp + 6)) then
    let m := shiftr256 (fp + 10) fp 1 fp m
    shiftr256 (fp + 10) (fp + 2) 1 (fp + 2) m
  else m

def divmod256 (rounds fp l r retDiv retMod : Nat) (m : Mem) : Option Mem :=
  let diffBits := (divSetup fp l r m).1
  let m := (divSetup fp l r m).2
  if gt256 (word m r) (word m l) then
    let m := copy256 retMod l m
    some (clear256 retDiv m)
  else
    (divLoop fp r rounds (divAlign fp r diffBits m)).map fun m =>
      let m := copy256 retDiv (fp + 4) m
      copy256 retMod (fp + 6) m

/-! ### `divmod128` -/

section

variable {fp : Nat} {m : Mem}

/-- Equal below the frame, or both without an end. -/
def Agree (fp : Nat) : Option Mem → Option Mem → Prop :=
  Option.Rel fun m m' => Set.EqOn m m' (Set.Iio fp)

/-- Related results of two computations that may not end. -/
theorem rel_map {α β γ δ : Type} {R : α → β → Prop} {S : γ → δ → Prop} {f : α → γ} {g : β → δ}
    (hfg : ∀ a b, R a b → S (f a) (g b)) {a : Option α} {b : Option β} (h : Option.Rel R a b) :
    Option.Rel S (a.map f) (b.map g) := by
  cases h with
  | some h => exact Option.Rel.some (hfg _ _ h)
  | none => exact Option.Rel.none

/-- The locals of the loop, and everything else as in `m`. -/
structure Locals128 (fp : Nat) (m M : Mem) (s : DivState128) : Prop where
  copyd : M fp = s.copyd
  adder : M (fp + 1) = s.adder
  resDiv : M (fp + 2) = s.resDiv
  resMod : M (fp + 3) = s.resMod
  below : ∀ p < fp, M p = m p

theorem Locals128.step {M : Mem} {s : DivState128} (h : Locals128 fp m M s) :
    Locals128 fp m (divStep128 fp M) (TinyEvm.divStep128 s) := by
  obtain ⟨hcopyd, hadder, hresDiv, hresMod, hbelow⟩ := h
  unfold divStep128 TinyEvm.divStep128
  rw [hcopyd, hresMod]
  split
  next =>
    refine ⟨?_, ?_, ?_, ?_, fun p hp => ?_⟩
    all_goals
      simp (disch := omega) only [minus128_eq, limbwise128_eq, shiftr128_one, or128, update_of_ne,
        update_self, hcopyd, hadder, hresDiv, hresMod, hbelow]
  next =>
    refine ⟨?_, ?_, ?_, ?_, fun p hp => ?_⟩
    all_goals
      simp (disch := omega) only [shiftr128_one, update_of_ne, update_self, hcopyd, hadder, hresDiv,
        hresMod, hbelow]

theorem Locals128.loop {r : Nat} (hr : r < fp) : ∀ (rounds : Nat) {M : Mem} {s : DivState128},
    Locals128 fp m M s → Option.Rel (Locals128 fp m) (divLoop128 fp r rounds M)
      (TinyEvm.divLoop128 (m r) rounds s) := by
  intro rounds
  induction rounds with
  | zero =>
    intro M s h
    rw [divLoop128, TinyEvm.divLoop128, h.resMod, h.below r hr]
    split
    · exact Option.Rel.none
    · exact Option.Rel.some h
  | succ rounds ih =>
    intro M s h
    rw [divLoop128, TinyEvm.divLoop128, h.resMod, h.below r hr]
    split
    · exact ih h.step
    · exact Option.Rel.some h

theorem divmod128_eq {l r retDiv retMod : Nat} (rounds : Nat) (m : Mem) (hl : l < fp) (hr : r < fp)
    (hd : retDiv < fp) (hne : retDiv ≠ retMod) :
    Agree fp (divmod128 rounds fp l r retDiv retMod m)
      ((TinyEvm.divmod128 rounds (m l) (m r)).map fun x => update (update m retDiv x.1) retMod x.2) := by
  unfold divmod128 TinyEvm.divmod128
  simp (disch := omega) only [clear128_eq, copy128_eq, shiftl128_eq, shiftr128_one, update_of_ne,
    update_self]
  split
  next =>
    rw [update_comm (show retMod ≠ retDiv from Ne.symm hne)]
    refine Option.Rel.some (update_congr (update_congr ?_ _ _) _ _)
    intro p hp
    have hp : p < fp := hp
    simp (disch := omega) only [update_of_ne]
  next =>
    rw [Option.map_map]
    refine rel_map (R := Locals128 fp m) ?_ (Locals128.loop hr rounds ?_)
    · intro M s h
      rw [h.resDiv, h.resMod]
      exact update_congr (update_congr h.below _ _) _ _
    · unfold divStart128
      split
      next hgt =>
        rw [if_pos hgt]
        refine ⟨?_, ?_, ?_, ?_, fun p hp => ?_⟩
        all_goals simp (disch := omega) only [update_of_ne, update_self]
      next hgt =>
        rw [if_neg hgt]
        refine ⟨?_, ?_, ?_, ?_, fun p hp => ?_⟩
        all_goals simp (disch := omega) only [update_of_ne, update_self]

end

/-! ### `divmod256` -/

/-- The locals of `divmod256`, in the order of its frame. -/
def getLocal (s : DivState) : Fin 4 → Uint256
  | 0 => s.copyd
  | 1 => s.adder
  | 2 => s.resDiv
  | 3 => s.resMod

def setLocal (s : DivState) (i : Fin 4) (w : Uint256) : DivState :=
  match i with
  | 0 => { s with copyd := w }
  | 1 => { s with adder := w }
  | 2 => { s with resDiv := w }
  | 3 => { s with resMod := w }

theorem getLocal_setLocal (s : DivState) (i j : Fin 4) (w : Uint256) :
    getLocal (setLocal s i w) j = if j = i then w else getLocal s j := by
  fin_cases i <;> fin_cases j <;> rfl

section

variable {fp : Nat} {m : Mem}

/-- The locals of the loop, and everything else as in `m`. -/
structure Locals256 (fp : Nat) (m M : Mem) (s : DivState) : Prop where
  locals : ∀ i : Fin 4, word M (fp + 2 * i) = getLocal s i
  below : ∀ p < fp, M p = m p

/-- A local is written by what is called with the frame above them. -/
theorem Locals256.write {M M' : Mem} {s : DivState} (h : Locals256 fp m M s) {i : Fin 4} {w : Uint256}
    (hput : Set.EqOn M' (put M (fp + 2 * i) w) (Set.Iio (fp + 10))) :
    Locals256 fp m M' (setLocal s i w) := by
  constructor
  · intro j
    rw [getLocal_setLocal]
    split
    next heq => rw [heq, word_of_put hput (by omega)]
    next hne =>
      have hval : (j : Nat) ≠ i := fun h => hne (Fin.ext h)
      rw [word_apart_of_put hput (by omega) (by omega) ⟨by omega, by omega⟩, h.locals]
  · intro p hp
    rw [apart_of_put hput (by omega) (by omega) (by omega), h.below p hp]

theorem Locals256.aligned (i j : Fin 4) : Aligned (fp + 2 * i) (fp + 2 * j) := ⟨by omega, by omega⟩

/-- A local shifted in place. -/
theorem Locals256.shift {M : Mem} {s : DivState} (h : Locals256 fp m M s) (i : Fin 4) :
    Locals256 fp m (shiftr256 (fp + 10) (fp + 2 * i) 1 (fp + 2 * i) M)
      (setLocal s i (TinyEvm.shiftr256 (getLocal s i) 1)) := by
  rw [← h.locals i]
  exact h.write (shiftr256_eq M (by omega) (by omega) (aligned i i) 1)

theorem Locals256.minus {M : Mem} {s : DivState} (h : Locals256 fp m M s) (i j : Fin 4) :
    Locals256 fp m (minus256 (fp + 10) (fp + 2 * i) (fp + 2 * j) (fp + 2 * i) M)
      (setLocal s i (TinyEvm.minus256 (getLocal s i) (getLocal s j))) := by
  rw [← h.locals i, ← h.locals j]
  exact h.write (minus256_eq M (by omega) (by omega) (by omega) (aligned i i) (aligned j i))

theorem Locals256.or {M : Mem} {s : DivState} (h : Locals256 fp m M s) (i j : Fin 4) :
    Locals256 fp m (limbwise256 (· ||| ·) (fp + 2 * i) (fp + 2 * j) (fp + 2 * i) M)
      (setLocal s i (TinyEvm.or256 (getLocal s i) (getLocal s j))) := by
  rw [← h.locals i, ← h.locals j, limbwise256_eq M _ (aligned i i) (aligned j i)]
  exact h.write (Set.eqOn_refl _ _)

theorem Locals256.step {M : Mem} {s : DivState} (h : Locals256 fp m M s) :
    Locals256 fp m (divStep fp M) (TinyEvm.divStep s) := by
  unfold divStep TinyEvm.divStep
  rw [show word M (fp + 6) = s.resMod from h.locals 3, show word M fp = s.copyd from h.locals 0]
  split
  · exact (((h.minus 3 0).or 2 1).shift 0).shift 1
  · exact (h.shift 0).shift 1

theorem Locals256.word_below {M : Mem} {s : DivState} (h : Locals256 fp m M s) {p : Nat}
    (hp : p + 1 < fp) : word M p = word m p := by
  rw [word, word, h.below p (by omega), h.below (p + 1) hp]

theorem Locals256.loop {r : Nat} (hr : r + 1 < fp) : ∀ (rounds : Nat) {M : Mem} {s : DivState},
    Locals256 fp m M s → Option.Rel (Locals256 fp m) (divLoop fp r rounds M)
      (TinyEvm.divLoop (word m r) rounds s) := by
  intro rounds
  induction rounds with
  | zero =>
    intro M s h
    rw [divLoop, TinyEvm.divLoop, show word M (fp + 6) = s.resMod from h.locals 3, h.word_below hr]
    split
    · exact Option.Rel.none
    · exact Option.Rel.some h
  | succ rounds ih =>
    intro M s h
    rw [divLoop, TinyEvm.divLoop, show word M (fp + 6) = s.resMod from h.locals 3, h.word_below hr]
    split
    · exact ih h.step
    · exact Option.Rel.some h

/-! The bits are counted in a copy. -/

theorem bitsLoop_eq (up : Nat) : ∀ (rounds : Nat) (result : UInt32) (m : Mem),
    (bitsLoop rounds up result m).1 = TinyEvm.bitsLoop rounds (m up) result ∧
    ∀ p, p ≠ up → (bitsLoop rounds up result m).2 p = m p := by
  intro rounds
  induction rounds with
  | zero => exact fun result m => ⟨rfl, fun p _ => rfl⟩
  | succ rounds ih =>
    intro result m
    rw [bitsLoop, TinyEvm.bitsLoop]
    split
    · exact ⟨rfl, fun p _ => rfl⟩
    · obtain ⟨hcount, hrest⟩ := ih (result + 1) (shiftr128 up 1 up m)
      rw [shiftr128_one] at hcount hrest ⊢
      rw [update_self] at hcount
      refine ⟨hcount, fun p hp => ?_⟩
      rw [hrest p hp, update_of_ne hp]

theorem bits256_eq (m : Mem) {number : Nat} : (bits256 fp number m).1 = TinyEvm.bits256 (word m number) ∧
    Set.EqOn (bits256 fp number m).2 m (Set.Iio fp) := by
  unfold bits256 TinyEvm.bits256
  rw [copy128_eq, copy128_eq]
  split
  next hupper =>
    rw [if_pos (show (!zero128 (word m number).upper) = true from hupper)]
    obtain ⟨hcount, hrest⟩ := bitsLoop_eq fp 128 128 (update m fp (m number))
    rw [update_self] at hcount
    refine ⟨hcount, fun p hp => ?_⟩
    have hp : p < fp := hp
    rw [hrest p (by omega), update_of_ne (by omega)]
  next hupper =>
    rw [if_neg (show ¬(!zero128 (word m number).upper) = true from hupper)]
    obtain ⟨hcount, hrest⟩ := bitsLoop_eq fp 128 0 (update m fp (m (number + 1)))
    rw [update_self] at hcount
    refine ⟨hcount, fun p hp => ?_⟩
    have hp : p < fp := hp
    rw [hrest p (by omega), update_of_ne (by omega)]

theorem divSetup_eq (m : Mem) {l r : Nat} (hl : l + 1 < fp) (hr : r + 1 < fp) :
    (divSetup fp l r m).1 = TinyEvm.bits256 (word m l) - TinyEvm.bits256 (word m r) ∧
    word (divSetup fp l r m).2 (fp + 8) = ⟨TinyEvm.clear128, ⟨0, 1⟩⟩ ∧
    ∃ copyd adder, Locals256 fp m (divSetup fp l r m).2 ⟨copyd, adder, TinyEvm.clear256, word m l⟩ := by
  unfold divSetup
  extract_lets m₁ m₂ m₃ bitsL bitsR m₆
  obtain ⟨hbitsL, hm₄⟩ := @bits256_eq (fp + 10) m₃ l
  obtain ⟨hbitsR, hm₅⟩ := @bits256_eq (fp + 10) bitsL.2 r
  have hbelow₃ : ∀ p < fp, m₃ p = m p := by
    intro p hp
    simp (disch := omega) only [m₃, m₂, m₁, clear256, clear128_eq, setLower_setUpper, update_of_ne]
  have hm : Set.EqOn bitsR.2 m₃ (Set.Iio (fp + 10)) := hm₅.trans hm₄
  have hword : ∀ p, p + 1 < fp → word m₃ p = word m p := by
    intro p hp
    rw [word, word, hbelow₃ p (by omega), hbelow₃ (p + 1) hp]
  have hm₆ : m₆ = put bitsR.2 (fp + 4) TinyEvm.clear256 := clear256_eq _ _
  have hl₆ : word m₆ l = word m l := by
    rw [hm₆, word_apart_of_put (Set.eqOn_refl _ (Set.Iio fp)) hl (by omega) ⟨by omega, by omega⟩,
      word_congr hm (by omega), hword l hl]
  rw [@copy256_eq l (fp + 6) m₆ ⟨by omega, by omega⟩, hl₆]
  have hother : ∀ q, q + 1 < fp + 10 → Aligned (fp + 6) q → fp + 6 ≠ q →
      word (put m₆ (fp + 6) (word m l)) q = word m₆ q := fun q hq hal hne =>
    word_apart_of_put (Set.eqOn_refl _ (Set.Iio (fp + 10))) hq hne hal
  refine ⟨?_, ?_, word (put m₆ (fp + 6) (word m l)) fp, word (put m₆ (fp + 6) (word m l)) (fp + 2), ?_, ?_⟩
  · show bitsL.1 - bitsR.1 = _
    rw [show bitsL.1 = _ from hbitsL, show bitsR.1 = _ from hbitsR, word_congr hm₄ (by omega), hword l hl,
      hword r hr]
  · rw [hother (fp + 8) (by omega) ⟨by omega, by omega⟩ (by omega), hm₆,
      word_apart_of_put (Set.eqOn_refl _ (Set.Iio (fp + 10))) (by omega) (by omega) ⟨by omega, by omega⟩,
      word_congr hm (by omega)]
    simp (disch := omega) only [m₃, m₂, m₁, clear256, clear128_eq, setLower_setUpper, word,
      update_of_ne, update_self]
  · intro i
    fin_cases i
    · rfl
    · rfl
    · show word _ (fp + 4) = _
      rw [hother (fp + 4) (by omega) ⟨by omega, by omega⟩ (by omega), hm₆, word_put]
      rfl
    · exact word_put _ _ _
  · intro p hp
    show put m₆ (fp + 6) (word m l) p = m p
    rw [apart_of_put (Set.eqOn_refl _ (Set.Iio fp)) hp (by omega) (by omega), hm₆,
      apart_of_put (Set.eqOn_refl _ (Set.Iio fp)) hp (by omega) (by omega),
      hm (show p < fp + 10 by omega), hbelow₃ p hp]

theorem Locals256.align {M : Mem} {copyd adder resDiv resMod one : Uint256} {r : Nat}
    (h : Locals256 fp m M ⟨copyd, adder, resDiv, resMod⟩) (hone : word M (fp + 8) = one)
    (hr : r + 1 < fp) (diffBits : UInt32) :
    Locals256 fp m (divAlign fp r diffBits M)
      (if gt256 (TinyEvm.shiftl256 (word m r) diffBits) resMod then
        ⟨TinyEvm.shiftr256 (TinyEvm.shiftl256 (word m r) diffBits) 1,
          TinyEvm.shiftr256 (TinyEvm.shiftl256 one diffBits) 1, resDiv, resMod⟩
      else ⟨TinyEvm.shiftl256 (word m r) diffBits, TinyEvm.shiftl256 one diffBits, resDiv, resMod⟩) := by
  unfold divAlign
  extract_lets m₁ m₂
  have hput₁ : Set.EqOn m₁ (put M fp _) _ := @shiftl256_eq (fp + 10) r fp M
    (by omega) (by omega) ⟨by omega, by omega⟩ diffBits
  rw [h.word_below hr] at hput₁
  have hone₁ : word m₁ (fp + 8) = one :=
    (word_apart_of_put hput₁ (by omega) (by omega) ⟨by omega, by omega⟩).trans hone
  have hput₂ : Set.EqOn m₂ (put m₁ (fp + 2) _) _ := @shiftl256_eq (fp + 10) (fp + 8)
    (fp + 2) m₁ (by omega) (by omega) ⟨by omega, by omega⟩ diffBits
  rw [hone₁] at hput₂
  have h₂ := (h.write (i := 0) hput₁).write (i := 1) hput₂
  rw [show word m₂ fp = _ from h₂.locals 0, show word m₂ (fp + 6) = _ from h₂.locals 3]
  show Locals256 fp m (if gt256 (TinyEvm.shiftl256 (word m r) diffBits) resMod then _ else m₂) _
  split
  · exact (h₂.shift 0).shift 1
  · exact h₂

theorem divmod256_eq {l r retDiv retMod : Nat} (rounds : Nat) (m : Mem) (hl : l + 1 < fp)
    (hr : r + 1 < fp) (hd : retDiv + 1 < fp) (hm : retMod + 1 < fp) (hne : retDiv ≠ retMod)
    (hal : Aligned retDiv retMod) (hall : Aligned l retMod) :
    Agree fp (divmod256 rounds fp l r retDiv retMod m)
      ((TinyEvm.divmod256 rounds (word m l) (word m r)).map fun x =>
        put (put m retDiv x.1) retMod x.2) := by
  obtain ⟨hdiff, hone, copyd, adder, hlocals⟩ := divSetup_eq m hl hr
  unfold divmod256 TinyEvm.divmod256
  dsimp only
  rw [hlocals.word_below hr, hlocals.word_below hl, hdiff]
  split
  next =>
    refine Option.Rel.some ?_
    rw [clear256_eq, copy256_eq _ hall, hlocals.word_below hl, ← put_comm hne hal]
    exact put_congr (put_congr hlocals.below _ _) _ _
  next =>
    rw [Option.map_map]
    refine rel_map (R := Locals256 fp m) ?_ (Locals256.loop hr rounds (hlocals.align hone hr _))
    intro M s h
    rw [@copy256_eq (fp + 4) retDiv M ⟨by omega, by omega⟩,
      @copy256_eq (fp + 6) retMod _ ⟨by omega, by omega⟩,
      word_apart_of_put (Set.eqOn_refl _ (Set.Iio (fp + 10))) (by omega) (by omega) ⟨by omega, by omega⟩,
      show word M (fp + 4) = s.resDiv from h.locals 2, show word M (fp + 6) = s.resMod from h.locals 3]
    exact put_congr (put_congr h.below _ _) _ _

end

/-! ## Sequences of calls -/

inductive Binary where
  | add | minus | or | xor | and | mul
deriving DecidableEq

def Binary.run128 (fp : Nat) : Binary → Nat → Nat → Nat → Mem → Mem
  | .add => add128
  | .minus => minus128
  | .or => limbwise128 (· ||| ·)
  | .xor => limbwise128 (· ^^^ ·)
  | .and => limbwise128 (· &&& ·)
  | .mul => mul128 fp

def Binary.eval128 : Binary → Uint128 → Uint128 → Uint128
  | .add => TinyEvm.add128
  | .minus => TinyEvm.minus128
  | .or => TinyEvm.or128
  | .xor => TinyEvm.limbwise128 (· ^^^ ·)
  | .and => TinyEvm.limbwise128 (· &&& ·)
  | .mul => TinyEvm.mul128

def Binary.run256 (fp : Nat) : Binary → Nat → Nat → Nat → Mem → Mem
  | .add => add256 fp
  | .minus => minus256 fp
  | .or => limbwise256 (· ||| ·)
  | .xor => limbwise256 (· ^^^ ·)
  | .and => limbwise256 (· &&& ·)
  | .mul => mul256 fp

def Binary.eval256 : Binary → Uint256 → Uint256 → Uint256
  | .add => TinyEvm.add256
  | .minus => TinyEvm.minus256
  | .or => TinyEvm.or256
  | .xor => TinyEvm.xor256
  | .and => TinyEvm.and256
  | .mul => TinyEvm.mul256

inductive Direction where
  | left | right
deriving DecidableEq

/-- A call of a routine that writes. The `uint256_t` number `i` is at `2 * i`; a
`uint128_t`, which may be a half of one, is named by its place. -/
inductive Call where
  | copy128 (target number : Nat)
  | clear128 (target : Nat)
  | not128 (number : Nat)
  | binary128 (op : Binary) (number1 number2 target : Nat)
  | shift128 (dir : Direction) (number : Nat) (value : UInt32) (target : Nat)
  | divmod128 (l r retDiv retMod : Nat)
  | copy256 (target number : Nat)
  | clear256 (target : Nat)
  | not256 (number : Nat)
  | binary256 (op : Binary) (number1 number2 target : Nat)
  | shift256 (dir : Direction) (number : Nat) (value : UInt32) (target : Nat)
  | divmod256 (l r retDiv retMod : Nat)

namespace Call

/-- The routine on memory; `none` when a division does not end within `rounds` rounds. -/
def run (rounds fp : Nat) : Call → Mem → Option Mem
  | .copy128 target number, m => some (InPlace.copy128 target number m)
  | .clear128 target, m => some (InPlace.clear128 target m)
  | .not128 number, m => some (InPlace.not128 number m)
  | .binary128 op number1 number2 target, m => some (op.run128 fp number1 number2 target m)
  | .shift128 .left number value target, m => some (shiftl128 number value target m)
  | .shift128 .right number value target, m => some (shiftr128 number value target m)
  | .divmod128 l r retDiv retMod, m => InPlace.divmod128 rounds fp l r retDiv retMod m
  | .copy256 target number, m => some (InPlace.copy256 (2 * target) (2 * number) m)
  | .clear256 target, m => some (InPlace.clear256 (2 * target) m)
  | .not256 number, m => some (InPlace.not256 (2 * number) m)
  | .binary256 op number1 number2 target, m =>
    some (op.run256 fp (2 * number1) (2 * number2) (2 * target) m)
  | .shift256 .left number value target, m => some (shiftl256 fp (2 * number) value (2 * target) m)
  | .shift256 .right number value target, m => some (shiftr256 fp (2 * number) value (2 * target) m)
  | .divmod256 l r retDiv retMod, m =>
    InPlace.divmod256 rounds fp (2 * l) (2 * r) (2 * retDiv) (2 * retMod) m

/-- The function of `Uint256.Basic` of what the operands hold, written to the target. -/
def eval (rounds : Nat) : Call → Mem → Option Mem
  | .copy128 target number, m => some (update m target (m number))
  | .clear128 target, m => some (update m target TinyEvm.clear128)
  | .not128 number, m => some (update m number (TinyEvm.not128 (m number)))
  | .binary128 op number1 number2 target, m =>
    some (update m target (op.eval128 (m number1) (m number2)))
  | .shift128 .left number value target, m =>
    some (update m target (TinyEvm.shiftl128 (m number) value))
  | .shift128 .right number value target, m =>
    some (update m target (TinyEvm.shiftr128 (m number) value))
  | .divmod128 l r retDiv retMod, m => (TinyEvm.divmod128 rounds (m l) (m r)).map fun x =>
    update (update m retDiv x.1) retMod x.2
  | .copy256 target number, m => some (put m (2 * target) (word m (2 * number)))
  | .clear256 target, m => some (put m (2 * target) TinyEvm.clear256)
  | .not256 number, m => some (put m (2 * number) (TinyEvm.not256 (word m (2 * number))))
  | .binary256 op number1 number2 target, m =>
    some (put m (2 * target) (op.eval256 (word m (2 * number1)) (word m (2 * number2))))
  | .shift256 .left number value target, m =>
    some (put m (2 * target) (TinyEvm.shiftl256 (word m (2 * number)) value))
  | .shift256 .right number value target, m =>
    some (put m (2 * target) (TinyEvm.shiftr256 (word m (2 * number)) value))
  | .divmod256 l r retDiv retMod, m =>
    (TinyEvm.divmod256 rounds (word m (2 * l)) (word m (2 * r))).map fun x =>
      put (put m (2 * retDiv) x.1) (2 * retMod) x.2

/-- The objects of the call are below the frame, and a division has two results. -/
def Fits (fp : Nat) : Call → Prop
  | .copy128 target number => target < fp ∧ number < fp
  | .clear128 target => target < fp
  | .not128 number => number < fp
  | .binary128 _ number1 number2 target => number1 < fp ∧ number2 < fp ∧ target < fp
  | .shift128 _ number _ target => number < fp ∧ target < fp
  | .divmod128 l r retDiv retMod => l < fp ∧ r < fp ∧ retDiv < fp ∧ retMod < fp ∧ retDiv ≠ retMod
  | .copy256 target number => 2 * target + 1 < fp ∧ 2 * number + 1 < fp
  | .clear256 target => 2 * target + 1 < fp
  | .not256 number => 2 * number + 1 < fp
  | .binary256 _ number1 number2 target =>
    2 * number1 + 1 < fp ∧ 2 * number2 + 1 < fp ∧ 2 * target + 1 < fp
  | .shift256 _ number _ target => 2 * number + 1 < fp ∧ 2 * target + 1 < fp
  | .divmod256 l r retDiv retMod => 2 * l + 1 < fp ∧ 2 * r + 1 < fp ∧ 2 * retDiv + 1 < fp ∧
    2 * retMod + 1 < fp ∧ retDiv ≠ retMod

/-- The call that loses its operand. -/
def Spoils (m : Mem) : Call → Prop
  | .shift128 .right number value target => number = target ∧ value = 64 ∧ (m number).upper ≠ 0
  | _ => False

end Call

theorem aligned_double (i j : Nat) : Aligned (2 * i) (2 * j) := ⟨by omega, by omega⟩

section

variable {fp : Nat}

theorem Binary.run128_eq (op : Binary) (m : Mem) (number1 number2 : Nat) {target : Nat}
    (ht : target < fp) : Set.EqOn (op.run128 fp number1 number2 target m)
      (update m target (op.eval128 (m number1) (m number2))) (Set.Iio fp) := by
  cases op with
  | add => exact (add128_eq m number1 number2 target) ▸ Set.eqOn_refl _ _
  | minus => exact (minus128_eq m number1 number2 target) ▸ Set.eqOn_refl _ _
  | or => exact (limbwise128_eq m _ number1 number2 target) ▸ Set.eqOn_refl _ _
  | xor => exact (limbwise128_eq m _ number1 number2 target) ▸ Set.eqOn_refl _ _
  | and => exact (limbwise128_eq m _ number1 number2 target) ▸ Set.eqOn_refl _ _
  | mul => exact mul128_eq m ht

theorem Binary.run256_eq (op : Binary) (m : Mem) {number1 number2 target : Nat}
    (h1 : number1 + 1 < fp) (h2 : number2 + 1 < fp) (ht : target + 1 < fp)
    (ha1 : Aligned number1 target) (ha2 : Aligned number2 target) :
    Set.EqOn (op.run256 fp number1 number2 target m)
      (put m target (op.eval256 (word m number1) (word m number2))) (Set.Iio fp) := by
  cases op with
  | add => exact add256_eq m h1 h2 ht ha1 ha2
  | minus => exact minus256_eq m h1 h2 ht ha1 ha2
  | or => exact (limbwise256_eq m _ ha1 ha2) ▸ Set.eqOn_refl _ _
  | xor => exact (limbwise256_eq m _ ha1 ha2) ▸ Set.eqOn_refl _ _
  | and => exact (limbwise256_eq m _ ha1 ha2) ▸ Set.eqOn_refl _ _
  | mul => exact mul256_eq m ht

/-- A call reads its operands as if it wrote last, but for one. -/
theorem Call.run_agree {c : Call} {m : Mem} (rounds : Nat) (hfits : c.Fits fp) (h : ¬c.Spoils m) :
    Agree fp (c.run rounds fp m) (c.eval rounds m) := by
  cases c with
  | copy128 target number => exact Option.Rel.some (copy128_eq m target number ▸ Set.eqOn_refl _ _)
  | clear128 target => exact Option.Rel.some (clear128_eq m target ▸ Set.eqOn_refl _ _)
  | not128 number => exact Option.Rel.some (not128_eq m number ▸ Set.eqOn_refl _ _)
  | binary128 op number1 number2 target =>
    exact Option.Rel.some (op.run128_eq m number1 number2 hfits.2.2)
  | shift128 dir number value target =>
    cases dir with
    | left => exact Option.Rel.some (shiftl128_eq m number target value ▸ Set.eqOn_refl _ _)
    | right =>
      have hupper : number = target → value = 64 → (m number).upper = 0 := fun hn hv =>
        Classical.byContradiction fun hne => h ⟨hn, hv, hne⟩
      exact Option.Rel.some (shiftr128_eq m hupper ▸ Set.eqOn_refl _ _)
  | divmod128 l r retDiv retMod =>
    obtain ⟨hl, hr, hd, hm, hne⟩ := hfits
    exact divmod128_eq rounds m hl hr hd hne
  | copy256 target number =>
    exact Option.Rel.some (copy256_eq m (aligned_double number target) ▸ Set.eqOn_refl _ _)
  | clear256 target => exact Option.Rel.some (clear256_eq m (2 * target) ▸ Set.eqOn_refl _ _)
  | not256 number => exact Option.Rel.some (not256_eq m (2 * number) ▸ Set.eqOn_refl _ _)
  | binary256 op number1 number2 target =>
    obtain ⟨h1, h2, ht⟩ := hfits
    exact Option.Rel.some (op.run256_eq m h1 h2 ht (aligned_double _ _) (aligned_double _ _))
  | shift256 dir number value target =>
    obtain ⟨hn, ht⟩ := hfits
    cases dir with
    | left => exact Option.Rel.some (shiftl256_eq m hn ht (aligned_double _ _) value)
    | right => exact Option.Rel.some (shiftr256_eq m hn ht (aligned_double _ _) value)
  | divmod256 l r retDiv retMod =>
    obtain ⟨hl, hr, hd, hm, hne⟩ := hfits
    exact divmod256_eq rounds m hl hr hd hm (by omega) (aligned_double _ _) (aligned_double _ _)

/-- That one leaves zero, which is not what it shifts to. -/
theorem Call.not_agree {c : Call} {m : Mem} (rounds : Nat) (hfits : c.Fits fp) (h : c.Spoils m) :
    ¬Agree fp (c.run rounds fp m) (c.eval rounds m) := by
  cases c with
  | shift128 dir number value target =>
    cases dir with
    | left => exact h.elim
    | right =>
      obtain ⟨rfl, rfl, hupper⟩ := h
      intro hagree
      cases hagree with
      | some heq =>
        have hat := heq (show number < fp from hfits.1)
        rw [shiftr128_clears, update_self, update_self] at hat
        exact hupper (congrArg Uint128.lower hat).symm
  | _ => exact h.elim

/-- What a call does is settled below the frame. -/
theorem Call.eval_congr {c : Call} {M m : Mem} (rounds : Nat) (hfits : c.Fits fp)
    (h : Set.EqOn M m (Set.Iio fp)) : Agree fp (c.eval rounds M) (c.eval rounds m) := by
  have hat : ∀ p < fp, M p = m p := h
  cases c with
  | copy128 target number =>
    rw [Call.eval, Call.eval, hat number hfits.2]
    exact Option.Rel.some (update_congr h _ _)
  | clear128 target => exact Option.Rel.some (update_congr h _ _)
  | not128 number =>
    rw [Call.eval, Call.eval, hat number hfits]
    exact Option.Rel.some (update_congr h _ _)
  | binary128 op number1 number2 target =>
    rw [Call.eval, Call.eval, hat number1 hfits.1, hat number2 hfits.2.1]
    exact Option.Rel.some (update_congr h _ _)
  | shift128 dir number value target =>
    cases dir
    all_goals
      rw [Call.eval, Call.eval, hat number hfits.1]
      exact Option.Rel.some (update_congr h _ _)
  | divmod128 l r retDiv retMod =>
    rw [Call.eval, Call.eval, hat l hfits.1, hat r hfits.2.1]
    cases TinyEvm.divmod128 rounds (m l) (m r) with
    | none => exact Option.Rel.none
    | some x => exact Option.Rel.some (update_congr (update_congr h _ _) _ _)
  | copy256 target number =>
    rw [Call.eval, Call.eval, word_congr h hfits.2]
    exact Option.Rel.some (put_congr h _ _)
  | clear256 target => exact Option.Rel.some (put_congr h _ _)
  | not256 number =>
    rw [Call.eval, Call.eval, word_congr h hfits]
    exact Option.Rel.some (put_congr h _ _)
  | binary256 op number1 number2 target =>
    rw [Call.eval, Call.eval, word_congr h hfits.1, word_congr h hfits.2.1]
    exact Option.Rel.some (put_congr h _ _)
  | shift256 dir number value target =>
    cases dir
    all_goals
      rw [Call.eval, Call.eval, word_congr h hfits.1]
      exact Option.Rel.some (put_congr h _ _)
  | divmod256 l r retDiv retMod =>
    rw [Call.eval, Call.eval, word_congr h hfits.1, word_congr h hfits.2.1]
    cases TinyEvm.divmod256 rounds (word m (2 * l)) (word m (2 * r)) with
    | none => exact Option.Rel.none
    | some x => exact Option.Rel.some (put_congr (put_congr h _ _) _ _)

theorem Agree.trans {a b c : Option Mem} (h : Agree fp a b) (h' : Agree fp b c) : Agree fp a c := by
  cases h with
  | none => exact h'
  | some hab =>
    cases h' with
    | some hbc => exact Option.Rel.some (hab.trans hbc)

theorem Agree.symm {a b : Option Mem} (h : Agree fp a b) : Agree fp b a := by
  cases h with
  | none => exact Option.Rel.none
  | some hab => exact Option.Rel.some hab.symm

theorem Call.spoils_congr {c : Call} {M m : Mem} (hfits : c.Fits fp) (h : Set.EqOn M m (Set.Iio fp)) :
    c.Spoils M ↔ c.Spoils m := by
  cases c with
  | shift128 dir number value target =>
    cases dir with
    | left => exact Iff.rfl
    | right => rw [Call.Spoils, Call.Spoils, h (show number < fp from hfits.1)]
  | _ => exact Iff.rfl

/-- One call, on memories that are equal below the frame. -/
theorem Call.agree_iff {c : Call} {M m : Mem} (rounds : Nat) (hfits : c.Fits fp)
    (h : Set.EqOn M m (Set.Iio fp)) :
    Agree fp (c.run rounds fp M) (c.eval rounds m) ↔ ¬c.Spoils m := by
  have hcongr := eval_congr rounds hfits h
  rw [← spoils_congr hfits h]
  exact ⟨fun hagree hspoils => not_agree rounds hfits hspoils (hagree.trans hcongr.symm),
    fun hclean => (run_agree rounds hfits hclean).trans hcongr⟩

end

/-- One call after the other. -/
def runCalls (rounds fp : Nat) : List Call → Mem → Option Mem
  | [], m => some m
  | c :: calls, m => (c.run rounds fp m).bind (runCalls rounds fp calls)

def evalCalls (rounds : Nat) : List Call → Mem → Option Mem
  | [], m => some m
  | c :: calls, m => (c.eval rounds m).bind (evalCalls rounds calls)

/-- No call that is reached loses its operand. -/
def Clean (rounds : Nat) : List Call → Mem → Prop
  | [], _ => True
  | c :: calls, m => ¬c.Spoils m ∧ ∀ m', c.eval rounds m = some m' → Clean rounds calls m'

/-- **In place or not.** Any sequence of calls, with any objects in common between
operands and targets, does on memory what it does on values, call by call, exactly if
none of them shifts a `uint128_t` right by 64 in place with something in its upper limb. -/
theorem calls_agree_iff (rounds : Nat) {fp : Nat} {calls : List Call}
    (hfits : ∀ c ∈ calls, c.Fits fp) {M m : Mem} (h : Set.EqOn M m (Set.Iio fp)) :
    (∀ n, Agree fp (runCalls rounds fp (calls.take n) M) (evalCalls rounds (calls.take n) m)) ↔
      Clean rounds calls m := by
  induction calls generalizing M m with
  | nil =>
    refine iff_of_true (fun n => ?_) trivial
    rw [List.take_nil]
    exact Option.Rel.some h
  | cons c calls ih =>
    have hc := hfits c List.mem_cons_self
    have hrest : ∀ c ∈ calls, c.Fits fp := fun c' hc' => hfits c' (List.mem_cons_of_mem c hc')
    have hfirst := Call.agree_iff (c := c) rounds hc h
    constructor
    · intro hall
      have hagree : Agree fp (c.run rounds fp M) (c.eval rounds m) := by
        have hone := hall 1
        simpa [runCalls, evalCalls] using hone
      refine ⟨hfirst.mp hagree, ?_⟩
      intro m' hm'
      rw [hm'] at hagree
      cases hrun : c.run rounds fp M with
      | none =>
        rw [hrun] at hagree
        cases hagree
      | some M' =>
        rw [hrun] at hagree
        cases hagree with
        | some hagree =>
          refine (ih hrest hagree).mp fun n => ?_
          have hnext := hall (n + 1)
          rw [List.take_succ_cons, runCalls, evalCalls, hrun, hm'] at hnext
          exact hnext
    · rintro ⟨hclean, hlater⟩ n
      cases n with
      | zero => exact Option.Rel.some h
      | succ n =>
        rw [List.take_succ_cons, runCalls, evalCalls]
        have hagree := hfirst.mpr hclean
        cases hrun : c.run rounds fp M with
        | none =>
          rw [hrun] at hagree
          cases heval : c.eval rounds m with
          | none => exact Option.Rel.none
          | some m' =>
            rw [heval] at hagree
            cases hagree
        | some M' =>
          rw [hrun] at hagree
          cases heval : c.eval rounds m with
          | none =>
            rw [heval] at hagree
            cases hagree
          | some m' =>
            rw [heval] at hagree
            cases hagree with
            | some hagree => exact (ih hrest hagree).mpr (hlater m' heval) n

/-- A sum in place, a limb shifted down into the other half, and a shift in place. -/
def threeCalls : List Call :=
  [.binary256 .add 0 0 0, .shift128 .right 1 64 0, .shift128 .right 0 1 0]

theorem calls_agree_iff_threeCalls :
    Agree 4 (runCalls 0 4 (threeCalls.take 3) fun _ => ⟨1, 2⟩)
      (evalCalls 0 (threeCalls.take 3) fun _ => ⟨1, 2⟩) := by
  refine (@calls_agree_iff 0 4 threeCalls ?_ _ _ (Set.eqOn_refl _ _)).mpr ?_ 3
  · simp [threeCalls, Call.Fits]
  · simp [threeCalls, Clean, Call.Spoils]

end TinyEvm.InPlace
