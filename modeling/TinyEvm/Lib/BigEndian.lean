import Mathlib.Algebra.Order.Ring.Nat
import Mathlib.Data.Nat.Bitwise
import Mathlib.Tactic.Ring

/-!
# Big-endian numbers

`beNat f k` is the number whose `k` bytes, most significant first, are
`f 0, …, f (k - 1)`. Cutting the bytes in two cuts the number at a power of
`256`, so limbs of a long number can be read off its bytes. `shl_or_byte` is
the step of the usual accumulating loop, `x = (x << 8) | b`.
-/

namespace TinyEvm.Lib.BigEndian

/-- The big-endian number in the first `k` bytes of `f`. -/
def beNat (f : Nat → UInt8) : Nat → Nat
  | 0 => 0
  | k + 1 => beNat f k * 256 + (f k).toNat

theorem beNat_congr {f g : Nat → UInt8} : ∀ {k : Nat}, (∀ i, i < k → f i = g i) →
    beNat f k = beNat g k := by
  intro k
  induction k with
  | zero =>
    intro _
    rfl
  | succ k ih =>
    intro h
    rw [beNat, beNat, ih (fun i hi => h i (by omega)), h k (by omega)]

theorem beNat_lt (f : Nat → UInt8) (k : Nat) : beNat f k < 256 ^ k := by
  induction k with
  | zero => exact Nat.one_pos
  | succ k ih =>
    have hb := (f k).toNat_lt
    rw [beNat, Nat.pow_succ]
    omega

/-- Bytes in front of others weigh by the number of bytes behind them. -/
theorem beNat_add (f : Nat → UInt8) (j : Nat) : ∀ k,
    beNat f (j + k) = beNat f j * 256 ^ k + beNat (fun i => f (j + i)) k := by
  intro k
  induction k with
  | zero => rw [Nat.add_zero, Nat.pow_zero, Nat.mul_one, beNat, Nat.add_zero]
  | succ k ih =>
    rw [← Nat.add_assoc, beNat, ih, beNat]
    ring

theorem beNat_div (f : Nat → UInt8) (j k : Nat) : beNat f (j + k) / 256 ^ k = beNat f j := by
  have hpos : 0 < 256 ^ k := Nat.pow_pos (by omega)
  rw [beNat_add, Nat.mul_comm, Nat.mul_add_div hpos, Nat.div_eq_of_lt (beNat_lt _ k), Nat.add_zero]

theorem beNat_mod (f : Nat → UInt8) (j k : Nat) :
    beNat f (j + k) % 256 ^ k = beNat (fun i => f (j + i)) k := by
  rw [beNat_add, Nat.mul_comm, Nat.mul_add_mod, Nat.mod_eq_of_lt (beNat_lt _ k)]

/-- Leading zero bytes do not count. -/
theorem beNat_zeros {f : Nat → UInt8} {j : Nat} (h : ∀ i, i < j → f i = 0) (k : Nat) :
    beNat f (j + k) = beNat (fun i => f (j + i)) k := by
  have hzero : ∀ i, beNat (fun _ => 0) i = 0 := by
    intro i
    induction i with
    | zero => rfl
    | succ i ih =>
      rw [beNat, ih]
      rfl
  rw [beNat_add, beNat_congr h, hzero, Nat.zero_mul, Nat.zero_add]

/-- Equal numbers of the same length have equal bytes. -/
theorem beNat_inj {f g : Nat → UInt8} : ∀ {k : Nat}, beNat f k = beNat g k →
    ∀ i, i < k → f i = g i := by
  intro k
  induction k with
  | zero =>
    intro _ i hi
    omega
  | succ k ih =>
    intro h i hi
    rw [beNat, beNat] at h
    have hf := (f k).toNat_lt
    have hg := (g k).toNat_lt
    rcases Nat.lt_or_ge i k with hlt | hge
    · exact ih (by omega) i hlt
    · obtain rfl : i = k := by omega
      exact UInt8.toNat_inj.mp (by omega)

theorem beNat_eq_iff {f g : Nat → UInt8} {k : Nat} :
    beNat f k = beNat g k ↔ ∀ i, i < k → f i = g i :=
  ⟨beNat_inj, beNat_congr⟩

/-- The first `k` of the `n` digits of `v` in base 256 are the top of its `n` digits. -/
theorem beNat_digits {f : Nat → UInt8} {v n : Nat}
    (h : ∀ i, i < n → (f i).toNat = v / 256 ^ (n - 1 - i) % 256) :
    ∀ k, k ≤ n → beNat f k = v / 256 ^ (n - k) % 256 ^ k := by
  intro k
  induction k with
  | zero =>
    intro _
    rw [Nat.pow_zero, Nat.mod_one, beNat]
  | succ k ih =>
    intro hk
    have hlast : n - 1 - k = n - (k + 1) := by omega
    have hnext : v / 256 ^ (n - k) = v / 256 ^ (n - (k + 1)) / 256 := by
      rw [Nat.div_div_eq_div_mul, ← Nat.pow_succ]
      congr 2
      omega
    rw [beNat, ih (by omega), h k (by omega), hlast, hnext, Nat.pow_succ', Nat.mod_mul, Nat.mul_comm,
      Nat.add_comm]

/-! ## The accumulating loop -/

/-- One byte into the low end of an accumulator that has room for it. -/
theorem shl_or_byte {x : UInt64} (b : UInt8) (h : x.toNat < 2 ^ 56) :
    ((x <<< 8) ||| b.toUInt64).toNat = x.toNat * 256 + b.toNat := by
  have hb := b.toNat_lt
  have hshl : (x <<< 8).toNat = x.toNat <<< 8 := by
    rw [UInt64.toNat_shiftLeft]
    show x.toNat <<< 8 % 2 ^ 64 = _
    rw [Nat.shiftLeft_eq]
    exact Nat.mod_eq_of_lt (by omega)
  rw [UInt64.toNat_or, hshl, UInt8.toNat_toUInt64, ← Nat.shiftLeft_add_eq_or_of_lt (by omega),
    Nat.shiftLeft_eq]

/-- The same for an accumulator with `j` bytes in it, at most seven. -/
theorem shl_or_byte_of_lt {x : UInt64} {j : Nat} (b : UInt8) (h : x.toNat < 256 ^ j) (hj : j < 8) :
    ((x <<< 8) ||| b.toUInt64).toNat = x.toNat * 256 + b.toNat := by
  refine shl_or_byte b ?_
  calc x.toNat < 256 ^ j := h
    _ ≤ 256 ^ 7 := Nat.pow_le_pow_right (by omega) (by omega)
    _ = 2 ^ 56 := by norm_num

end TinyEvm.Lib.BigEndian
