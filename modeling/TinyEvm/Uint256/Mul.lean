import TinyEvm.Uint256.Arith

/-!
# `mul128` and `mul256`

Both routines are the same hand-unrolled four-by-four schoolbook product, once
over 32-bit limbs in `uint64_t` columns and once over 64-bit limbs in
`uint128_t` columns; `Radix.schoolbook` says what the four columns add up to.

* `mul128_val`: `mul128` is multiplication modulo `2^128`. Its column sums are those
  of the exact product (`columns_exact`), since no column of 32-bit halves can
  overflow a `uint64_t`, and `third32 >> 32` is added where the column's carry
  belongs.
* `mul256_val`: `mul256` is not multiplication modulo `2^256`. The carry out of
  the `2^64` column (`mulCarry`, at most 2) is stored into
  `UPPER(UPPER(target2))`, the limb of weight `2^192`, instead of
  `LOWER(UPPER(target2))` of weight `2^128`. `mul256_val_eq_iff` turns this into
  the exact condition on the operands.
-/

namespace TinyEvm

open Lib

/-! ## 32-bit halves -/

theorem low32_toNat (x : UInt64) : (low32 x).toNat = x.toNat % 2 ^ 32 := by
  rw [low32, UInt64.toNat_and]
  exact Nat.and_two_pow_sub_one_eq_mod x.toNat 32

theorem high32_toNat (x : UInt64) : (high32 x).toNat = x.toNat / 2 ^ 32 := by
  rw [high32, UInt64.toNat_shiftRight]
  exact Nat.shiftRight_eq_div_pow x.toNat 32

/-! ## `mul128` -/

/-- The last lines of `mul128`: four column sums `c₀` (`fourth32`) to `c₃`
(`first32`) are put together by shifts and three calls of `add128`. Only bits of
`c₃` at or above weight `2^128` are lost. -/
theorem mul128_columns (first32 second32 third32 fourth32 : UInt64) :
    (add128 ⟨0, fourth32⟩ (add128 ⟨second32, 0⟩
        (add128 ⟨first32 <<< 32, 0⟩ ⟨high32 third32, third32 <<< 32⟩))).val
      = (fourth32.toNat + third32.toNat * 2 ^ 32 + second32.toNat * (2 ^ 32) ^ 2
          + first32.toNat * (2 ^ 32) ^ 3) % 2 ^ 128 := by
  have h1 : (first32 <<< 32).toNat = first32.toNat * 2 ^ 32 % 2 ^ 64 := by
    rw [UInt64.toNat_shiftLeft, Nat.shiftLeft_eq]
    rfl
  have h3 : (third32 <<< 32).toNat = third32.toNat * 2 ^ 32 % 2 ^ 64 := by
    rw [UInt64.toNat_shiftLeft, Nat.shiftLeft_eq]
    rfl
  simp only [add128_val, Uint128.val_low]
  simp only [Uint128.val, h1, h3, high32_toNat, UInt64.toNat_zero]
  omega

/-! ### The columns

`limb32 x i` is the 32-bit limb of weight `2^(32 i)`, and `columnSum x y k` is the column of
weight `2^(32 k)` of the product as a natural number. -/

def limb32 (x : Uint128) (i : Nat) : Nat := x.val / 2 ^ (32 * i) % 2 ^ 32

def columnSum (x y : Uint128) (k : Nat) : Nat := Radix.column (2 ^ 32) (limb32 x) (limb32 y) k

/-- `mul128` is its last lines, on the four columns. -/
theorem mul128_eq (x y : Uint128) :
    mul128 x y = add128 ⟨0, fourth32 x y⟩ (add128 ⟨second32 x y, 0⟩
      (add128 ⟨first32 x y <<< 32, 0⟩ ⟨high32 (third32 x y), third32 x y <<< 32⟩)) := rfl

theorem limb32_lt (x : Uint128) (i : Nat) : limb32 x i < 2 ^ 32 :=
  Nat.mod_lt _ (Nat.two_pow_pos 32)

theorem limbs32_toNat (x : Uint128) (i : Fin 4) : (limbs32 x i).toNat = limb32 x (3 - i.val) := by
  have hu := x.upper.toNat_lt
  have hl := x.lower.toNat_lt
  unfold limbs32 limb32 Uint128.val
  split
  · rw [high32_toNat]
    show x.upper.toNat / 2 ^ 32 = _ / 2 ^ 96 % 2 ^ 32
    omega
  · rw [low32_toNat]
    show x.upper.toNat % 2 ^ 32 = _ / 2 ^ 64 % 2 ^ 32
    omega
  · rw [high32_toNat]
    show x.lower.toNat / 2 ^ 32 = _ / 2 ^ 32 % 2 ^ 32
    omega
  · rw [low32_toNat]
    show x.lower.toNat % 2 ^ 32 = _ / 2 ^ 0 % 2 ^ 32
    omega

/-- A product of two 32-bit limbs fits a `uint64_t`. -/
theorem limb32_mul_lt (x y : Uint128) (i j : Nat) : limb32 x i * limb32 y j < 2 ^ 64 := by
  have hle := Nat.mul_le_mul (Nat.le_of_lt_succ (limb32_lt x i)) (Nat.le_of_lt_succ (limb32_lt y j))
  omega

/-- The limbs of a `uint128_t` with their weights. -/
theorem val_limb32 (x : Uint128) :
    x.val = limb32 x 0 + limb32 x 1 * 2 ^ 32 + limb32 x 2 * (2 ^ 32) ^ 2
      + limb32 x 3 * (2 ^ 32) ^ 3 := by
  have hx := x.val_lt
  unfold limb32
  omega

theorem products_toNat (x y : Uint128) (i j : Fin 4) :
    (products x y i j).toNat = limb32 x i.val * limb32 y (3 - j.val) := by
  have hi : 3 - (3 - i : Fin 4).val = i.val := by
    revert i
    decide
  rw [products, UInt64.toNat_mul, limbs32_toNat, limbs32_toNat, hi]
  exact Nat.mod_eq_of_lt (limb32_mul_lt x y _ _)

/-- **No column wraps.** Each `uint64_t` sum is the column of the exact product: it adds at
most seven halves, each below `2^32`. -/
theorem columns_exact (x y : Uint128) :
    (fourth32 x y).toNat = columnSum x y 0 ∧ (third32 x y).toNat = columnSum x y 1 ∧
    (second32 x y).toNat = columnSum x y 2 ∧ (first32 x y).toNat = columnSum x y 3 := by
  have h00 := limb32_mul_lt x y 0 0
  have h01 := limb32_mul_lt x y 0 1
  have h02 := limb32_mul_lt x y 0 2
  have h10 := limb32_mul_lt x y 1 0
  have h11 := limb32_mul_lt x y 1 1
  have h20 := limb32_mul_lt x y 2 0
  have hthree : ((3 : Fin 4) : Nat) = 3 := rfl
  simp only [fourth32, third32, second32, first32, columnSum, UInt64.toNat_add, low32_toNat,
    high32_toNat, products_toNat, Radix.column_zero, Radix.column_one, Radix.column_two,
    Radix.column_three, Fin.val_zero, Fin.val_one, Fin.val_two, hthree, Nat.reduceSub]
  refine ⟨?_, ?_, ?_, ?_⟩
  · trivial
  · omega
  · omega
  · omega

theorem mul128_val (x y : Uint128) : (mul128 x y).val = x.val * y.val % 2 ^ 128 := by
  obtain ⟨h0, h1, h2, h3⟩ := columns_exact x y
  have key := Radix.schoolbook_columns (2 ^ 32) (limb32 x) (limb32 y)
  rw [← val_limb32, ← val_limb32, ← Nat.pow_mul] at key
  rw [mul128_eq, mul128_columns, h0, h1, h2, h3]
  exact key.symm

/-- Two `uint64_t` values have their full product. -/
theorem mul128_low (a b : UInt64) : (mul128 ⟨0, a⟩ ⟨0, b⟩).val = a.toNat * b.toNat := by
  have hle := Nat.mul_le_mul (Nat.le_of_lt_succ a.toNat_lt) (Nat.le_of_lt_succ b.toNat_lt)
  rw [mul128_val, Uint128.val_low, Uint128.val_low]
  exact Nat.mod_eq_of_lt (by omega)

/-- **`mul128` is multiplication modulo `2^128`**, exact on two 64-bit values; its column sums
are those of the exact product, and what they lose has weight `2^128` and more. -/
theorem mul128_exact (x y : Uint128) :
    (mul128 x y).val = x.val * y.val % 2 ^ 128 ∧
    (∀ a b : UInt64, (mul128 ⟨0, a⟩ ⟨0, b⟩).val = a.toNat * b.toNat) ∧
    (third32 x y).toNat = columnSum x y 1 ∧ (second32 x y).toNat = columnSum x y 2 ∧
    (first32 x y).toNat = columnSum x y 3 ∧
    mul128 x y = add128 ⟨0, fourth32 x y⟩ (add128 ⟨second32 x y, 0⟩
      (add128 ⟨first32 x y <<< 32, 0⟩ ⟨high32 (third32 x y), third32 x y <<< 32⟩)) ∧
    (mul128 x y).val = (columnSum x y 0 + columnSum x y 1 * 2 ^ 32 + columnSum x y 2 * 2 ^ 64
      + columnSum x y 3 * 2 ^ 96) % 2 ^ 128 := by
  obtain ⟨h0, h1, h2, h3⟩ := columns_exact x y
  refine ⟨mul128_val x y, mul128_low, h1, h2, h3, mul128_eq x y, ?_⟩
  rw [mul128_eq, mul128_columns, h0, h1, h2, h3, ← Nat.pow_mul, ← Nat.pow_mul]

/-! ## `mul256` -/

theorem val_limbs64 (w : Uint256) :
    w.val = (limbs64 w 3).val + (limbs64 w 2).val * 2 ^ 64
      + (limbs64 w 1).val * (2 ^ 64) ^ 2 + (limbs64 w 0).val * (2 ^ 64) ^ 3 := by
  simp only [Uint256.val_limbs, limbs64, Uint128.val_low]
  omega

theorem limbs64_lt (w : Uint256) (i : Fin 4) : (limbs64 w i).val < 2 ^ 64 := by
  unfold limbs64
  split <;> exact Uint128.val_low _ ▸ UInt64.toNat_lt _

/-- A product of two 64-bit limbs fits a `uint128_t`. -/
theorem limbs64_mul (v w : Uint256) (i j : Fin 4) :
    (mul128 (limbs64 v i) (limbs64 w j)).val = (limbs64 v i).val * (limbs64 w j).val := by
  rw [mul128_val]
  apply Nat.mod_eq_of_lt
  have hle := Nat.mul_le_mul (Nat.le_of_lt_succ (limbs64_lt v i))
    (Nat.le_of_lt_succ (limbs64_lt w j))
  omega

theorem lower_toNat (x : Uint128) : x.lower.toNat = x.val % 2 ^ 64 := by
  have h := x.lower.toNat_lt
  rw [Uint128.val]
  omega

theorem upper_toNat (x : Uint128) : x.upper.toNat = x.val / 2 ^ 64 := by
  have h := x.lower.toNat_lt
  rw [Uint128.val]
  omega

theorem shiftl128_64 (x : Uint128) : shiftl128 x 64 = ⟨x.lower, 0⟩ := rfl

/-- The last lines of `mul256`: the column sums `c₀` (`fourth64`) to `c₃`
(`first64`). Where `c₁` reaches `2^64` its carry is added at weight `2^192`. -/
theorem mul256_columns (first64 second64 third64 fourth64 : Uint128) :
    (add256 ⟨clear128, fourth64⟩ (add256 ⟨second64, clear128⟩
        (add256 ⟨shiftl128 first64 64, clear128⟩
          ⟨⟨third64.upper, 0⟩, shiftl128 third64 64⟩))).val
      = (fourth64.val + third64.val % 2 ^ 64 * 2 ^ 64 + third64.val / 2 ^ 64 * 2 ^ 192
          + second64.val * (2 ^ 64) ^ 2 + first64.val * (2 ^ 64) ^ 3) % 2 ^ 256 := by
  have h1 : (⟨shiftl128 first64 64, clear128⟩ : Uint256).val = first64.val % 2 ^ 64 * 2 ^ 192 := by
    rw [shiftl128_64, Uint256.val_limbs, lower_toNat first64]
    show _ * 2 ^ 192 + 0 * 2 ^ 128 + 0 * 2 ^ 64 + 0 = _
    omega
  -- the limb of `third64` that overflows lands at `2^192`, not at `2^128`
  have h3 : (⟨⟨third64.upper, 0⟩, shiftl128 third64 64⟩ : Uint256).val
      = third64.val / 2 ^ 64 * 2 ^ 192 + third64.val % 2 ^ 64 * 2 ^ 64 := by
    rw [shiftl128_64, Uint256.val_limbs, lower_toNat third64, upper_toNat third64]
    show _ * 2 ^ 192 + 0 * 2 ^ 128 + _ * 2 ^ 64 + 0 = _
    omega
  rw [add256_val, add256_val, add256_val, h1, h3, Uint256.val_high, Uint256.val_low]
  omega

/-- The column of weight `2^64` of the schoolbook product, from the two low
limbs of each operand: the low halves of the two cross products and the high
half of the product of the lowest limbs. -/
def mulColumn (v w : Uint256) : Nat :=
  v.lower.lower.toNat * w.lower.upper.toNat % 2 ^ 64
    + v.lower.lower.toNat * w.lower.lower.toNat / 2 ^ 64
    + v.lower.upper.toNat * w.lower.lower.toNat % 2 ^ 64

/-- The carry out of the column of weight `2^64`. -/
def mulCarry (v w : Uint256) : Nat := mulColumn v w / 2 ^ 64

/-- **What `mul256` computes.** Each unit of the carry out of the `2^64` column
is worth `2^192` instead of `2^128`. -/
theorem mul256_val (v w : Uint256) :
    (mul256 v w).val = (v.val * w.val + mulCarry v w * (2 ^ 192 - 2 ^ 128)) % 2 ^ 256 := by
  have key := Radix.schoolbook (2 ^ 64) (limbs64 v 3).val (limbs64 v 2).val
    (limbs64 v 1).val (limbs64 v 0).val (limbs64 w 3).val (limbs64 w 2).val
    (limbs64 w 1).val (limbs64 w 0).val
  rw [← val_limbs64, ← val_limbs64, ← Nat.pow_mul] at key
  have hcarry : mulCarry v w
      = ((limbs64 v 3).val * (limbs64 w 2).val % 2 ^ 64
        + (limbs64 v 3).val * (limbs64 w 3).val / 2 ^ 64
        + (limbs64 v 2).val * (limbs64 w 3).val % 2 ^ 64) / 2 ^ 64 := by
    simp only [mulCarry, mulColumn, limbs64, Uint128.val_low]
  rw [mul256, mul256_columns]
  have hlow : ∀ i j, (⟨0, (mul128 (limbs64 v i) (limbs64 w j)).lower⟩ : Uint128).val
      = (limbs64 v i).val * (limbs64 w j).val % 2 ^ 64 := by
    intro i j
    rw [Uint128.val_low, lower_toNat, limbs64_mul]
  have hhigh : ∀ i j, (⟨0, (mul128 (limbs64 v i) (limbs64 w j)).upper⟩ : Uint128).val
      = (limbs64 v i).val * (limbs64 w j).val / 2 ^ 64 := by
    intro i j
    rw [Uint128.val_low, upper_toNat, limbs64_mul]
  -- a column adds at most seven halves, each below `2^64`, and never wraps
  have hhalf : ∀ i j, (limbs64 v i).val * (limbs64 w j).val / 2 ^ 64 < 2 ^ 64 := by
    intro i j
    rw [← limbs64_mul, ← upper_toNat]
    exact UInt64.toNat_lt _
  have hfit : ∀ a b : Nat, a < 2 ^ 64 → b < 2 ^ 67 → (a + b) % 2 ^ 128 = a + b := by
    intro a b ha hb
    omega
  have h00 := hhalf 3 3
  have h01 := hhalf 3 2
  have h02 := hhalf 3 1
  have h10 := hhalf 2 3
  have h11 := hhalf 2 2
  have h20 := hhalf 1 3
  simp (disch := omega) only [add128_val, hlow, hhigh, Fin.reduceSub, hfit]
  rw [hcarry]
  clear hlow hhigh hcarry hfit hhalf
  omega

/-- What `mul256` loses of the product: the multiple of `2^256` above the word, less the
excess of the misplaced carry. -/
def mulLoss (v w : Uint256) : Int :=
  2 ^ 256 * ((v.val * w.val + mulCarry v w * (2 ^ 192 - 2 ^ 128)) / 2 ^ 256 : Nat)
    - (mulCarry v w * (2 ^ 192 - 2 ^ 128) : Nat)

/-- The column of weight `2^64` sums three 64-bit halves. -/
theorem mulCarry_le (v w : Uint256) : mulCarry v w ≤ 2 := by
  have hle := Nat.mul_le_mul (Nat.le_of_lt_succ v.lower.lower.toNat_lt)
    (Nat.le_of_lt_succ w.lower.lower.toNat_lt)
  unfold mulCarry mulColumn
  omega

/-- `mul256` is right exactly when the column of weight `2^64` has no carry. -/
theorem mul256_val_eq_iff (v w : Uint256) :
    (mul256 v w).val = v.val * w.val % 2 ^ 256 ↔ mulColumn v w < 2 ^ 64 := by
  have hle := mulCarry_le v w
  rw [← Nat.div_eq_zero_iff_lt (by norm_num : 0 < 2 ^ 64), ← mulCarry]
  rw [mul256_val]
  generalize mulCarry v w = k at hle ⊢
  generalize v.val * w.val = p
  refine ⟨?_, ?_⟩
  · intro h
    -- the excess is a multiple of `2^256`, and too small to be one but zero
    have hzero : k * (2 ^ 192 - 2 ^ 128) ≡ 0 [MOD 2 ^ 256] := by
      apply Nat.ModEq.add_left_cancel' p
      rw [Nat.add_zero]
      exact h
    have hlt : k * (2 ^ 192 - 2 ^ 128) < 2 ^ 256 := by
      have hmul := Nat.mul_le_mul_right (2 ^ 192 - 2 ^ 128) hle
      exact Nat.lt_of_le_of_lt hmul (by norm_num)
    have heq := Nat.eq_zero_of_dvd_of_lt ((Nat.modEq_zero_iff_dvd).mp hzero) hlt
    rcases Nat.mul_eq_zero.mp heq with hk | habs
    · exact hk
    · norm_num at habs
  · intro hk
    rw [hk, Nat.zero_mul, Nat.add_zero]

end TinyEvm
