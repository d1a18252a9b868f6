import TinyEvm.Lib.Radix
import TinyEvm.Uint256.Basic

/-!
# What the two-level routines compute

Each routine of `uint256.c` works on 64-bit limbs inside 128-bit halves. The
theorems here say what it computes on `val`: the halves first, then the whole
word, both through the same radix lemma (`Lib.Radix`), at `2^64` and at
`2^128`. The bitwise routines are read through `toBitVec`, where they are the
operations of `BitVec 256`.
-/

namespace TinyEvm

open Lib (Radix.wrap_add_lt_iff Radix.lt_wrap_sub_iff Radix.pair_add Radix.pair_sub
  Radix.pair_lt_iff Radix.pair_inj Radix.pair_lt)

/-! ## Range and injectivity of `val` -/

theorem Uint128.val_lt (x : Uint128) : x.val < 2 ^ 128 :=
  Radix.pair_lt (by norm_num) x.upper.toNat_lt x.lower.toNat_lt

theorem Uint256.val_lt (w : Uint256) : w.val < 2 ^ 256 :=
  Radix.pair_lt (by norm_num) w.upper.val_lt w.lower.val_lt

theorem Uint128.val_inj {x y : Uint128} (h : x.val = y.val) : x = y := by
  obtain ⟨hu, hl⟩ := Radix.pair_inj x.lower.toNat_lt y.lower.toNat_lt h
  cases x
  cases y
  rw [Uint128.mk.injEq]
  exact ⟨UInt64.toNat_inj.mp hu, UInt64.toNat_inj.mp hl⟩

theorem Uint256.val_inj {v w : Uint256} (h : v.val = w.val) : v = w := by
  obtain ⟨hu, hl⟩ := Radix.pair_inj v.lower.val_lt w.lower.val_lt h
  cases v
  cases w
  rw [Uint256.mk.injEq]
  exact ⟨Uint128.val_inj hu, Uint128.val_inj hl⟩

/-- The four limbs with their weights. -/
theorem Uint256.val_limbs (w : Uint256) :
    w.val = w.upper.upper.toNat * 2 ^ 192 + w.upper.lower.toNat * 2 ^ 128
      + w.lower.upper.toNat * 2 ^ 64 + w.lower.lower.toNat := by
  simp only [Uint256.val, Uint128.val]
  ring

/-- The lowest limb, which is what a `uint64_t` keeps of a word. -/
theorem Uint256.lowest_toNat (w : Uint256) : w.lower.lower.toNat = w.val % 2 ^ 64 := by
  have hlimbs := w.val_limbs
  have hlow := w.lower.lower.toNat_lt
  omega

/-- What a `uint32_t` keeps of a word. -/
theorem Uint256.lowest_toUInt32 (w : Uint256) : w.lower.lower.toUInt32.toNat = w.val % 2 ^ 32 := by
  have hlow := w.lowest_toNat
  rw [UInt64.toNat_toUInt32]
  omega

theorem Uint256.lowest_eq_zero_iff (w : Uint256) : w.lower.lower = 0 ↔ w.val % 2 ^ 64 = 0 := by
  rw [← w.lowest_toNat]
  exact UInt64.toNat_inj.symm

/-- A 128-bit number whose upper limb is zero. -/
theorem Uint128.val_low (l : UInt64) : (⟨0, l⟩ : Uint128).val = l.toNat := by
  simp [Uint128.val]

@[simp] theorem clear128_val : clear128.val = 0 := rfl

@[simp] theorem clear256_val : clear256.val = 0 := rfl

/-- A word whose lower half is zero. -/
theorem Uint256.val_high (x : Uint128) : (⟨x, clear128⟩ : Uint256).val = x.val * 2 ^ 128 := by
  rw [Uint256.val, clear128_val, Nat.add_zero]

/-- A word whose upper half is zero. -/
theorem Uint256.val_low (x : Uint128) : (⟨clear128, x⟩ : Uint256).val = x.val := by
  rw [Uint256.val, clear128_val, Nat.zero_mul, Nat.zero_add]

/-! ## Comparisons -/

theorem equal128_iff {x y : Uint128} : equal128 x y = true ↔ x = y := by
  cases x
  cases y
  simp [equal128]

theorem equal256_iff {v w : Uint256} : equal256 v w = true ↔ v = w := by
  cases v
  cases w
  simp [equal256, equal128_iff]

theorem zero128_iff {x : Uint128} : zero128 x = true ↔ x.val = 0 := by
  simp only [zero128, Bool.and_eq_true, beq_iff_eq, Uint128.val, ← UInt64.toNat_inj,
    UInt64.toNat_zero]
  omega

theorem zero256_iff {w : Uint256} : zero256 w = true ↔ w.val = 0 := by
  simp only [zero256, Bool.and_eq_true, zero128_iff, Uint256.val]
  omega

theorem gt128_iff {x y : Uint128} : gt128 x y = true ↔ y.val < x.val := by
  have key := Radix.pair_lt_iff x.upper.toNat y.upper.toNat
    x.lower.toNat_lt y.lower.toNat_lt
  rw [Uint128.val, Uint128.val, key, gt128]
  by_cases hu : x.upper = y.upper
  · simp [hu, UInt64.lt_iff_toNat_lt]
  · have hn : x.upper.toNat ≠ y.upper.toNat := fun h => hu (UInt64.toNat_inj.mp h)
    simp [hu, hn, UInt64.lt_iff_toNat_lt]

theorem gt256_iff {v w : Uint256} : gt256 v w = true ↔ w.val < v.val := by
  have key := Radix.pair_lt_iff v.upper.val w.upper.val
    v.lower.val_lt w.lower.val_lt
  rw [Uint256.val, Uint256.val, key, gt256]
  by_cases hu : v.upper = w.upper
  · simp [hu, equal128_iff, gt128_iff]
  · have hn : v.upper.val ≠ w.upper.val := fun h => hu (Uint128.val_inj h)
    simp [hu, hn, equal128_iff, gt128_iff]

/-! ## Addition and subtraction -/

theorem add128_val (x y : Uint128) : (add128 x y).val = (x.val + y.val) % 2 ^ 128 := by
  have hx := x.lower.toNat_lt
  have hy := y.lower.toNat_lt
  have hcarry : (x.lower + y.lower < x.lower) ↔ 2 ^ 64 ≤ x.lower.toNat + y.lower.toNat := by
    rw [UInt64.lt_iff_toNat_lt, UInt64.toNat_add]
    exact Radix.wrap_add_lt_iff hx hy
  have key := Radix.pair_add (M := 2 ^ 128) x.upper.toNat y.upper.toNat (by norm_num) hx hy
  refine Eq.trans ?_ key
  rw [Uint128.val, add128]
  by_cases hc : 2 ^ 64 ≤ x.lower.toNat + y.lower.toNat
  · rw [if_pos (hcarry.mpr hc), if_pos hc]
    simp only [UInt64.toNat_add, UInt64.toNat_one, Nat.mod_add_mod]
  · rw [if_neg (mt hcarry.mp hc), if_neg hc]
    simp only [UInt64.toNat_add, UInt64.toNat_zero, Nat.mod_add_mod]

/-- The low halves overflow exactly when their wrapped sum falls below one. -/
theorem gt128_add128 {x y : Uint128} :
    gt128 x (add128 x y) = true ↔ 2 ^ 128 ≤ x.val + y.val := by
  rw [gt128_iff, add128_val]
  exact Radix.wrap_add_lt_iff x.val_lt y.val_lt

theorem add256_val (v w : Uint256) : (add256 v w).val = (v.val + w.val) % 2 ^ 256 := by
  have key := Radix.pair_add (M := 2 ^ 256) v.upper.val w.upper.val (by norm_num)
    v.lower.val_lt w.lower.val_lt
  refine Eq.trans ?_ key
  rw [Uint256.val, add256]
  by_cases hc : 2 ^ 128 ≤ v.lower.val + w.lower.val
  · rw [if_pos (gt128_add128.mpr hc), if_pos hc]
    simp only [add128_val, Uint128.val_low, UInt64.toNat_one, Nat.mod_add_mod]
  · rw [if_neg (mt gt128_add128.mp hc), if_neg hc]
    rw [Nat.add_zero, add128_val, add128_val]

theorem minus128_val (x y : Uint128) :
    (minus128 x y).val = (2 ^ 128 - y.val + x.val) % 2 ^ 128 := by
  have hx := x.lower.toNat_lt
  have hy := y.lower.toNat_lt
  have hborrow : (x.lower - y.lower > x.lower) ↔ x.lower.toNat < y.lower.toNat := by
    rw [gt_iff_lt, UInt64.lt_iff_toNat_lt, UInt64.toNat_sub]
    exact Radix.lt_wrap_sub_iff hx hy
  have key := Radix.pair_sub (M := 2 ^ 128) (by norm_num) x.upper.toNat_lt y.upper.toNat_lt hx hy
  refine Eq.trans ?_ key
  rw [Uint128.val, minus128]
  by_cases hb : x.lower.toNat < y.lower.toNat
  · rw [if_pos (hborrow.mpr hb), if_pos hb]
    simp only [UInt64.toNat_sub, UInt64.toNat_one]
  · rw [if_neg (mt hborrow.mp hb), if_neg hb]
    simp only [UInt64.toNat_sub, UInt64.toNat_zero]

/-- The low halves borrow exactly when their wrapped difference rises above the
minuend. -/
theorem gt128_minus128 {x y : Uint128} :
    gt128 (minus128 x y) x = true ↔ x.val < y.val := by
  rw [gt128_iff, minus128_val]
  exact Radix.lt_wrap_sub_iff x.val_lt y.val_lt

theorem minus256_val (v w : Uint256) :
    (minus256 v w).val = (2 ^ 256 - w.val + v.val) % 2 ^ 256 := by
  have key := Radix.pair_sub (M := 2 ^ 256) (by norm_num) v.upper.val_lt w.upper.val_lt
    v.lower.val_lt w.lower.val_lt
  refine Eq.trans ?_ key
  rw [Uint256.val, minus256]
  by_cases hb : v.lower.val < w.lower.val
  · rw [if_pos (gt128_minus128.mpr hb), if_pos hb]
    simp only [minus128_val, Uint128.val_low, UInt64.toNat_one]
  · rw [if_neg (mt gt128_minus128.mp hb), if_neg hb]
    rw [Nat.sub_zero, Nat.add_mod_left, Nat.mod_mod, minus128_val, minus128_val]

/-! ## Words as bit vectors -/

def Uint128.toBitVec (x : Uint128) : BitVec 128 := x.upper.toBitVec ++ x.lower.toBitVec

def Uint256.toBitVec (w : Uint256) : BitVec 256 := w.upper.toBitVec ++ w.lower.toBitVec

theorem toNat_append {m n : Nat} (x : BitVec m) (y : BitVec n) :
    (x ++ y).toNat = x.toNat * 2 ^ n + y.toNat := by
  rw [BitVec.toNat_append, Nat.shiftLeft_eq, Nat.mul_comm,
    Nat.two_pow_add_eq_or_of_lt y.isLt]

theorem Uint128.toNat_toBitVec (x : Uint128) : x.toBitVec.toNat = x.val := by
  rw [Uint128.toBitVec, toNat_append]
  rfl

theorem Uint256.toNat_toBitVec (w : Uint256) : w.toBitVec.toNat = w.val := by
  rw [Uint256.toBitVec, toNat_append, Uint128.toNat_toBitVec, Uint128.toNat_toBitVec]
  rfl

theorem Uint256.toBitVec_inj {v w : Uint256} (h : v.toBitVec = w.toBitVec) : v = w := by
  apply Uint256.val_inj
  rw [← Uint256.toNat_toBitVec, ← Uint256.toNat_toBitVec, h]

theorem add256_toBitVec (v w : Uint256) :
    (add256 v w).toBitVec = v.toBitVec + w.toBitVec := by
  apply BitVec.eq_of_toNat_eq
  rw [BitVec.toNat_add]
  simp only [Uint256.toNat_toBitVec, add256_val]

theorem minus256_toBitVec (v w : Uint256) :
    (minus256 v w).toBitVec = v.toBitVec - w.toBitVec := by
  apply BitVec.eq_of_toNat_eq
  rw [BitVec.toNat_sub]
  simp only [Uint256.toNat_toBitVec, minus256_val]

theorem and256_toBitVec (v w : Uint256) :
    (and256 v w).toBitVec = v.toBitVec &&& w.toBitVec := by
  simp only [and256, limbwise256, limbwise128, Uint256.toBitVec, Uint128.toBitVec,
    UInt64.toBitVec_and]
  rw [BitVec.and_append, BitVec.and_append, BitVec.and_append]

theorem or256_toBitVec (v w : Uint256) :
    (or256 v w).toBitVec = v.toBitVec ||| w.toBitVec := by
  simp only [or256, limbwise256, limbwise128, Uint256.toBitVec, Uint128.toBitVec,
    UInt64.toBitVec_or]
  rw [BitVec.or_append, BitVec.or_append, BitVec.or_append]

theorem xor256_toBitVec (v w : Uint256) :
    (xor256 v w).toBitVec = v.toBitVec ^^^ w.toBitVec := by
  simp only [xor256, limbwise256, limbwise128, Uint256.toBitVec, Uint128.toBitVec,
    UInt64.toBitVec_xor]
  rw [BitVec.xor_append, BitVec.xor_append, BitVec.xor_append]

theorem not256_toBitVec (w : Uint256) : (not256 w).toBitVec = ~~~w.toBitVec := by
  simp only [not256, not128, Uint256.toBitVec, Uint128.toBitVec, UInt64.toBitVec_not]
  rw [BitVec.not_append, BitVec.not_append, BitVec.not_append]

end TinyEvm
