import Mathlib.Data.Nat.ModEq
import Mathlib.Tactic.Ring

/-!
# Two's complement, and what unsigned arithmetic makes of it

A number below `2 * H` is read as a signed one: itself below `H`, less `2 * H` from there
on (`sval`). `word` is the way back, for any integer.

Machine code that treats signed words with unsigned operations is right for some operands
and wrong for others. For the order, for truncated division and remainder and for the
arithmetic shift this file says for which. Each theorem splits the operands by sign; a
negative `a` stands for `-(2 * H - a)` (`sval_of_ge`), so that every case is about natural
numbers.
-/

namespace TinyEvm.Lib.TwosComplement

variable {H a b k : Nat}

/-- The signed number a word below `2 * H` stands for. -/
def sval (H a : Nat) : Int := if a < H then a else a - 2 * H

/-- The word of a number. -/
def word (H : Nat) (z : Int) : Nat := (z % (2 * H)).toNat

theorem sval_of_lt (h : a < H) : sval H a = a := if_pos h

theorem sval_of_ge (h : H ≤ a) (ha : a < 2 * H) : sval H a = -(2 * H - a : Nat) := by
  unfold sval
  rw [if_neg (by omega)]
  omega

theorem word_natCast (h : k < 2 * H) : word H k = k := by
  unfold word
  rw [Int.emod_eq_of_lt (by omega) (by omega)]
  exact Int.toNat_natCast k

theorem word_neg (h0 : 0 < k) (h : k ≤ 2 * H) : word H (-k) = 2 * H - k := by
  unfold word
  rw [← Int.add_emod_right, Int.emod_eq_of_lt (by omega) (by omega)]
  omega

theorem word_zero (hH : 0 < H) : word H 0 = 0 := word_natCast (k := 0) (by omega)

/-! ## Order -/

/-- The unsigned order is the signed one between words of one sign, and its opposite
between words of different signs. -/
theorem lt_iff_sval_lt_iff (ha : a < 2 * H) (hb : b < 2 * H) :
    (a < b ↔ sval H a < sval H b) ↔ (a < H ↔ b < H) := by
  unfold sval
  split <;> split <;> omega

/-! ## Division -/

/-- The operands whose unsigned quotient is the signed one. -/
def DivAgrees (H a b : Nat) : Prop :=
  a < H ∧ b < H ∨ a < H ∧ H ≤ b ∧ a + b < 2 * H ∨ H ≤ a ∧ b < H ∧ b = 1 ∨ H ≤ a ∧ H ≤ b ∧ a = b

theorem div_eq_word_tdiv_iff (hH : 2 ≤ H) (ha : a < 2 * H) (hb : b < 2 * H) (hne : b ≠ 0) :
    a / b = word H (Int.tdiv (sval H a) (sval H b)) ↔ DivAgrees H a b := by
  unfold DivAgrees
  rcases Nat.lt_or_ge a H with hsa | hsa <;> rcases Nat.lt_or_ge b H with hsb | hsb
  · -- two natural numbers
    rw [sval_of_lt hsa, sval_of_lt hsb, ← Int.ofNat_tdiv,
      word_natCast (Nat.lt_of_le_of_lt (Nat.div_le_self a b) ha)]
    exact iff_of_true rfl (Or.inl ⟨hsa, hsb⟩)
  · -- the unsigned quotient is zero
    rw [sval_of_lt hsa, sval_of_ge hsb hb, Int.tdiv_neg, ← Int.ofNat_tdiv,
      Nat.div_eq_of_lt (Nat.lt_of_lt_of_le hsa hsb)]
    rcases Nat.lt_or_ge a (2 * H - b) with hsmall | hlarge
    · rw [Nat.div_eq_of_lt hsmall]
      exact iff_of_true (word_zero (by omega)).symm (by omega)
    · have hpos : 0 < a / (2 * H - b) := Nat.div_pos hlarge (by omega)
      have hle := Nat.div_le_self a (2 * H - b)
      rw [word_neg hpos (by omega)]
      omega
  · -- a quotient by two or more is below `H`, and the word of a negative number is not
    rw [sval_of_ge hsa ha, sval_of_lt hsb, Int.neg_tdiv, ← Int.ofNat_tdiv]
    by_cases hone : b = 1
    · rw [hone, Nat.div_one, Nat.div_one, word_neg (by omega) (by omega)]
      omega
    · have hhalf : a / b ≤ a / 2 := Nat.div_le_div_left (by omega) (by omega)
      have hpos : 0 < a / b := Nat.div_pos (by omega) (by omega)
      have hmag : (2 * H - a) / b ≤ (2 * H - a) / 2 := Nat.div_le_div_left (by omega) (by omega)
      refine iff_of_false ?_ (by omega)
      rcases Nat.eq_zero_or_pos ((2 * H - a) / b) with hzero | hmagpos
      · rw [hzero, Nat.cast_zero, Int.neg_zero, word_zero (by omega)]
        omega
      · rw [word_neg hmagpos (by omega)]
        omega
  · -- both quotients are zero, one or more, in opposite orders of the operands
    rw [sval_of_ge hsa ha, sval_of_ge hsb hb, Int.neg_tdiv_neg, ← Int.ofNat_tdiv,
      word_natCast (Nat.lt_of_le_of_lt (Nat.div_le_self _ _) (by omega))]
    rcases Nat.lt_trichotomy a b with hlt | heq | hgt
    · have hpos : 0 < (2 * H - a) / (2 * H - b) := Nat.div_pos (by omega) (by omega)
      rw [Nat.div_eq_of_lt hlt]
      omega
    · rw [heq, Nat.div_self (by omega), Nat.div_self (by omega)]
      omega
    · have hpos : 0 < a / b := Nat.div_pos (by omega) (by omega)
      rw [Nat.div_eq_of_lt (show 2 * H - a < 2 * H - b by omega)]
      omega

/-! ## Remainder -/

/-- The operands whose unsigned remainder is the signed one. -/
def ModAgrees (H a b : Nat) : Prop :=
  a < H ∧ b < H ∨ a < H ∧ H ≤ b ∧ a + b < 2 * H ∨ H ≤ a ∧ b < H ∧ b ∣ a ∧ b ∣ 2 * H ∨
    H ≤ a ∧ H ≤ b ∧ a = b

theorem mod_eq_word_tmod_iff (ha : a < 2 * H) (hb : b < 2 * H) (hne : b ≠ 0) :
    a % b = word H (Int.tmod (sval H a) (sval H b)) ↔ ModAgrees H a b := by
  have hH : 0 < H := by omega
  unfold ModAgrees
  rcases Nat.lt_or_ge a H with hsa | hsa <;> rcases Nat.lt_or_ge b H with hsb | hsb
  · rw [sval_of_lt hsa, sval_of_lt hsb, ← Int.ofNat_tmod,
      word_natCast (Nat.lt_of_le_of_lt (Nat.mod_le a b) ha)]
    exact iff_of_true rfl (Or.inl ⟨hsa, hsb⟩)
  · rw [sval_of_lt hsa, sval_of_ge hsb hb, Int.tmod_neg, ← Int.ofNat_tmod,
      word_natCast (Nat.lt_of_le_of_lt (Nat.mod_le _ _) ha),
      Nat.mod_eq_of_lt (Nat.lt_of_lt_of_le hsa hsb), eq_comm, Nat.mod_eq_iff_lt (by omega)]
    omega
  · -- a remainder is below `b`, and the word of a negative number is not
    have hlt := Nat.mod_lt a (Nat.pos_of_ne_zero hne)
    have hmag := Nat.mod_lt (2 * H - a) (Nat.pos_of_ne_zero hne)
    have hsum : a + (2 * H - a) = 2 * H := by omega
    rw [sval_of_ge hsa ha, sval_of_lt hsb, Int.neg_tmod, ← Int.ofNat_tmod]
    have hdvd : b ∣ a ∧ b ∣ 2 * H ↔ b ∣ a ∧ b ∣ 2 * H - a := by
      refine and_congr_right fun hba => ?_
      rw [← hsum, Nat.dvd_add_right hba]
      simp
    rcases Nat.eq_zero_or_pos ((2 * H - a) % b) with hzero | hpos
    · rw [hzero, Nat.cast_zero, Int.neg_zero, word_zero hH, ← Nat.dvd_iff_mod_eq_zero, hdvd]
      have hmagdvd := Nat.dvd_of_mod_eq_zero hzero
      omega
    · rw [word_neg hpos (by omega), hdvd]
      refine iff_of_false (by omega) ?_
      intro h
      have hmagdvd : b ∣ 2 * H - a := by omega
      rw [Nat.mod_eq_zero_of_dvd hmagdvd] at hpos
      omega
  · rw [sval_of_ge hsa ha, sval_of_ge hsb hb, Int.tmod_neg, Int.neg_tmod, ← Int.ofNat_tmod]
    rcases Nat.lt_trichotomy a b with hlt | heq | hgt
    · have hmag := Nat.mod_lt (2 * H - a) (show 2 * H - b > 0 by omega)
      rw [Nat.mod_eq_of_lt hlt]
      refine iff_of_false ?_ (by omega)
      rcases Nat.eq_zero_or_pos ((2 * H - a) % (2 * H - b)) with hzero | hpos
      · rw [hzero, Nat.cast_zero, Int.neg_zero, word_zero hH]
        omega
      · rw [word_neg hpos (by omega)]
        omega
    · rw [heq, Nat.mod_self, Nat.mod_self, Nat.cast_zero, Int.neg_zero, word_zero hH]
      omega
    · have hmod : a % b = a - b := by
        rw [Nat.mod_eq_sub_mod (Nat.le_of_lt hgt), Nat.mod_eq_of_lt (by omega)]
      rw [hmod, Nat.mod_eq_of_lt (show 2 * H - a < 2 * H - b by omega),
        word_neg (by omega) (by omega)]
      omega

/-! ## Shift -/

/-- The values and amounts for which a logical shift, by the amount mod `M`, is the
arithmetic one. -/
def ShiftAgrees (H M b n : Nat) : Prop :=
  b < H ∧ (n < M ∨ b < 2 ^ (n % M)) ∨ H ≤ b ∧ n % M = 0 ∧ (n = 0 ∨ b = 2 * H - 1)

/-- An arithmetic shift of a negative number rounds away from zero. -/
theorem neg_shiftRight (hk : 0 < k) (n : Nat) :
    (-(k : Int)) >>> n = -((k - 1) / 2 ^ n + 1 : Nat) := by
  obtain ⟨j, rfl⟩ : ∃ j, k = j + 1 := ⟨k - 1, by omega⟩
  rw [Nat.add_sub_cancel, ← Nat.shiftRight_eq_div_pow]
  rfl

theorem div_eq_word_shiftRight_iff {M n : Nat} (hb : b < 2 * H) (hM : 2 * H ≤ 2 ^ M) :
    b / 2 ^ (n % M) = word H (sval H b >>> n) ↔ ShiftAgrees H M b n := by
  unfold ShiftAgrees
  rcases Nat.lt_or_ge b H with hsb | hsb
  · have hshift : ((b : Int) >>> n) = (b / 2 ^ n : Nat) := by
      rw [← Nat.shiftRight_eq_div_pow]
      rfl
    rw [sval_of_lt hsb, hshift, word_natCast (Nat.lt_of_le_of_lt (Nat.div_le_self _ _) hb)]
    rcases Nat.lt_or_ge n M with hn | hn
    · rw [Nat.mod_eq_of_lt hn]
      exact iff_of_true rfl (Or.inl ⟨hsb, Or.inl hn⟩)
    · -- from `M` places on nothing of the value is left
      have hout : b / 2 ^ n = 0 := Nat.div_eq_of_lt
        (Nat.lt_of_lt_of_le (Nat.lt_of_lt_of_le hb hM) (Nat.pow_le_pow_right (by omega) hn))
      rw [hout, Nat.div_eq_zero_iff_lt (Nat.two_pow_pos _)]
      omega
  · have hle : (2 * H - b - 1) / 2 ^ n ≤ 2 * H - b - 1 := Nat.div_le_self _ _
    have hself : (2 * H - b - 1) / 2 ^ n = 2 * H - b - 1 ↔ 2 * H - b - 1 = 0 ∨ n = 0 := by
      rw [Nat.div_eq_self, Nat.pow_eq_one]
      simp
    rw [sval_of_ge hsb hb, neg_shiftRight (by omega)]
    generalize (2 * H - b - 1) / 2 ^ n = q at hle hself
    rw [word_neg (by omega) (by omega)]
    rcases Nat.eq_zero_or_pos (n % M) with hzero | hpos
    · rw [hzero, Nat.pow_zero, Nat.div_one]
      omega
    · -- a shifted value is below `H`, and the word of a negative number is not
      have hhalf : b / 2 ^ (n % M) ≤ b / 2 := by
        refine Nat.div_le_div_left ?_ (by omega)
        exact Nat.le_self_pow (Nat.ne_of_gt hpos) 2
      omega

end TinyEvm.Lib.TwosComplement
