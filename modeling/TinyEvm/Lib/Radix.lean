import Mathlib.Data.Nat.ModEq
import Mathlib.Tactic.Ring
import Mathlib.Tactic.Linarith
import Mathlib.Tactic.LinearCombination
import Mathlib.Tactic.Zify

/-!
# Two-digit numbers in a radix `B`

A double-width integer is a pair of digits `(h, l)` below a radix `B` and
stands for `h * B + l`. The facts here say how wrapping digit arithmetic adds
up to wrapping arithmetic on the pair: a carry out of the low digit is exactly
what the comparison of the wrapped sum with an operand sees, a borrow is what
the comparison of the wrapped difference sees, the order of pairs is the
lexicographic one, and a shift of a pair moves the end of one digit into the
other. The radix is arbitrary, so that one lemma serves both the
64-bit digits of a 128-bit number and the 128-bit digits of a 256-bit one; the
square `M` of the radix is a separate variable, so that the width of the pair
can be written as the literal its user has.
-/

namespace TinyEvm.Lib.Radix

variable {B M : Nat}

/-- The wrapped sum of two digits falls below an operand exactly on a carry. -/
theorem wrap_add_lt_iff {a b : Nat} (ha : a < B) (hb : b < B) :
    (a + b) % B < a ↔ B ≤ a + b := by
  rcases Nat.lt_or_ge (a + b) B with hlt | hge
  · rw [Nat.mod_eq_of_lt hlt]
    omega
  · rw [Nat.mod_eq_sub_mod hge, Nat.mod_eq_of_lt (by omega)]
    omega

/-- The wrapped difference of two digits rises above the minuend exactly on a
borrow. -/
theorem lt_wrap_sub_iff {a b : Nat} (ha : a < B) (hb : b < B) :
    a < (B - b + a) % B ↔ a < b := by
  rcases Nat.lt_or_ge a b with hlt | hge
  · rw [Nat.mod_eq_of_lt (by omega)]
    omega
  · rw [show B - b + a = a - b + B by omega, Nat.add_mod_right,
      Nat.mod_eq_of_lt (by omega)]
    omega

/-- Reducing a pair modulo `M` reduces its high digit modulo `B`. -/
theorem pair_mod {q r : Nat} (hM : M = B * B) (hr : r < B) :
    (q * B + r) % M = q % B * B + r := by
  have hB : 0 < B := by omega
  rw [hM, Nat.mod_mul, Nat.add_comm (q * B) r, Nat.add_mul_mod_self_right, Nat.mod_eq_of_lt hr,
    Nat.add_mul_div_right _ _ hB, Nat.div_eq_of_lt hr, Nat.zero_add, Nat.mul_comm B]
  omega

/-- A pair of digits stays below `M`. -/
theorem pair_lt {h l : Nat} (hM : M = B * B) (hh : h < B) (hl : l < B) : h * B + l < M :=
  calc h * B + l < h * B + B := by omega
    _ = (h + 1) * B := by ring
    _ ≤ B * B := Nat.mul_le_mul_right B hh
    _ = M := hM.symm

/-- Digit-wise addition with the carry added to the high digit. -/
theorem pair_add (ah bh : Nat) {al bl : Nat} (hM : M = B * B) (ha : al < B) (hb : bl < B) :
    (ah + bh + if B ≤ al + bl then 1 else 0) % B * B + (al + bl) % B
      = (ah * B + al + (bh * B + bl)) % M := by
  have hB : 0 < B := by omega
  split
  next hge =>
    have hlow : (al + bl) % B = al + bl - B := by
      rw [Nat.mod_eq_sub_mod hge, Nat.mod_eq_of_lt (by omega)]
    have hsum : ah * B + al + (bh * B + bl) = (ah + bh + 1) * B + (al + bl - B) := by
      have hexp : (ah + bh + 1) * B = ah * B + bh * B + B := by ring
      omega
    rw [hlow, hsum, pair_mod hM (by omega)]
  next hlt =>
    have hsum : ah * B + al + (bh * B + bl) = (ah + bh + 0) * B + (al + bl) := by ring
    rw [Nat.mod_eq_of_lt (show al + bl < B by omega), hsum, pair_mod hM (by omega)]

/-- Digit-wise subtraction with the borrow taken from the high digit. -/
theorem pair_sub {ah al bh bl : Nat} (hM : M = B * B) (hah : ah < B) (hbh : bh < B)
    (ha : al < B) (hb : bl < B) :
    (B - (if al < bl then 1 else 0) + (B - bh + ah) % B) % B * B + (B - bl + al) % B
      = (M - (bh * B + bl) + (ah * B + al)) % M := by
  have hB : 0 < B := by omega
  have hpair := pair_lt hM hbh hb
  -- both sides are the one residue `r` with `r + (bh, bl) ≡ (ah, al)` modulo `M`
  have hlow : (B - bl + al) % B = if al < bl then B - bl + al else al - bl := by
    split
    next hlt => exact Nat.mod_eq_of_lt (by omega)
    next hge =>
      rw [show B - bl + al = al - bl + B by omega, Nat.add_mod_right,
        Nat.mod_eq_of_lt (by omega)]
  have hsq : M = (B - 1) * B + B := by
    rw [hM]
    obtain ⟨c, rfl⟩ : ∃ c, B = c + 1 := ⟨B - 1, by omega⟩
    rw [Nat.add_sub_cancel]
    ring
  rw [hlow]
  split
  next hlt =>
    have hhigh : (B - 1 + (B - bh + ah) % B) % B = (B - 1 - bh + ah) % B := by
      rw [Nat.add_mod_mod, show B - 1 + (B - bh + ah) = B - 1 - bh + ah + B by omega,
        Nat.add_mod_right]
    have hsum : M - (bh * B + bl) + (ah * B + al)
        = (B - 1 - bh + ah) * B + (B - bl + al) := by
      have hexp : (B - 1 - bh + ah) * B + bh * B = (B - 1) * B + ah * B := by
        rw [← Nat.add_mul, ← Nat.add_mul]
        congr 1
        omega
      omega
    rw [hhigh, hsum, pair_mod hM (by omega)]
  next hge =>
    have hhigh : (B - 0 + (B - bh + ah) % B) % B = (B - bh + ah) % B := by
      rw [Nat.sub_zero, Nat.add_mod_left, Nat.mod_mod]
    have hsum : M - (bh * B + bl) + (ah * B + al) = (B - bh + ah) * B + (al - bl) := by
      have hexp : (B - bh + ah) * B + bh * B = M + ah * B := by
        rw [hM, ← Nat.add_mul, ← Nat.add_mul]
        congr 1
        omega
      have hle : bh * B + bl ≤ M := Nat.le_of_lt hpair
      omega
    rw [hhigh, hsum, pair_mod hM (by omega)]

/-- Pairs are ordered lexicographically. -/
theorem pair_lt_iff (ah bh : Nat) {al bl : Nat} (ha : al < B) (hb : bl < B) :
    bh * B + bl < ah * B + al ↔ if ah = bh then bl < al else bh < ah := by
  split
  next heq =>
    subst heq
    omega
  next hne =>
    refine ⟨?_, ?_⟩
    · intro hlt
      by_contra hle
      have hmul : (ah + 1) * B ≤ bh * B := Nat.mul_le_mul_right B (by omega)
      have hexp : (ah + 1) * B = ah * B + B := by ring
      omega
    · intro hlt
      have hmul : (bh + 1) * B ≤ ah * B := Nat.mul_le_mul_right B (by omega)
      have hexp : (bh + 1) * B = bh * B + B := by ring
      omega

/-- Equal pairs have equal digits. -/
theorem pair_inj {ah al bh bl : Nat} (ha : al < B) (hb : bl < B)
    (h : ah * B + al = bh * B + bl) : ah = bh ∧ al = bl := by
  have h1 : ¬bh * B + bl < ah * B + al := by omega
  have h2 : ¬ah * B + al < bh * B + bl := by omega
  rw [pair_lt_iff ah bh ha hb] at h1
  rw [pair_lt_iff bh ah hb ha] at h2
  by_cases hh : ah = bh
  · subst hh
    exact ⟨rfl, by omega⟩
  · rw [if_neg hh] at h1
    rw [if_neg (fun h => hh h.symm)] at h2
    omega

/-! ## Shifted pairs

A shift by less than a digit multiplies by `P` with `B = P * Q`: the low digit hands its
top part `l / Q` up, the high digit its bottom part down. A shift by a digit and more
multiplies by `B * P`. -/

/-- What is carried into a digit fits under what the shift leaves of it. -/
theorem shifted_lt {P Q : Nat} (hB : B = P * Q) (a : Nat) {b : Nat} (hb : b < B) :
    a * P % B + b / Q < B := by
  have hQ : 0 < Q := Nat.pos_of_ne_zero fun h => by simp [h] at hB; omega
  have hdiv : b / Q < P := by
    rw [Nat.div_lt_iff_lt_mul hQ, ← hB]
    exact hb
  have hmod : a * P % B = a % Q * P := by
    rw [hB, Nat.mul_comm P Q, Nat.mul_mod_mul_right]
  have hle : (a % Q + 1) * P ≤ Q * P := Nat.mul_le_mul_right P (Nat.mod_lt a hQ)
  rw [hmod, hB, Nat.mul_comm P Q]
  rw [Nat.add_mul, Nat.one_mul] at hle
  omega

theorem pair_shl {P Q h l : Nat} (hB : B = P * Q) (hM : M = B * B) (hl : l < B) :
    (h * P % B + l / Q) * B + l * P % B = (h * B + l) * P % M := by
  have hlt := shifted_lt hB h hl
  have hP : 0 < P := Nat.pos_of_ne_zero fun h => by simp [h] at hB; omega
  have hlow : l * P / B = l / Q := by
    rw [hB, Nat.mul_comm P Q, Nat.mul_div_mul_right _ _ hP]
  have hsplit : (h * B + l) * P = (h * P + l / Q) * B + l * P % B := by
    have hdiv := Nat.div_add_mod (l * P) B
    rw [hlow] at hdiv
    calc (h * B + l) * P = h * P * B + l * P := by ring
      _ = h * P * B + (B * (l / Q) + l * P % B) := by rw [hdiv]
      _ = (h * P + l / Q) * B + l * P % B := by ring
  have hhigh : (h * P + l / Q) % B = h * P % B + l / Q := by
    rw [← Nat.mod_add_mod, Nat.mod_eq_of_lt hlt]
  rw [hsplit, pair_mod hM (Nat.mod_lt _ (by omega)), hhigh]

theorem pair_shr {P Q h l : Nat} (hB : B = P * Q) (hP : 0 < P) :
    h / P * B + (h * Q % B + l / P) = (h * B + l) / P := by
  have hmod : h * Q % B = h % P * Q := by rw [hB, Nat.mul_mod_mul_right]
  have hsplit : h * B + l = P * (h * Q) + l := by
    rw [hB]
    ring
  rw [hsplit, Nat.mul_add_div hP, hmod, ← Nat.add_assoc]
  congr 1
  calc h / P * B + h % P * Q = (P * (h / P) + h % P) * Q := by
        rw [hB]
        ring
    _ = h * Q := by rw [Nat.div_add_mod]

theorem pair_shl_digit (P h l : Nat) (hM : M = B * B) :
    l * P % B * B = (h * B + l) * (B * P) % M := by
  have hsplit : (h * B + l) * (B * P) = l * P * B + M * (h * P) := by
    rw [hM]
    ring
  rw [hsplit, Nat.add_mul_mod_self_left, hM, Nat.mul_mod_mul_right]

theorem pair_shr_digit (P h : Nat) {l : Nat} (hl : l < B) :
    h / P = (h * B + l) / (B * P) := by
  have hB : 0 < B := by omega
  rw [← Nat.div_div_eq_div_mul, Nat.mul_comm h B, Nat.mul_add_div hB, Nat.div_eq_of_lt hl,
    Nat.add_zero]

/-! ## Four-digit products -/

/-- **Schoolbook columns.** The low four digits of the product of two four-digit
numbers are the four column sums of the ten partial products that reach them,
each product split into its low and its high digit. -/
theorem schoolbook (R a₀ a₁ a₂ a₃ b₀ b₁ b₂ b₃ : Nat) :
    ((a₀ + a₁ * R + a₂ * R ^ 2 + a₃ * R ^ 3) * (b₀ + b₁ * R + b₂ * R ^ 2 + b₃ * R ^ 3)) % R ^ 4
      = (a₀ * b₀ % R
        + (a₀ * b₁ % R + a₀ * b₀ / R + a₁ * b₀ % R) * R
        + (a₀ * b₂ % R + a₀ * b₁ / R + (a₁ * b₁ % R + a₁ * b₀ / R) + a₂ * b₀ % R) * R ^ 2
        + (a₀ * b₃ % R + a₀ * b₂ / R + (a₁ * b₂ % R + a₁ * b₁ / R)
            + (a₂ * b₁ % R + a₂ * b₀ / R) + a₃ * b₀ % R) * R ^ 3) % R ^ 4 := by
  have h00 := Nat.div_add_mod (a₀ * b₀) R
  have h01 := Nat.div_add_mod (a₀ * b₁) R
  have h02 := Nat.div_add_mod (a₀ * b₂) R
  have h03 := Nat.div_add_mod (a₀ * b₃) R
  have h10 := Nat.div_add_mod (a₁ * b₀) R
  have h11 := Nat.div_add_mod (a₁ * b₁) R
  have h12 := Nat.div_add_mod (a₁ * b₂) R
  have h20 := Nat.div_add_mod (a₂ * b₀) R
  have h21 := Nat.div_add_mod (a₂ * b₁) R
  have h30 := Nat.div_add_mod (a₃ * b₀) R
  generalize a₀ * b₀ / R = q00, a₀ * b₀ % R = r00 at h00 ⊢
  generalize a₀ * b₁ / R = q01, a₀ * b₁ % R = r01 at h01 ⊢
  generalize a₀ * b₂ / R = q02, a₀ * b₂ % R = r02 at h02 ⊢
  generalize a₀ * b₃ / R = q03, a₀ * b₃ % R = r03 at h03 ⊢
  generalize a₁ * b₀ / R = q10, a₁ * b₀ % R = r10 at h10 ⊢
  generalize a₁ * b₁ / R = q11, a₁ * b₁ % R = r11 at h11 ⊢
  generalize a₁ * b₂ / R = q12, a₁ * b₂ % R = r12 at h12 ⊢
  generalize a₂ * b₀ / R = q20, a₂ * b₀ % R = r20 at h20 ⊢
  generalize a₂ * b₁ / R = q21, a₂ * b₁ % R = r21 at h21 ⊢
  generalize a₃ * b₀ / R = q30, a₃ * b₀ % R = r30 at h30 ⊢
  -- what the columns leave out is a multiple of `R ^ 4`
  rw [show (a₀ + a₁ * R + a₂ * R ^ 2 + a₃ * R ^ 3) * (b₀ + b₁ * R + b₂ * R ^ 2 + b₃ * R ^ 3)
      = r00 + (r01 + q00 + r10) * R + (r02 + q01 + (r11 + q10) + r20) * R ^ 2
        + (r03 + q02 + (r12 + q11) + (r21 + q20) + r30) * R ^ 3
        + R ^ 4 * (q03 + q12 + q21 + q30 + (a₁ * b₃ + a₂ * b₂ + a₃ * b₁)
          + (a₂ * b₃ + a₃ * b₂) * R + a₃ * b₃ * R ^ 2) by
    zify at h00 h01 h02 h03 h10 h11 h12 h20 h21 h30 ⊢
    linear_combination -h00 - R * h01 - R * h10 - R ^ 2 * h02 - R ^ 2 * h11 - R ^ 2 * h20
      - R ^ 3 * h03 - R ^ 3 * h12 - R ^ 3 * h21 - R ^ 3 * h30]
  exact Nat.add_mul_mod_self_left _ _ _

/-- The column of weight `R ^ k` of the product of two numbers with the digits `a` and `b`:
the low digits of the partial products of that weight, and the high digits of those of the
weight below. -/
def column (R : Nat) (a b : Nat → Nat) (k : Nat) : Nat :=
  ((List.range (k + 1)).map fun i => a i * b (k - i) % R).sum +
    ((List.range k).map fun i => a i * b (k - 1 - i) / R).sum

section

variable (R : Nat) (a b : Nat → Nat)

theorem column_zero : column R a b 0 = a 0 * b 0 % R := by
  simp [column]

theorem column_one : column R a b 1 = a 0 * b 1 % R + a 1 * b 0 % R + a 0 * b 0 / R := by
  simp [column, List.range_succ]

theorem column_two :
    column R a b 2 = a 0 * b 2 % R + a 1 * b 1 % R + a 2 * b 0 % R
      + (a 0 * b 1 / R + a 1 * b 0 / R) := by
  simp [column, List.range_succ, Nat.add_assoc]

theorem column_three :
    column R a b 3 = a 0 * b 3 % R + a 1 * b 2 % R + a 2 * b 1 % R + a 3 * b 0 % R
      + (a 0 * b 2 / R + a 1 * b 1 / R + a 2 * b 0 / R) := by
  simp [column, List.range_succ, Nat.add_assoc]

/-- `schoolbook`, column by column. -/
theorem schoolbook_columns :
    ((a 0 + a 1 * R + a 2 * R ^ 2 + a 3 * R ^ 3) * (b 0 + b 1 * R + b 2 * R ^ 2 + b 3 * R ^ 3)) % R ^ 4
      = (column R a b 0 + column R a b 1 * R + column R a b 2 * R ^ 2 + column R a b 3 * R ^ 3)
        % R ^ 4 := by
  rw [schoolbook, column_zero, column_one, column_two, column_three]
  ring_nf

end

end TinyEvm.Lib.Radix
