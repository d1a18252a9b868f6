import Mathlib.Data.Nat.Digits.Lemmas

/-!
# Numerals

The numeral of `n` in base `b`, least significant digit first: the digits of `n`,
and one zero for zero. It is what repeated division by `b` gives when the first
division is always made (`numerals_of_lt`, `numerals_of_le`). `readNumeral` reads
digits the way they are written, most significant first.
-/

namespace TinyEvm.Lib.Numerals

/-- The digits of `n`, least significant first, and at least one. -/
def numerals (b n : Nat) : List Nat := if n = 0 then [0] else Nat.digits b n

/-- The number whose digits are `l`, most significant first. -/
def readNumeral (b : Nat) (l : List Nat) : Nat := l.foldl (fun n d => n * b + d) 0

theorem numerals_of_lt {b n : Nat} (h : n < b) : numerals b n = [n] := by
  unfold numerals
  split
  next hzero => rw [hzero]
  next hne => exact Nat.digits_of_lt b n hne h

theorem numerals_of_le {b n : Nat} (hb : 1 < b) (h : b ≤ n) :
    numerals b n = n % b :: numerals b (n / b) := by
  have hq : n / b ≠ 0 := Nat.ne_of_gt (Nat.div_pos h (by omega))
  unfold numerals
  rw [if_neg (by omega), if_neg hq, Nat.digits_def' hb (by omega)]

theorem numerals_ne_nil {b n : Nat} : numerals b n ≠ [] := by
  unfold numerals
  split
  · exact List.cons_ne_nil 0 []
  next hne => exact fun h => hne (Nat.digits_eq_nil_iff_eq_zero.mp h)

theorem lt_of_mem_numerals {b n d : Nat} (hb : 1 < b) (h : d ∈ numerals b n) : d < b := by
  unfold numerals at h
  split at h
  · rw [List.mem_singleton.mp h]
    omega
  · exact Nat.digits_lt_base hb h

/-- A number below `b ^ k` has no more than `k` digits. -/
theorem numerals_length_le {b n k : Nat} (hb : 1 < b) (hk : 0 < k) (h : n < b ^ k) :
    (numerals b n).length ≤ k := by
  unfold numerals
  split
  · exact hk
  · exact (Nat.digits_length_le_iff hb n).mpr h

theorem ofDigits_numerals (b n : Nat) : Nat.ofDigits b (numerals b n) = n := by
  unfold numerals
  split
  next hzero => simp [hzero]
  next => exact Nat.ofDigits_digits b n

/-- **A numeral is read back.** -/
theorem readNumeral_numerals (b n : Nat) : readNumeral b (numerals b n).reverse = n := by
  have hread : ∀ l : List Nat, readNumeral b l.reverse = Nat.ofDigits b l := by
    intro l
    induction l with
    | nil => rfl
    | cons d l ih =>
      rw [readNumeral, List.reverse_cons, List.foldl_append, ← readNumeral, ih, Nat.ofDigits_cons]
      simp [Nat.mul_comm, Nat.add_comm]
  rw [hread, ofDigits_numerals]

end TinyEvm.Lib.Numerals
