import Mathlib.Data.Nat.Size
import TinyEvm.Lib.ShiftSubtract
import TinyEvm.Uint256.Shift

/-!
# `divmod256`

The routine aligns the divisor with the dividend by the difference of their bit
lengths, corrects the alignment by one place if it went too far, and then runs the
shift-and-subtract loop of `Lib.ShiftSubtract` on words. `DivState.nums` reads the
numbers off a loop state; a round on words is a round on these numbers
(`nums_divStep`), so the loop is the library's (`nums_divLoop`).

The alignment makes the library's invariant true at the start: with `k` the number of
places, `r * 2^k` has as many bits as `l` or one less, so it does not overflow and twice
of it exceeds `l` (`start_inv`). Hence 256 rounds are enough for every nonzero divisor
(`divmod256_spec`). A zero divisor has bit length zero, passes the test
`gt256(r, l)`, and the loop runs forever (`divmod256_zero`).

The source shifts, subtracts and sets bits in place. `shiftr256` goes through a local
`result`, and `minus256` and `or256` read every limb before they write it, so the calls
with one word as source and target are the functions of `Uint256.Basic`.
-/

namespace TinyEvm

open Lib

/-! ## Bit lengths -/

theorem size_half {n : Nat} (h : n ≠ 0) : Nat.size n = Nat.size (n / 2) + 1 := by
  apply Nat.le_antisymm
  · rw [Nat.size_le, Nat.pow_succ]
    have hlt := Nat.lt_size_self (n / 2)
    omega
  · rw [Nat.succ_le_iff]
    cases hs : Nat.size (n / 2) with
    | zero => exact Nat.size_pos.mpr (Nat.pos_of_ne_zero h)
    | succ m =>
      have hle : 2 ^ m ≤ n / 2 := Nat.lt_size.mp (by omega)
      rw [Nat.lt_size, Nat.pow_succ]
      omega

/-- The length of a pair with a nonzero high digit of `d` bits. -/
theorem size_pair {d h l : Nat} (hh : h ≠ 0) (hl : l < 2 ^ d) :
    Nat.size (h * 2 ^ d + l) = d + Nat.size h := by
  apply Nat.le_antisymm
  · have hmul : (h + 1) * 2 ^ d ≤ 2 ^ Nat.size h * 2 ^ d :=
      Nat.mul_le_mul_right _ (Nat.lt_size_self h)
    rw [Nat.add_mul, Nat.one_mul] at hmul
    rw [Nat.size_le, Nat.add_comm d, Nat.pow_add]
    omega
  · have hpos := Nat.size_pos.mpr (Nat.pos_of_ne_zero hh)
    have hle : 2 ^ (Nat.size h - 1) ≤ h := Nat.lt_size.mp (by omega)
    have hmul : 2 ^ (Nat.size h - 1) * 2 ^ d ≤ h * 2 ^ d := Nat.mul_le_mul_right _ hle
    rw [show d + Nat.size h = (Nat.size h - 1 + d) + 1 by omega, Nat.succ_le_iff, Nat.lt_size,
      Nat.pow_add]
    omega

/-- The loop of `bits256` counts the bits: a `uint128_t` is zero before its rounds are
used up. -/
theorem bitsLoop_toNat : ∀ (rounds : Nat) (up : Uint128) (result : UInt32),
    up.val < 2 ^ rounds → result.toNat + rounds < 2 ^ 32 →
    (bitsLoop rounds up result).toNat = result.toNat + Nat.size up.val := by
  intro rounds
  induction rounds with
  | zero =>
    intro up result hup _
    rw [bitsLoop, show up.val = 0 by omega, Nat.size_zero, Nat.add_zero]
  | succ rounds ih =>
    intro up result hup hroom
    rw [bitsLoop]
    split
    next hzero => rw [zero128_iff.mp hzero, Nat.size_zero, Nat.add_zero]
    next hzero =>
      have hne : up.val ≠ 0 := fun h => hzero (zero128_iff.mpr h)
      have hhalf : (shiftr128 up 1).val = up.val / 2 := shiftr128_val up 1
      have hnext : (result + 1).toNat = result.toNat + 1 := by
        rw [UInt32.toNat_add]
        exact Nat.mod_eq_of_lt (by rw [UInt32.toNat_one]; omega)
      rw [ih _ _ (by rw [hhalf]; omega) (by omega), hhalf, hnext, size_half hne]
      omega

theorem bits256_toNat (w : Uint256) : (bits256 w).toNat = Nat.size w.val := by
  unfold bits256
  split
  next hupper =>
    have hne : w.upper.val ≠ 0 := by
      intro h
      rw [zero128_iff.mpr h] at hupper
      cases hupper
    rw [bitsLoop_toNat _ _ _ w.upper.val_lt (by decide), Uint256.val, size_pair hne w.lower.val_lt]
    rfl
  next hupper =>
    have hzero : w.upper.val = 0 := by
      rw [← zero128_iff]
      simpa using hupper
    rw [bitsLoop_toNat _ _ _ w.lower.val_lt (by decide), Uint256.val, hzero, Nat.zero_mul,
      Nat.zero_add]
    exact Nat.zero_add _

/-! ## A round -/

theorem gte256_iff {v w : Uint256} : gte256 v w = true ↔ w.val ≤ v.val := by
  unfold gte256
  rw [Bool.or_eq_true, gt256_iff, equal256_iff]
  refine ⟨?_, ?_⟩
  · intro h
    rcases h with hlt | rfl
    · exact Nat.le_of_lt hlt
    · exact Nat.le_refl _
  · intro h
    rcases Nat.lt_or_eq_of_le h with hlt | heq
    · exact Or.inl hlt
    · exact Or.inr (Uint256.val_inj heq.symm)

theorem or256_val (v w : Uint256) : (or256 v w).val = v.val ||| w.val := by
  rw [← Uint256.toNat_toBitVec, or256_toBitVec, BitVec.toNat_or, Uint256.toNat_toBitVec,
    Uint256.toNat_toBitVec]

theorem minus256_val_of_le {v w : Uint256} (h : w.val ≤ v.val) :
    (minus256 v w).val = v.val - w.val := by
  have hv := v.val_lt
  rw [minus256_val]
  omega

/-- The numbers of a loop state. -/
def DivState.nums (s : DivState) : ShiftSubtract.State :=
  ⟨s.copyd.val, s.adder.val, s.resDiv.val, s.resMod.val⟩

theorem nums_divStep (s : DivState) : (divStep s).nums = ShiftSubtract.step s.nums := by
  have hhalf : ∀ w : Uint256, (shiftr256 w 1).val = w.val / 2 := fun w => shiftr256_val w 1
  unfold divStep ShiftSubtract.step
  by_cases hge : s.copyd.val ≤ s.resMod.val
  · have hnums : s.nums.shifted ≤ s.nums.rem := hge
    rw [if_pos (gte256_iff.mpr hge), if_pos hnums]
    unfold DivState.nums
    simp only [hhalf, or256_val, minus256_val_of_le hge]
  · have hnums : ¬s.nums.shifted ≤ s.nums.rem := hge
    rw [if_neg (fun h => hge (gte256_iff.mp h)), if_neg hnums]
    unfold DivState.nums
    simp only [hhalf]

/-- The loop on words is the loop on numbers. -/
theorem nums_divLoop {r : Uint256} : ∀ (rounds : Nat) (s : DivState),
    (divLoop r rounds s).map DivState.nums = ShiftSubtract.loop r.val rounds s.nums := by
  intro rounds
  induction rounds with
  | zero =>
    intro s
    rw [divLoop, ShiftSubtract.loop]
    by_cases hge : r.val ≤ s.resMod.val
    · rw [if_pos (gte256_iff.mpr hge), if_pos (show r.val ≤ s.nums.rem from hge)]
      rfl
    · rw [if_neg (fun h => hge (gte256_iff.mp h)), if_neg (show ¬r.val ≤ s.nums.rem from hge)]
      rfl
  | succ rounds ih =>
    intro s
    rw [divLoop, ShiftSubtract.loop]
    by_cases hge : r.val ≤ s.resMod.val
    · rw [if_pos (gte256_iff.mpr hge), if_pos (show r.val ≤ s.nums.rem from hge), ih,
        nums_divStep]
    · rw [if_neg (fun h => hge (gte256_iff.mp h)), if_neg (show ¬r.val ≤ s.nums.rem from hge)]
      rfl

/-! ## The alignment -/

/-- **The start.** The divisor shifted by the difference of the bit lengths, or by one
less where that is above the dividend. -/
theorem start_inv {l r d : Nat} (hr : r ≠ 0) (hrl : r ≤ l) (hd : d = Nat.size l - Nat.size r) :
    (r * 2 ^ d < 2 * 2 ^ (Nat.size l - 1)) ∧
    (l < r * 2 ^ d → ∃ k, d = k + 1 ∧
      ShiftSubtract.Inv l r k ⟨r * 2 ^ d / 2, 2 ^ d / 2, 0, l⟩) ∧
    (r * 2 ^ d ≤ l → ShiftSubtract.Inv l r d ⟨r * 2 ^ d, 2 ^ d, 0, l⟩) := by
  have hsize : Nat.size r ≤ Nat.size l := Nat.size_le_size hrl
  have hpos := Nat.size_pos.mpr (Nat.pos_of_ne_zero hr)
  have hlow : 2 ^ (Nat.size r - 1) ≤ r := Nat.lt_size.mp (by omega)
  have hlt := Nat.lt_size_self l
  have htwo : 2 * 2 ^ (Nat.size l - 1) = 2 ^ Nat.size l := by
    rw [Nat.mul_comm, ← Nat.pow_succ]
    congr 1
    omega
  have hjoin : ∀ n, n + d = Nat.size l → 2 ^ n * 2 ^ d = 2 ^ Nat.size l := by
    intro n hn
    rw [← Nat.pow_add, hn]
  refine ⟨?_, ?_, ?_⟩
  · have hmul := Nat.mul_lt_mul_of_pos_right (Nat.lt_size_self r) (Nat.two_pow_pos d)
    rw [hjoin _ (by omega)] at hmul
    omega
  · intro hover
    cases d with
    | zero => omega
    | succ k =>
      have hhalf : r * 2 ^ (k + 1) / 2 = r * 2 ^ k := by
        rw [Nat.pow_succ, ← Nat.mul_assoc, Nat.mul_div_cancel _ (by omega)]
      have hbit : 2 ^ (k + 1) / 2 = 2 ^ k := by rw [Nat.pow_succ, Nat.mul_div_cancel _ (by omega)]
      refine ⟨k, rfl, hhalf, hbit, ?_, Nat.dvd_zero _, ?_⟩
      · show l < 2 * (r * 2 ^ (k + 1) / 2)
        rw [hhalf]
        rw [Nat.pow_succ, ← Nat.mul_assoc] at hover
        omega
      · show 0 * r + l = l
        omega
  · intro hfits
    refine ⟨rfl, rfl, ?_, Nat.dvd_zero _, ?_⟩
    · show l < 2 * (r * 2 ^ d)
      have hmul := Nat.mul_le_mul_right (2 ^ d) hlow
      rw [← Nat.pow_add, show Nat.size r - 1 + d = Nat.size l - 1 by omega] at hmul
      omega
    · show 0 * r + l = l
      omega

/-- `bits256(l) - bits256(r)` for a divisor that is not above the dividend. -/
theorem diffBits_toNat {l r : Uint256} (h : r.val ≤ l.val) :
    (bits256 l - bits256 r).toNat = Nat.size l.val - Nat.size r.val := by
  have hle : (bits256 r).toNat ≤ (bits256 l).toNat := by
    rw [bits256_toNat, bits256_toNat]
    exact Nat.size_le_size h
  rw [sub_toNat hle, bits256_toNat, bits256_toNat]

/-- The loop of `divmod256` as it starts: state and number of places. -/
def divStart (l r : Uint256) : DivState :=
  let one : Uint256 := ⟨clear128, ⟨0, 1⟩⟩
  let diffBits := bits256 l - bits256 r
  let copyd := shiftl256 r diffBits
  let adder := shiftl256 one diffBits
  if gt256 copyd l then ⟨shiftr256 copyd 1, shiftr256 adder 1, clear256, l⟩
  else ⟨copyd, adder, clear256, l⟩

theorem divmod256_eq {l r : Uint256} (h : r.val ≤ l.val) (rounds : Nat) :
    divmod256 rounds l r = (divLoop r rounds (divStart l r)).map fun s => (s.resDiv, s.resMod) := by
  unfold divmod256
  exact if_neg fun hgt => absurd (gt256_iff.mp hgt) (Nat.not_lt.mpr h)

theorem divStart_inv {l r : Uint256} (hr : r.val ≠ 0) (h : r.val ≤ l.val) :
    ∃ k, k < 256 ∧ ShiftSubtract.Inv l.val r.val k (divStart l r).nums := by
  obtain ⟨hbound, hover, hfits⟩ := start_inv hr h rfl
  have hsize : Nat.size l.val ≤ 256 := Nat.size_le.mpr l.val_lt
  have hone : ∀ x : UInt64, (⟨clear128, ⟨0, x⟩⟩ : Uint256).val = x.toNat := by
    intro x
    rw [Uint256.val_low, Uint128.val_low]
  have hpos := Nat.size_pos.mpr (Nat.pos_of_ne_zero hr)
  have hplaces : Nat.size l.val - Nat.size r.val < 256 :=
    Nat.lt_of_lt_of_le (Nat.sub_lt (Nat.lt_of_lt_of_le hpos (Nat.size_le_size h)) hpos) hsize
  generalize hd : Nat.size l.val - Nat.size r.val = d at hbound hover hfits hplaces
  -- neither the divisor nor the bit is shifted out
  have hcopyd : (shiftl256 r (bits256 l - bits256 r)).val = r.val * 2 ^ d := by
    rw [shiftl256_val, diffBits_toNat h, hd]
    refine Nat.mod_eq_of_lt (Nat.lt_of_lt_of_le hbound ?_)
    calc 2 * 2 ^ (Nat.size l.val - 1) ≤ 2 * 2 ^ 255 :=
          Nat.mul_le_mul_left 2 (Nat.pow_le_pow_right (by omega) (by omega))
      _ = 2 ^ 256 := by norm_num
  have hadder : (shiftl256 ⟨clear128, ⟨0, 1⟩⟩ (bits256 l - bits256 r)).val = 2 ^ d := by
    rw [shiftl256_val, diffBits_toNat h, hd, hone, UInt64.toNat_one, Nat.one_mul]
    exact Nat.mod_eq_of_lt (Nat.pow_lt_pow_right (Nat.lt_succ_self 1) hplaces)
  have hhalf : ∀ w : Uint256, (shiftr256 w 1).val = w.val / 2 := fun w => shiftr256_val w 1
  unfold divStart
  dsimp only
  by_cases hgt : l.val < r.val * 2 ^ d
  · obtain ⟨k, rfl, hinv⟩ := hover hgt
    rw [if_pos (gt256_iff.mpr (by rw [hcopyd]; exact hgt))]
    refine ⟨k, Nat.lt_of_succ_lt hplaces, ?_⟩
    unfold DivState.nums
    simp only [hhalf, hcopyd, hadder]
    exact hinv
  · rw [if_neg (fun h => hgt (by rw [← hcopyd]; exact gt256_iff.mp h))]
    refine ⟨d, hplaces, ?_⟩
    unfold DivState.nums
    simp only [hcopyd, hadder]
    exact hfits (Nat.le_of_not_lt hgt)

/-- **Division.** Every nonzero divisor is divided by within 256 rounds. -/
theorem divmod256_spec {l r : Uint256} (hr : r.val ≠ 0) {rounds : Nat} (hrounds : 256 ≤ rounds) :
    ∃ q m, divmod256 rounds l r = some (q, m) ∧ l.val = q.val * r.val + m.val ∧ m.val < r.val := by
  by_cases h : r.val ≤ l.val
  · obtain ⟨k, hk, hinv⟩ := divStart_inv hr h
    obtain ⟨t, hloop, hsound, hrem⟩ :=
      ShiftSubtract.loop_of_inv hinv (Nat.lt_of_lt_of_le hk hrounds)
    rw [← nums_divLoop, Option.map_eq_some_iff] at hloop
    obtain ⟨s, hs, rfl⟩ := hloop
    refine ⟨s.resDiv, s.resMod, ?_, hsound.symm, hrem⟩
    rw [divmod256_eq h, hs]
    rfl
  · refine ⟨clear256, l, if_pos (gt256_iff.mpr (by omega)), ?_, by omega⟩
    rw [clear256_val, Nat.zero_mul, Nat.zero_add]

/-- **Division by zero.** The loop never ends. -/
theorem divmod256_zero {r : Uint256} (hr : r.val = 0) (rounds : Nat) (l : Uint256) :
    divmod256 rounds l r = none := by
  have hloop := nums_divLoop (r := r) rounds (divStart l r)
  rw [hr, ShiftSubtract.loop_zero, Option.map_eq_none_iff] at hloop
  rw [divmod256_eq (by omega), hloop]
  rfl

end TinyEvm
