import TinyEvm.Uint256.Div

/-!
# `divmod128`

The division of 128-bit numbers is that of `divmod256` a level down, on limbs. Its
loop is the one of `Lib.ShiftSubtract` again, from the same alignment
(`start_inv`); what is proved here is what the routines it calls do to the numbers.
`bits128` counts on one limb.
-/

namespace TinyEvm

open Lib

def gte128 (number1 number2 : Uint128) : Bool := gt128 number1 number2 || equal128 number1 number2

def or128 : Uint128 → Uint128 → Uint128 := limbwise128 (· ||| ·)

/-- `while (up) { up >>= 1; result++; }` over a limb, which is zero after 64 rounds. -/
def limbLoop : Nat → UInt64 → UInt32 → UInt32
  | 0, _, result => result
  | rounds + 1, up, result => if up = 0 then result else limbLoop rounds (up >>> 1) (result + 1)

def bits128 (number : Uint128) : UInt32 :=
  if number.upper ≠ 0 then limbLoop 64 number.upper 64 else limbLoop 64 number.lower 0

structure DivState128 where
  copyd : Uint128
  adder : Uint128
  resDiv : Uint128
  resMod : Uint128

/-- One round of the loop, its guard already tested. -/
def divStep128 (s : DivState128) : DivState128 :=
  let s' := if gte128 s.resMod s.copyd then
      { s with resMod := minus128 s.resMod s.copyd, resDiv := or128 s.resDiv s.adder }
    else s
  { s' with copyd := shiftr128 s'.copyd 1, adder := shiftr128 s'.adder 1 }

def divLoop128 (r : Uint128) : Nat → DivState128 → Option DivState128
  | 0, s => if gte128 s.resMod r then none else some s
  | rounds + 1, s => if gte128 s.resMod r then divLoop128 r rounds (divStep128 s) else some s

/-- The loop as it starts: state and number of places. -/
def divStart128 (l r : Uint128) : DivState128 :=
  let one : Uint128 := ⟨0, 1⟩
  let diffBits := bits128 l - bits128 r
  let copyd := shiftl128 r diffBits
  let adder := shiftl128 one diffBits
  if gt128 copyd l then ⟨shiftr128 copyd 1, shiftr128 adder 1, clear128, l⟩
  else ⟨copyd, adder, clear128, l⟩

/-- Quotient and remainder, `none` when the loop does not end within `rounds` rounds. -/
def divmod128 (rounds : Nat) (l r : Uint128) : Option (Uint128 × Uint128) :=
  if gt128 r l then some (clear128, l)
  else (divLoop128 r rounds (divStart128 l r)).map fun s => (s.resDiv, s.resMod)

/-! ## What it calls -/

theorem limbLoop_toNat : ∀ (rounds : Nat) (up : UInt64) (result : UInt32),
    up.toNat < 2 ^ rounds → result.toNat + rounds < 2 ^ 32 →
    (limbLoop rounds up result).toNat = result.toNat + Nat.size up.toNat := by
  intro rounds
  induction rounds with
  | zero =>
    intro up result hup _
    rw [limbLoop, show up.toNat = 0 by omega, Nat.size_zero, Nat.add_zero]
  | succ rounds ih =>
    intro up result hup hroom
    rw [limbLoop]
    split
    next hzero =>
      rw [hzero]
      rfl
    next hzero =>
      have hne : up.toNat ≠ 0 := fun h => hzero (UInt64.toNat_inj.mp h)
      have hhalf : (up >>> 1).toNat = up.toNat / 2 := by
        rw [UInt64.toNat_shiftRight, Nat.shiftRight_eq_div_pow]
        rfl
      have hnext : (result + 1).toNat = result.toNat + 1 := by
        rw [UInt32.toNat_add]
        exact Nat.mod_eq_of_lt (by rw [UInt32.toNat_one]; omega)
      rw [ih _ _ (by rw [hhalf]; omega) (by omega), hhalf, hnext, size_half hne]
      omega

theorem bits128_toNat (x : Uint128) : (bits128 x).toNat = Nat.size x.val := by
  unfold bits128
  split
  next hupper =>
    have hne : x.upper.toNat ≠ 0 := fun h => hupper (UInt64.toNat_inj.mp h)
    rw [limbLoop_toNat _ _ _ x.upper.toNat_lt (by decide), Uint128.val, size_pair hne x.lower.toNat_lt]
    rfl
  next hupper =>
    have hzero : x.upper = 0 := by simpa using hupper
    rw [limbLoop_toNat _ _ _ x.lower.toNat_lt (by decide), Uint128.val, hzero]
    simp

theorem gte128_iff {x y : Uint128} : gte128 x y = true ↔ y.val ≤ x.val := by
  unfold gte128
  rw [Bool.or_eq_true, gt128_iff, equal128_iff, Nat.le_iff_lt_or_eq]
  exact or_congr_right ⟨fun h => h ▸ rfl, fun h => Uint128.val_inj h.symm⟩

theorem or128_val (x y : Uint128) : (or128 x y).val = x.val ||| y.val := by
  have hbits : (or128 x y).toBitVec = x.toBitVec ||| y.toBitVec := by
    simp only [or128, limbwise128, Uint128.toBitVec, UInt64.toBitVec_or]
    rw [BitVec.or_append]
  rw [← Uint128.toNat_toBitVec, hbits, BitVec.toNat_or, Uint128.toNat_toBitVec,
    Uint128.toNat_toBitVec]

theorem minus128_val_of_le {x y : Uint128} (h : y.val ≤ x.val) :
    (minus128 x y).val = x.val - y.val := by
  have hx := x.val_lt
  rw [minus128_val]
  omega

/-! ## The loop -/

/-- The numbers of a loop state. -/
def DivState128.nums (s : DivState128) : ShiftSubtract.State :=
  ⟨s.copyd.val, s.adder.val, s.resDiv.val, s.resMod.val⟩

theorem nums_divStep128 (s : DivState128) : (divStep128 s).nums = ShiftSubtract.step s.nums := by
  have hhalf : ∀ x : Uint128, (shiftr128 x 1).val = x.val / 2 := fun x => shiftr128_val x 1
  unfold divStep128 ShiftSubtract.step
  by_cases hge : s.copyd.val ≤ s.resMod.val
  · have hnums : s.nums.shifted ≤ s.nums.rem := hge
    rw [if_pos (gte128_iff.mpr hge), if_pos hnums]
    unfold DivState128.nums
    simp only [hhalf, or128_val, minus128_val_of_le hge]
  · have hnums : ¬s.nums.shifted ≤ s.nums.rem := hge
    rw [if_neg (fun h => hge (gte128_iff.mp h)), if_neg hnums]
    unfold DivState128.nums
    simp only [hhalf]

/-- The loop on limbs is the loop on numbers. -/
theorem nums_divLoop128 {r : Uint128} : ∀ (rounds : Nat) (s : DivState128),
    (divLoop128 r rounds s).map DivState128.nums = ShiftSubtract.loop r.val rounds s.nums := by
  intro rounds
  induction rounds with
  | zero =>
    intro s
    rw [divLoop128, ShiftSubtract.loop]
    by_cases hge : r.val ≤ s.resMod.val
    · rw [if_pos (gte128_iff.mpr hge), if_pos (show r.val ≤ s.nums.rem from hge)]
      rfl
    · rw [if_neg (fun h => hge (gte128_iff.mp h)), if_neg (show ¬r.val ≤ s.nums.rem from hge)]
      rfl
  | succ rounds ih =>
    intro s
    rw [divLoop128, ShiftSubtract.loop]
    by_cases hge : r.val ≤ s.resMod.val
    · rw [if_pos (gte128_iff.mpr hge), if_pos (show r.val ≤ s.nums.rem from hge), ih, nums_divStep128]
    · rw [if_neg (fun h => hge (gte128_iff.mp h)), if_neg (show ¬r.val ≤ s.nums.rem from hge)]
      rfl

theorem divStart128_inv {l r : Uint128} (hr : r.val ≠ 0) (h : r.val ≤ l.val) :
    ∃ k, k < 128 ∧ ShiftSubtract.Inv l.val r.val k (divStart128 l r).nums := by
  obtain ⟨hbound, hover, hfits⟩ := start_inv hr h rfl
  have hsize : Nat.size l.val ≤ 128 := Nat.size_le.mpr l.val_lt
  have hpos := Nat.size_pos.mpr (Nat.pos_of_ne_zero hr)
  have hdiff : (bits128 l - bits128 r).toNat = Nat.size l.val - Nat.size r.val := by
    rw [sub_toNat (by rw [bits128_toNat, bits128_toNat]; exact Nat.size_le_size h), bits128_toNat,
      bits128_toNat]
  have hplaces : Nat.size l.val - Nat.size r.val < 128 :=
    Nat.lt_of_lt_of_le (Nat.sub_lt (Nat.lt_of_lt_of_le hpos (Nat.size_le_size h)) hpos) hsize
  generalize Nat.size l.val - Nat.size r.val = d at hbound hover hfits hplaces hdiff
  -- neither the divisor nor the bit is shifted out
  have hcopyd : (shiftl128 r (bits128 l - bits128 r)).val = r.val * 2 ^ d := by
    rw [shiftl128_val, hdiff]
    refine Nat.mod_eq_of_lt (Nat.lt_of_lt_of_le hbound ?_)
    calc 2 * 2 ^ (Nat.size l.val - 1) ≤ 2 * 2 ^ 127 :=
          Nat.mul_le_mul_left 2 (Nat.pow_le_pow_right (by omega) (by omega))
      _ = 2 ^ 128 := by norm_num
  have hadder : (shiftl128 ⟨0, 1⟩ (bits128 l - bits128 r)).val = 2 ^ d := by
    rw [shiftl128_val, hdiff, Uint128.val_low, UInt64.toNat_one, Nat.one_mul]
    exact Nat.mod_eq_of_lt (Nat.pow_lt_pow_right (Nat.lt_succ_self 1) hplaces)
  have hhalf : ∀ x : Uint128, (shiftr128 x 1).val = x.val / 2 := fun x => shiftr128_val x 1
  unfold divStart128
  dsimp only
  by_cases hgt : l.val < r.val * 2 ^ d
  · obtain ⟨k, rfl, hinv⟩ := hover hgt
    rw [if_pos (gt128_iff.mpr (by rw [hcopyd]; exact hgt))]
    refine ⟨k, Nat.lt_of_succ_lt hplaces, ?_⟩
    unfold DivState128.nums
    simp only [hhalf, hcopyd, hadder]
    exact hinv
  · rw [if_neg (fun h => hgt (by rw [← hcopyd]; exact gt128_iff.mp h))]
    refine ⟨d, hplaces, ?_⟩
    unfold DivState128.nums
    simp only [hcopyd, hadder]
    exact hfits (Nat.le_of_not_lt hgt)

/-- **Division.** Every nonzero divisor is divided by within 128 rounds. -/
theorem divmod128_spec {l r : Uint128} (hr : r.val ≠ 0) {rounds : Nat} (hrounds : 128 ≤ rounds) :
    ∃ q m, divmod128 rounds l r = some (q, m) ∧ l.val = q.val * r.val + m.val ∧ m.val < r.val := by
  unfold divmod128
  by_cases h : r.val ≤ l.val
  · obtain ⟨k, hk, hinv⟩ := divStart128_inv hr h
    obtain ⟨t, hloop, hsound, hrem⟩ :=
      ShiftSubtract.loop_of_inv hinv (Nat.lt_of_lt_of_le hk hrounds)
    rw [← nums_divLoop128, Option.map_eq_some_iff] at hloop
    obtain ⟨s, hs, rfl⟩ := hloop
    refine ⟨s.resDiv, s.resMod, ?_, hsound.symm, hrem⟩
    rw [if_neg fun hgt => absurd (gt128_iff.mp hgt) (Nat.not_lt.mpr h), hs]
    rfl
  · refine ⟨clear128, l, if_pos (gt128_iff.mpr (by omega)), ?_, by omega⟩
    rw [clear128_val, Nat.zero_mul, Nat.zero_add]

end TinyEvm
