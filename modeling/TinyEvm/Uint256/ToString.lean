import TinyEvm.Lib.Numerals
import TinyEvm.Uint256.Div128

/-!
# `tostring128` and `tostring256`

Repeated division by the base writes the digits from the least significant on, the
string is ended, and `reverseString` turns it round in place. The two routines
differ in the integers they call, which is what `Numbers` abstracts from; `tostring`
is their common body.

`Rendered` says what comes out. A buffer has no end here, so that a write behind the
`outLength` characters of the caller shows: the test `offset > outLength - 1` is made
for digits only, and the end of the string goes to `out[outLength]` when the digits
fill the buffer. With `outLength` zero the bound wraps around to `2^32 - 1` and
nothing is refused.
-/

namespace TinyEvm

open Lib.Numerals

abbrev Chars := Nat → UInt8

def HEXDIGITS : List UInt8 := "0123456789abcdef".toList.map fun c => UInt8.ofNat c.toNat

/-- `HEXDIGITS[i]`; behind the digits stands the end of the string. -/
def hexDigit (i : UInt8) : UInt8 := HEXDIGITS.getD i.toNat 0

def setChar (out : Chars) (i : UInt32) (c : UInt8) : Chars := fun k => if k = i.toNat then c else out k

/-! ## `reverseString` -/

/-- The loop over `i` and `j`, for at most `rounds` rounds. -/
def reverseLoop : Nat → UInt32 → UInt32 → Chars → Chars
  | 0, _, _, str => str
  | rounds + 1, i, j, str =>
    if i < j then
      let c := str i.toNat
      reverseLoop rounds (i + 1) (j - 1) (setChar (setChar str i (str j.toNat)) j c)
    else str

def reverseString (str : Chars) (length : UInt32) : Chars :=
  reverseLoop length.toNat 0 (length - 1) str

theorem reverseLoop_eq : ∀ (rounds : Nat) (i j : UInt32) (str : Chars), i.toNat ≤ j.toNat + 1 →
    j.toNat < i.toNat + 2 * rounds → reverseLoop rounds i j str
      = fun k => if i.toNat ≤ k ∧ k ≤ j.toNat then str (i.toNat + j.toNat - k) else str k := by
  intro rounds
  induction rounds with
  | zero =>
    intro i j str _ hrounds
    funext k
    rw [reverseLoop, if_neg (by omega)]
  | succ rounds ih =>
    intro i j str hij hrounds
    rw [reverseLoop]
    split
    next hlt =>
      rw [UInt32.lt_iff_toNat_lt] at hlt
      have hjlt := j.toNat_lt
      have hi : (i + 1).toNat = i.toNat + 1 := by
        rw [UInt32.toNat_add]
        exact Nat.mod_eq_of_lt (by rw [UInt32.toNat_one]; omega)
      have hj : (j - 1).toNat = j.toNat - 1 :=
        UInt32.toNat_sub_of_le _ _ (UInt32.le_iff_toNat_le.mpr (by rw [UInt32.toNat_one]; omega))
      rw [ih _ _ _ (by omega) (by omega)]
      funext k
      simp only [setChar, hi, hj]
      -- the two ends were exchanged, what is between them is turned round
      by_cases hki : k = i.toNat
      · subst hki
        rw [if_neg (by omega), if_neg (by omega), if_pos rfl, if_pos (by omega)]
        congr 1
        omega
      · by_cases hkj : k = j.toNat
        · subst hkj
          rw [if_neg (by omega), if_pos rfl, if_pos (by omega)]
          congr 1
          omega
        · by_cases hmid : i.toNat ≤ k ∧ k ≤ j.toNat
          · rw [if_pos (by omega), if_pos hmid, if_neg (by omega), if_neg (by omega)]
            congr 1
            omega
          · rw [if_neg (by omega), if_neg hmid, if_neg hkj, if_neg hki]
    next hge =>
      rw [UInt32.lt_iff_toNat_lt] at hge
      funext k
      split
      next hmid =>
        congr 1
        omega
      next => rfl

/-- **The first `length` characters are turned round.** -/
theorem reverseString_eq (str : Chars) {length : UInt32} (h : 0 < length.toNat) :
    reverseString str length
      = fun k => if k < length.toNat then str (length.toNat - 1 - k) else str k := by
  have hlast : (length - 1).toNat = length.toNat - 1 :=
    UInt32.toNat_sub_of_le _ _ (UInt32.le_iff_toNat_le.mpr (by rw [UInt32.toNat_one]; omega))
  have hzero : (0 : UInt32).toNat = 0 := rfl
  rw [reverseString, reverseLoop_eq _ _ _ _ (by omega) (by omega)]
  funext k
  rw [hlast, hzero]
  by_cases hk : k < length.toNat
  · rw [if_pos (by omega), if_pos hk, Nat.zero_add]
  · rw [if_neg (by omega), if_neg hk]

/-! ## `tostring` -/

/-- The calls by which the two routines differ. -/
structure Numbers (W : Type) where
  zero : W → Bool
  divmod : W → W → Option (W × W)
  ofBase : UInt32 → W
  lowByte : W → UInt8

section

variable {W : Type} (N : Numbers W)

/-- The `do` loop, for at most `rounds` rounds: whether it got to the end, `offset` and
`out`. -/
def digitLoop (base : W) (outLength : UInt32) : Nat → W → UInt32 → Chars → Option (Bool × UInt32 × Chars)
  | 0, _, _, _ => none
  | rounds + 1, rDiv, offset, out =>
    if offset > outLength - 1 then some (false, offset, out)
    else match N.divmod rDiv base with
      | none => none
      | some (rDiv, rMod) =>
        let out := setChar out offset (hexDigit (N.lowByte rMod))
        if N.zero rDiv then some (true, offset + 1, out)
        else digitLoop base outLength rounds rDiv (offset + 1) out

def tostring (number : W) (baseParam : UInt32) (out : Chars) (outLength : UInt32) :
    Option (Bool × Chars) :=
  if baseParam < 2 ∨ baseParam > 16 then some (false, out)
  else (digitLoop N (N.ofBase baseParam) outLength 256 number 0 out).map fun (done, offset, out) =>
    if done then (true, reverseString (setChar out offset 0) offset) else (false, out)

end

def numbers128 : Numbers Uint128 where
  zero := zero128
  divmod := divmod128 128
  ofBase baseParam := ⟨0, baseParam.toUInt64⟩
  lowByte rMod := rMod.lower.toUInt8

def numbers256 : Numbers Uint256 where
  zero := zero256
  divmod := divmod256 256
  ofBase baseParam := ⟨clear128, ⟨0, baseParam.toUInt64⟩⟩
  lowByte rMod := rMod.lower.lower.toUInt8

def tostring128 : Uint128 → UInt32 → Chars → UInt32 → Option (Bool × Chars) := tostring numbers128

def tostring256 : Uint256 → UInt32 → Chars → UInt32 → Option (Bool × Chars) := tostring numbers256

/-- The numbers behind the calls. -/
structure Numbers.Lawful {W : Type} (N : Numbers W) (val : W → Nat) : Prop where
  zero : ∀ w, N.zero w = true ↔ val w = 0
  divmod : ∀ (l : W) (b : UInt32), 2 ≤ b.toNat → b.toNat ≤ 16 →
    ∃ q m, N.divmod l (N.ofBase b) = some (q, m) ∧ val q = val l / b.toNat ∧
      (N.lowByte m).toNat = val l % b.toNat
  lt : ∀ w, val w < 2 ^ 256

/-- Quotient and remainder are the only ones. -/
theorem div_mod_of_eq {l q m b : Nat} (h : l = q * b + m) (hm : m < b) : q = l / b ∧ m = l % b := by
  have hunique := (Nat.div_mod_unique (a := l) (d := q) (Nat.zero_lt_of_lt hm)).mpr
    ⟨by rw [h, Nat.mul_comm, Nat.add_comm], hm⟩
  exact ⟨hunique.1.symm, hunique.2.symm⟩

theorem numbers128_lawful : numbers128.Lawful Uint128.val where
  zero _ := zero128_iff
  lt w := Nat.lt_trans w.val_lt (by norm_num)
  divmod := by
    intro l b hlow hhigh
    have hbase : (numbers128.ofBase b).val = b.toNat := by
      rw [numbers128, Uint128.val_low, UInt32.toNat_toUInt64]
    obtain ⟨q, m, hrun, heq, hlt⟩ :=
      divmod128_spec (l := l) (r := numbers128.ofBase b) (by omega) (Nat.le_refl 128)
    rw [hbase] at heq hlt
    obtain ⟨hq, hm⟩ := div_mod_of_eq heq hlt
    refine ⟨q, m, hrun, hq, ?_⟩
    rw [← hm, Uint128.val] at *
    show m.lower.toUInt8.toNat = _
    rw [UInt64.toNat_toUInt8]
    omega

theorem numbers256_lawful : numbers256.Lawful Uint256.val where
  zero _ := zero256_iff
  lt := Uint256.val_lt
  divmod := by
    intro l b hlow hhigh
    have hbase : (numbers256.ofBase b).val = b.toNat := by
      rw [numbers256, Uint256.val_low, Uint128.val_low, UInt32.toNat_toUInt64]
    obtain ⟨q, m, hrun, heq, hlt⟩ :=
      divmod256_spec (l := l) (r := numbers256.ofBase b) (by omega) (Nat.le_refl 256)
    rw [hbase] at heq hlt
    obtain ⟨hq, hm⟩ := div_mod_of_eq heq hlt
    refine ⟨q, m, hrun, hq, ?_⟩
    rw [← hm]
    show m.lower.lower.toUInt8.toNat = _
    rw [UInt64.toNat_toUInt8, m.lowest_toNat]
    omega

/-! ## The digits -/

def digitChar (d : Nat) : UInt8 := hexDigit (UInt8.ofNat d)

/-- The digits `ds` written from `o` on. -/
def emit (out : Chars) (o : Nat) (ds : List Nat) : Chars :=
  fun k => if o ≤ k ∧ k < o + ds.length then digitChar (ds.getD (k - o) 0) else out k

theorem emit_nil (out : Chars) (o : Nat) : emit out o [] = out := by
  funext k
  exact if_neg (by simp)

theorem emit_cons (out : Chars) (o : Nat) (d : Nat) (ds : List Nat) :
    emit out o (d :: ds) = emit (fun k => if k = o then digitChar d else out k) (o + 1) ds := by
  funext k
  simp only [emit, List.length_cons]
  by_cases hk : k = o
  · subst hk
    rw [if_pos (by omega), if_neg (by omega), if_pos rfl, Nat.sub_self]
    rfl
  · by_cases hin : o + 1 ≤ k ∧ k < o + 1 + ds.length
    · rw [if_pos (by omega), if_pos hin, show k - o = k - (o + 1) + 1 by omega, List.getD_cons_succ]
    · rw [if_neg (by omega), if_neg hin, if_neg hk]

section

variable {W : Type} {N : Numbers W} {val : W → Nat} {b outLength : UInt32}

/-- What `offset > outLength - 1` refuses: nothing, when `outLength` is zero. -/
def limit (outLength : UInt32) : Nat := (outLength - 1).toNat + 1

theorem limit_of_pos (h : 0 < outLength.toNat) : limit outLength = outLength.toNat := by
  have hsub : (outLength - 1).toNat = outLength.toNat - 1 :=
    UInt32.toNat_sub_of_le _ _ (UInt32.le_iff_toNat_le.mpr (by rw [UInt32.toNat_one]; omega))
  rw [limit, hsub]
  omega

/-- **The loop writes the numeral**, or as much of it as there is room for. -/
theorem digitLoop_eq (outLength : UInt32) (hN : N.Lawful val) (hlow : 2 ≤ b.toNat) (hhigh : b.toNat ≤ 16) :
    ∀ (rounds : Nat) (w : W) (offset : UInt32) (out : Chars),
      (numerals b.toNat (val w)).length ≤ rounds → offset.toNat ≤ limit outLength →
      offset.toNat + rounds < 2 ^ 32 →
      ∃ offset', digitLoop N (N.ofBase b) outLength rounds w offset out
          = some (decide (offset.toNat + (numerals b.toNat (val w)).length ≤ limit outLength), offset',
            emit out offset.toNat ((numerals b.toNat (val w)).take (limit outLength - offset.toNat))) ∧
        (offset.toNat + (numerals b.toNat (val w)).length ≤ limit outLength →
          offset'.toNat = offset.toNat + (numerals b.toNat (val w)).length) := by
  intro rounds
  induction rounds with
  | zero =>
    intro w offset out hlen _ _
    exact absurd (List.length_eq_zero_iff.mp (Nat.le_zero.mp hlen)) numerals_ne_nil
  | succ rounds ih =>
    intro w offset out hlen hlimit hroom
    have hpos := List.length_pos_iff.mpr (numerals_ne_nil (b := b.toNat) (n := val w))
    rw [digitLoop]
    by_cases hfull : offset > outLength - 1
    · rw [if_pos hfull]
      rw [gt_iff_lt, UInt32.lt_iff_toNat_lt] at hfull
      unfold limit at hlimit ⊢
      rw [show (outLength - 1).toNat + 1 - offset.toNat = 0 by omega, List.take_zero, emit_nil,
        decide_eq_false (by omega)]
      exact ⟨offset, rfl, fun h => absurd h (by omega)⟩
    · rw [if_neg hfull]
      rw [gt_iff_lt, UInt32.lt_iff_toNat_lt] at hfull
      have hbelow : offset.toNat < limit outLength := by
        unfold limit
        omega
      obtain ⟨q, m, hrun, hq, hm⟩ := hN.divmod w b hlow hhigh
      have hnext : (offset + 1).toNat = offset.toNat + 1 := by
        rw [UInt32.toNat_add]
        exact Nat.mod_eq_of_lt (by rw [UInt32.toNat_one]; omega)
      have hchar : hexDigit (N.lowByte m) = digitChar (val w % b.toNat) := by
        rw [digitChar, ← hm, UInt8.ofNat_toNat]
      have htake : ∀ ds : List Nat, emit out offset.toNat
            ((val w % b.toNat :: ds).take (limit outLength - offset.toNat))
          = emit (setChar out offset (hexDigit (N.lowByte m))) (offset + 1).toNat
            (ds.take (limit outLength - (offset + 1).toNat)) := by
        intro ds
        rw [show limit outLength - offset.toNat = limit outLength - (offset + 1).toNat + 1 by omega,
          List.take_succ_cons, emit_cons, hnext, hchar]
        rfl
      simp only [hrun]
      by_cases hlt : val w < b.toNat
      · have hzero : N.zero q = true := (hN.zero q).mpr (by rw [hq, Nat.div_eq_of_lt hlt])
        have hds : numerals b.toNat (val w) = [val w % b.toNat] := by
          rw [Nat.mod_eq_of_lt hlt]
          exact numerals_of_lt hlt
        rw [if_pos hzero, hds, htake, List.take_nil, emit_nil,
          decide_eq_true (by rw [List.length_singleton]; omega)]
        exact ⟨offset + 1, rfl, fun _ => hnext⟩
      · have hzero : N.zero q = true → False := fun h => by
          have hne := Nat.div_pos (Nat.le_of_not_lt hlt) (show 0 < b.toNat by omega)
          have heq := (hN.zero q).mp h
          omega
        have hds := numerals_of_le (show 1 < b.toNat by omega) (Nat.le_of_not_lt hlt)
        rw [← hq] at hds
        rw [hds, List.length_cons] at hlen
        obtain ⟨offset', hloop, hoffset⟩ := ih q (offset + 1)
          (setChar out offset (hexDigit (N.lowByte m))) (by omega) (by omega) (by omega)
        rw [if_neg hzero, hloop, hds, htake, List.length_cons]
        refine ⟨offset', ?_, fun h => ?_⟩
        · have hroom' : (offset + 1).toNat + (numerals b.toNat (val q)).length ≤ limit outLength ↔
              offset.toNat + ((numerals b.toNat (val q)).length + 1) ≤ limit outLength := by omega
          rw [decide_eq_decide.mpr hroom']
        · rw [hoffset (by omega), hnext]
          omega

end

/-! ## The text -/

theorem idxOf_digitChar {d : Nat} (h : d < 16) : HEXDIGITS.idxOf (digitChar d) = d := by
  have hall : ∀ d : Fin 16, HEXDIGITS.idxOf (digitChar d.val) = d.val := by decide
  exact hall ⟨d, h⟩

/-- What a call for the number `n` leaves in a buffer that held `out`. -/
structure Rendered (n : Nat) (baseParam outLength : UInt32) (out : Chars) (done : Bool) (out' : Chars) :
    Prop where
  /-- A base from two to sixteen, and room for the digits, or none at all. -/
  done_iff : done = true ↔ (2 ≤ baseParam.toNat ∧ baseParam.toNat ≤ 16) ∧
    (outLength = 0 ∨ (numerals baseParam.toNat n).length ≤ outLength.toNat)
  /-- The numeral, most significant digit first, and the end of the string behind it. -/
  text : done = true → ∀ k, out' k =
    if k < (numerals baseParam.toNat n).length then
      digitChar ((numerals baseParam.toNat n).reverse.getD k 0)
    else if k = (numerals baseParam.toNat n).length then 0 else out k
  /-- The text stands for the number. -/
  reads : done = true → readNumeral baseParam.toNat
    ((List.range (numerals baseParam.toNat n).length).map fun k => HEXDIGITS.idxOf (out' k)) = n
  /-- Without room, the last digits, backwards. -/
  short : done = false → 2 ≤ baseParam.toNat → baseParam.toNat ≤ 16 → ∀ k, out' k =
    if k < outLength.toNat then digitChar ((numerals baseParam.toNat n).getD k 0) else out k
  refused : ¬(2 ≤ baseParam.toNat ∧ baseParam.toNat ≤ 16) → out' = out

/-- The digits `ds`, ended and turned round. -/
theorem reversed_text (out : Chars) (ds : List Nat) {length : UInt32} (hlen : length.toNat = ds.length)
    (hpos : 0 < ds.length) (k : Nat) : reverseString (setChar (emit out 0 ds) length 0) length k =
      if k < ds.length then digitChar (ds.reverse.getD k 0) else if k = ds.length then 0 else out k := by
  rw [reverseString_eq _ (by omega), hlen]
  dsimp only
  split
  next hk =>
    have hat : ds.length - 1 - k < ds.length := by omega
    rw [setChar, hlen, if_neg (by omega), emit, if_pos (by omega), Nat.sub_zero]
    rw [List.getD_eq_getElem _ _ hat, List.getD_eq_getElem _ _ (by simpa using hk), List.getElem_reverse]
  next hk =>
    rw [setChar, hlen]
    split
    · rfl
    · exact if_neg (by omega)

theorem emit_take (out : Chars) {ds : List Nat} {n : Nat} (h : n ≤ ds.length) (k : Nat) :
    emit out 0 (ds.take n) k = if k < n then digitChar (ds.getD k 0) else out k := by
  have hmin : min n ds.length = n := Nat.min_eq_left h
  simp only [emit, List.length_take, hmin, Nat.zero_le, true_and, Nat.zero_add, Nat.sub_zero]
  split
  next hk => simp [List.getD_eq_getElem?_getD, hk]
  next => rfl

/-- Digits below sixteen are read back from their characters. -/
theorem map_idxOf_text (ds : List Nat) (hds : ∀ d ∈ ds, d < 16) {out : Chars}
    (htext : ∀ k, k < ds.length → out k = digitChar (ds.getD k 0)) :
    (List.range ds.length).map (fun k => HEXDIGITS.idxOf (out k)) = ds := by
  refine List.ext_getElem (by simp) fun k _ hk => ?_
  rw [List.getElem_map, List.getElem_range, htext k hk, List.getD_eq_getElem _ _ hk]
  exact idxOf_digitChar (hds _ (List.getElem_mem hk))

section

variable {W : Type} {N : Numbers W} {val : W → Nat}

/-- **What `tostring` renders.** -/
theorem tostring_rendered (hN : N.Lawful val) (number : W) (baseParam outLength : UInt32) (out : Chars) :
    ∃ done out', tostring N number baseParam out outLength = some (done, out') ∧
      Rendered (val number) baseParam outLength out done out' := by
  unfold tostring
  by_cases hbase : 2 ≤ baseParam.toNat ∧ baseParam.toNat ≤ 16
  · have hcond : ¬(baseParam < 2 ∨ baseParam > 16) := by
      rw [gt_iff_lt, UInt32.lt_iff_toNat_lt, UInt32.lt_iff_toNat_lt]
      exact fun h => h.elim (fun h => absurd hbase.1 (Nat.not_le.mpr h))
        fun h => absurd hbase.2 (Nat.not_le.mpr h)
    have hpos := List.length_pos_iff.mpr (numerals_ne_nil (b := baseParam.toNat) (n := val number))
    have hlen : (numerals baseParam.toNat (val number)).length ≤ 256 :=
      numerals_length_le (by omega) (by omega)
        (Nat.lt_of_lt_of_le (hN.lt number) (Nat.pow_le_pow_left hbase.1 256))
    obtain ⟨offset, hloop, hoffset⟩ := digitLoop_eq outLength hN hbase.1 hbase.2 256 number
      0 out hlen (Nat.zero_le _) (by decide)
    simp only [UInt32.toNat_zero, Nat.zero_add, Nat.sub_zero] at hloop hoffset
    rw [if_neg hcond, hloop, Option.map_some]
    have hdigit : ∀ d ∈ numerals baseParam.toNat (val number), d < 16 := fun d hd =>
      Nat.lt_of_lt_of_le (lt_of_mem_numerals (by omega) hd) hbase.2
    have hread := readNumeral_numerals baseParam.toNat (val number)
    have hfits : (numerals baseParam.toNat (val number)).length ≤ limit outLength ↔
        outLength = 0 ∨ (numerals baseParam.toNat (val number)).length ≤ outLength.toNat := by
      by_cases hzero : outLength = 0
      · subst hzero
        have hlimit : limit 0 = 2 ^ 32 := by decide
        rw [hlimit]
        exact iff_of_true (by omega) (Or.inl rfl)
      · have hne : outLength.toNat ≠ 0 := fun h => hzero (UInt32.toNat_inj.mp h)
        rw [limit_of_pos (by omega)]
        exact (or_iff_right hzero).symm
    by_cases hroom : (numerals baseParam.toNat (val number)).length ≤ limit outLength
    · rw [decide_eq_true hroom, List.take_of_length_le hroom]
      have htext := reversed_text out (numerals baseParam.toNat (val number)) (hoffset hroom) hpos
      refine ⟨true, _, rfl, ?_, fun _ => htext, fun _ => ?_, fun h => (nomatch h),
        fun h => absurd hbase h⟩
      · exact iff_of_true rfl ⟨hbase, hfits.mp hroom⟩
      · have hback := map_idxOf_text (numerals baseParam.toNat (val number)).reverse
          (fun d hd => hdigit d (List.mem_reverse.mp hd))
          (fun k hk => (htext k).trans (if_pos (by simpa using hk)))
        rw [List.length_reverse] at hback
        rw [hback, hread]
    · rw [decide_eq_false hroom]
      refine ⟨false, _, rfl, ?_, fun h => (nomatch h), fun h => (nomatch h), fun _ _ _ k => ?_,
        fun h => absurd hbase h⟩
      · exact iff_of_false Bool.false_ne_true fun h => hroom (hfits.mpr h.2)
      · have hzero : outLength ≠ 0 := fun h => hroom (hfits.mpr (Or.inl h))
        have hne : outLength.toNat ≠ 0 := fun h => hzero (UInt32.toNat_inj.mp h)
        rw [limit_of_pos (by omega)] at hroom ⊢
        exact emit_take out (by omega) k
  · have hcond : baseParam < 2 ∨ baseParam > 16 := by
      rw [gt_iff_lt, UInt32.lt_iff_toNat_lt, UInt32.lt_iff_toNat_lt]
      rw [not_and_or, Nat.not_le, Nat.not_le] at hbase
      exact hbase
    rw [if_pos hcond]
    refine ⟨false, out, rfl, ?_, fun h => (nomatch h), fun h => (nomatch h),
      fun _ hlow hhigh => absurd ⟨hlow, hhigh⟩ hbase, fun _ => rfl⟩
    exact iff_of_false Bool.false_ne_true fun h => hbase h.1

end

/-- **Both routines end, and render the number** in the bases they take: the text is
the numeral, it reads back as the number, and the end of the string stands behind it
even where the buffer is full. -/
theorem tostring_text (number : Uint128) (word : Uint256) (baseParam outLength : UInt32) (out : Chars) :
    (∃ done out', tostring128 number baseParam out outLength = some (done, out') ∧
      Rendered number.val baseParam outLength out done out') ∧
    ∃ done out', tostring256 word baseParam out outLength = some (done, out') ∧
      Rendered word.val baseParam outLength out done out' :=
  ⟨tostring_rendered numbers128_lawful number baseParam outLength out,
    tostring_rendered numbers256_lawful word baseParam outLength out⟩

end TinyEvm
