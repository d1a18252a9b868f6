import TinyEvm.Uint256.Div
import TinyEvm.Vm.Arithmetic

/-!
# The opcodes that divide

Six opcodes call `divmod256`: `DIV`, `SDIV`, `MOD`, `SMOD`, and `ADDMOD` and `MULMOD`
after a wrapping operation. Three things can come of the call (`callDivmod256_ok`,
`callDivmod256_null`, `callDivmod256_endless`):

* a nonzero divisor with both result pointers there gives quotient and remainder;
* a missing remainder pointer is stored through whatever the operands are, because both
  exits of `divmod256` publish a remainder. `DIV`, the only caller that passes `NULL`,
  never returns from a division;
* a zero divisor keeps the loop going forever. `DIV` is the only caller that looks.

So `MOD` is the remainder for every nonzero divisor, `DIV` is right for the zero divisor
only, and the other five are right for nonzero divisors, up to what they feed to
`divmod256`: `ADDMOD` and `MULMOD` reduce mod `2^256` first, and `MULMOD` inherits the
misplaced carry of `mul256`.
-/

namespace TinyEvm

open Lib.Exec

/-! ## A call of `divmod256` -/

/-- The quotient and the remainder of two words, as words, with the calls that return them. -/
theorem divmod256_values {l r : Uint256} (hr : r.val ≠ 0) :
    ∃ q m, (∀ rounds, 256 ≤ rounds → divmod256 rounds l r = some (q, m)) ∧
      q.val = l.val / r.val ∧ m.val = l.val % r.val := by
  have hvalues : ∀ {q m : Uint256}, l.val = q.val * r.val + m.val → m.val < r.val →
      q.val = l.val / r.val ∧ m.val = l.val % r.val := by
    intro q m heq hlt
    have hunique := (Nat.div_mod_unique (a := l.val) (d := q.val) (Nat.pos_of_ne_zero hr)).mpr
      ⟨by rw [heq, Nat.mul_comm, Nat.add_comm], hlt⟩
    exact ⟨hunique.1.symm, hunique.2.symm⟩
  obtain ⟨q, m, -, heq, hlt⟩ := divmod256_spec (l := l) hr (Nat.le_refl 256)
  refine ⟨q, m, ?_, hvalues heq hlt⟩
  intro rounds hrounds
  obtain ⟨q', m', hrun, heq', hlt'⟩ := divmod256_spec (l := l) hr hrounds
  -- the division equation leaves no choice, so more rounds change nothing
  have hq : q' = q := Uint256.val_inj ((hvalues heq' hlt').1.trans (hvalues heq hlt).1.symm)
  have hm : m' = m := Uint256.val_inj ((hvalues heq' hlt').2.trans (hvalues heq hlt).2.symm)
  rw [hrun, hq, hm]

theorem callDivmod256_ok {l r : Uint256} (hr : r.val ≠ 0) :
    ∃ q m, (∀ s, callDivmod256 l r true s = .ok (q, m) s) ∧
      q.val = l.val / r.val ∧ m.val = l.val % r.val := by
  obtain ⟨q, m, hrun, hq, hm⟩ := divmod256_values (l := l) hr
  refine ⟨q, m, ?_, hq, hm⟩
  intro s
  unfold callDivmod256
  rw [hrun divRounds (by decide)]
  rfl

/-- A `copy256` or `clear256` to a destination that may be absent. -/
def storeTo (there : Bool) (w : Uint256) : VmM Uint256 := if there then return w else throw .null

/-- `divmod256` with its stores in the order of the source. The exit for a divisor above the
dividend publishes the remainder first, the exit behind the loop publishes it last. -/
def divmod256Stores (l r : Uint256) (retDiv retMod : Bool) : VmM (Uint256 × Uint256) :=
  if gt256 r l then do
    let remainder ← storeTo retMod l
    let quotient ← storeTo retDiv clear256
    return (quotient, remainder)
  else
    match divLoop r divRounds (divStart l r) with
    | none => throw .endless
    | some s => do
      let quotient ← storeTo retDiv s.resDiv
      let remainder ← storeTo retMod s.resMod
      return (quotient, remainder)

/-- A call with a quotient pointer is the function with its stores. -/
theorem callDivmod256_eq (l r : Uint256) (retMod : Bool) :
    callDivmod256 l r retMod = divmod256Stores l r true retMod := by
  unfold callDivmod256 divmod256Stores
  by_cases hgt : gt256 r l = true
  · rw [if_pos hgt, show divmod256 divRounds l r = some (clear256, l) from if_pos hgt]
    cases retMod <;> rfl
  · have hle : r.val ≤ l.val := Nat.not_lt.mp fun h => hgt (gt256_iff.mpr h)
    rw [if_neg hgt, divmod256_eq hle]
    cases divLoop r divRounds (divStart l r) with
    | none => rfl
    | some s => cases retMod <;> rfl

/-- Without a remainder pointer a division that ends stores through `NULL`, whichever exit it
takes. -/
theorem callDivmod256_null {l r : Uint256} (hr : r.val ≠ 0) (s : Vm) :
    callDivmod256 l r false s = .error .null s := by
  obtain ⟨q, m, hrun, -, -⟩ := divmod256_values (l := l) hr
  have hends := hrun divRounds (by decide)
  rw [callDivmod256_eq]
  unfold divmod256Stores
  by_cases hgt : gt256 r l = true
  · rw [if_pos hgt]
    rfl
  · rw [divmod256_eq (Nat.not_lt.mp fun h => hgt (gt256_iff.mpr h)), Option.map_eq_some_iff] at hends
    obtain ⟨t, hloop, -⟩ := hends
    rw [if_neg hgt, hloop]
    rfl

theorem callDivmod256_endless {l r : Uint256} (hr : r.val = 0) (retMod : Bool) (s : Vm) :
    callDivmod256 l r retMod s = .error .endless s := by
  unfold callDivmod256
  rw [divmod256_zero hr]
  rfl

/-! ## `SDIV`, `MOD` and `SMOD` -/

theorem leaves_dividing_iff {b : UInt8} {result : Uint256 × Uint256 → Uint256} {sContract : Code}
    {s : Vm} {v : Nat} (hb : decodeInstruction b sContract = dividing result)
    (harity : (OpCode.ofByte b).arity = 2) (h1 : 2 ≤ s.sp) (h2 : s.sp < stackSpace)
    (hr : (s.slot (s.sp - 1)).val ≠ 0) :
    ∃ q m, q.val = (s.slot s.sp).val / (s.slot (s.sp - 1)).val ∧
      m.val = (s.slot s.sp).val % (s.slot (s.sp - 1)).val ∧
      (Leaves b sContract s v ↔ (result (q, m)).val = v) := by
  obtain ⟨q, m, hcall, hq, hm⟩ := callDivmod256_ok (l := s.slot s.sp) hr
  have hpush := Vm.room_popped₂ (show 1 ≤ s.sp by omega) h2
  have hrun : decodeInstruction b sContract s
      = .ok 0 { s.popped.popped.pushed (result (q, m)) with
          gasCharge := s.gasCharge + gasTable.stepGas5 } := by
    rw [hb]
    unfold dividing
    rw [popTwo_ok (by omega) h2, bind_ok (hcall _), bind_ok (stackPush_ok _ hpush)]
    rfl
  exact ⟨q, m, hq, hm, leaves_two_iff hrun harity h1 h2⟩

theorem dividing_endless {result : Uint256 × Uint256 → Uint256} {s : Vm} (h1 : 2 ≤ s.sp)
    (h2 : s.sp < stackSpace) (hr : (s.slot (s.sp - 1)).val = 0) :
    dividing result s = .error .endless s.popped.popped := by
  unfold dividing
  rw [popTwo_ok (by omega) h2, bind_error (callDivmod256_endless hr true _)]

/-- **`divmod256` divides, and `MOD` is the remainder.** For every nonzero divisor the loop
ends, in at most 256 rounds, with the quotient and the remainder. -/
theorem divmod256_divides_and_mod (l r : Uint256) (hr : r.val ≠ 0) :
    (∃ retDiv retMod, (∀ rounds, 256 ≤ rounds → divmod256 rounds l r = some (retDiv, retMod)) ∧
      l.val = retDiv.val * r.val + retMod.val ∧ retMod.val < r.val) ∧
    (∀ (sContract : Code) (s : Vm), 2 ≤ s.sp → s.sp < stackSpace → s.slot s.sp = l →
      s.slot (s.sp - 1) = r → Leaves 0x06 sContract s (l.val % r.val)) := by
  refine ⟨?_, ?_⟩
  · obtain ⟨q, m, hrun, hq, hm⟩ := divmod256_values (l := l) hr
    refine ⟨q, m, hrun, ?_, ?_⟩
    · rw [hq, hm, Nat.mul_comm]
      exact (Nat.div_add_mod l.val r.val).symm
    · rw [hm]
      exact Nat.mod_lt _ (Nat.pos_of_ne_zero hr)
  · intro sContract s h1 h2 hl hr'
    subst hl hr'
    obtain ⟨q, m, -, hm, hleaves⟩ :=
      leaves_dividing_iff (b := 0x06) rfl rfl h1 h2 hr
    exact hleaves.mpr hm

/-- `7 = 3 * 2 + 1`. -/
theorem divmod256_divides_seven : (lowWord 2).val ≠ 0 ∧
    Leaves 0x06 ⟨[0x06], by decide⟩ (stacked [lowWord 7, lowWord 2]) 1 := by
  have hne : (lowWord 2).val ≠ 0 := by decide
  refine ⟨hne, ?_⟩
  exact (divmod256_divides_and_mod (lowWord 7) (lowWord 2) hne).2 _ _ (by decide) (by decide) rfl rfl

/-! ## `ADDMOD` and `MULMOD` -/

theorem popThree_ok {α : Type} {s : Vm} (h1 : 2 ≤ s.sp) (h2 : s.sp < stackSpace)
    (f : Uint256 → Uint256 → Uint256 → VmM α) :
    (do
      let number1 ← stackPop
      let number2 ← stackPop
      let number3 ← stackPop
      f number1 number2 number3 : VmM α) s
      = f (s.slot s.sp) (s.slot (s.sp - 1)) (s.slot (s.sp - 2)) s.popped.popped.popped := by
  have hpop : InStack s.popped.popped.sp := by
    show InStack (s.sp - 1 - 1)
    exact ⟨by omega, by omega⟩
  have hread : s.popped.popped.slot s.popped.popped.sp = s.slot (s.sp - 2) := by
    show s.slot (s.sp - 1 - 1) = s.slot (s.sp - 2)
    congr 1
    omega
  rw [popTwo_ok (by omega) h2, bind_ok (stackPop_ok hpop), hread]

theorem leaves_modular_iff {b : UInt8} {f : Uint256 → Uint256 → Uint256} {gas : UInt32}
    {sContract : Code} {s : Vm} {v : Nat} (hb : decodeInstruction b sContract = modular f gas)
    (harity : (OpCode.ofByte b).arity = 3) (h1 : 3 ≤ s.sp) (h2 : s.sp < stackSpace)
    (hn : (s.slot (s.sp - 2)).val ≠ 0) :
    Leaves b sContract s v
      ↔ (f (s.slot s.sp) (s.slot (s.sp - 1))).val % (s.slot (s.sp - 2)).val = v := by
  obtain ⟨q, m, hcall, -, hm⟩ := callDivmod256_ok (l := f (s.slot s.sp) (s.slot (s.sp - 1))) hn
  have hpush : InStack (s.popped.popped.popped.sp + 1) := by
    show InStack (s.sp - 1 - 1 - 1 + 1)
    exact ⟨by omega, by omega⟩
  have hrun : decodeInstruction b sContract s
      = .ok 0 { s.popped.popped.popped.pushed m with gasCharge := s.gasCharge + gas } := by
    rw [hb]
    unfold modular
    rw [popThree_ok (by omega) h2, bind_ok (hcall _), bind_ok (stackPush_ok _ hpush)]
    rfl
  rw [← hm]
  refine leaves_pushed_iff hrun ?_ hpush
  rw [harity]
  show s.sp - 1 - 1 - 1 = s.sp - 3
  omega

theorem modular_endless {f : Uint256 → Uint256 → Uint256} {gas : UInt32} {s : Vm} (h1 : 3 ≤ s.sp)
    (h2 : s.sp < stackSpace) (hn : (s.slot (s.sp - 2)).val = 0) :
    modular f gas s = .error .endless s.popped.popped.popped := by
  unfold modular
  rw [popThree_ok (by omega) h2, bind_error (callDivmod256_endless hn true _)]

/-- A number read mod `M` after an error `e` has the right remainder by `n` exactly when
`n` divides the difference of the two: what `M` swallowed, less the error. -/
theorem mod_mod_eq_iff {x e M n : Nat} :
    (x + e) % M % n = x % n ↔ (n : Int) ∣ M * ((x + e) / M : Nat) - e := by
  have hsplit : (M : Int) * ((x + e) / M : Nat) - e = x - ((x + e) % M : Nat) := by
    have hdiv : ((M * ((x + e) / M) + (x + e) % M : Nat) : Int) = (x + e : Nat) :=
      congrArg Int.ofNat (Nat.div_add_mod (x + e) M)
    rw [Nat.cast_add, Nat.cast_mul, Nat.cast_add] at hdiv
    omega
  rw [hsplit]
  exact Nat.modEq_iff_dvd

/-- `ADDMOD` is right when the sum fits, and else for the moduli that divide `2^256`. -/
theorem addmod_iff {sContract : Code} {s : Vm} (h1 : 3 ≤ s.sp) (h2 : s.sp < stackSpace)
    (hn : (s.slot (s.sp - 2)).val ≠ 0) :
    Leaves 0x08 sContract s
        (((s.slot s.sp).val + (s.slot (s.sp - 1)).val) % (s.slot (s.sp - 2)).val)
      ↔ (s.slot s.sp).val + (s.slot (s.sp - 1)).val < 2 ^ 256 ∨ (s.slot (s.sp - 2)).val ∣ 2 ^ 256 := by
  rw [leaves_modular_iff (f := add256) rfl rfl h1 h2 hn, add256_val]
  have ha := (s.slot s.sp).val_lt
  have hb := (s.slot (s.sp - 1)).val_lt
  generalize (s.slot s.sp).val = a at ha
  generalize (s.slot (s.sp - 1)).val = b at hb
  have hiff := mod_mod_eq_iff (x := a + b) (e := 0) (M := 2 ^ 256) (n := (s.slot (s.sp - 2)).val)
  rw [Nat.add_zero] at hiff
  rw [hiff]
  by_cases hfit : a + b < 2 ^ 256
  · rw [Nat.div_eq_of_lt hfit]
    exact iff_of_true (by simp) (Or.inl hfit)
  · have hone : (a + b) / 2 ^ 256 = 1 := by omega
    rw [hone, or_iff_right hfit, ← Int.natCast_dvd_natCast]
    simp

/-- `MULMOD` is right when the modulus divides what the product loses above `2^256`, less
what the misplaced carry of `mul256` adds. -/
theorem mulmod_iff {sContract : Code} {s : Vm} (h1 : 3 ≤ s.sp) (h2 : s.sp < stackSpace)
    (hn : (s.slot (s.sp - 2)).val ≠ 0) :
    Leaves 0x09 sContract s
        ((s.slot s.sp).val * (s.slot (s.sp - 1)).val % (s.slot (s.sp - 2)).val)
      ↔ ((s.slot (s.sp - 2)).val : Int) ∣ mulLoss (s.slot s.sp) (s.slot (s.sp - 1)) := by
  rw [leaves_modular_iff (f := mul256) rfl rfl h1 h2 hn, mul256_val]
  exact mod_mod_eq_iff

/-- **When `ADDMOD` and `MULMOD` are right.** Both reduce mod `2^256` before they divide, and
that is harmless only where the modulus divides what is lost. -/
theorem modular_meets_iff (sContract : Code) (s : Vm) (h1 : 3 ≤ s.sp) (h2 : s.sp < stackSpace)
    (hn : (s.slot (s.sp - 2)).val ≠ 0) :
    (Leaves 0x08 sContract s
        (((s.slot s.sp).val + (s.slot (s.sp - 1)).val) % (s.slot (s.sp - 2)).val)
      ↔ (s.slot s.sp).val + (s.slot (s.sp - 1)).val < 2 ^ 256
        ∨ (s.slot (s.sp - 2)).val ∣ 2 ^ 256) ∧
    (Leaves 0x09 sContract s
        ((s.slot s.sp).val * (s.slot (s.sp - 1)).val % (s.slot (s.sp - 2)).val)
      ↔ ((s.slot (s.sp - 2)).val : Int) ∣ mulLoss (s.slot s.sp) (s.slot (s.sp - 1))) :=
  ⟨addmod_iff h1 h2 hn, mulmod_iff h1 h2 hn⟩

/-- `5 + 6` and `5 * 6` by `7`. -/
theorem modular_meets_seven :
    Leaves 0x08 ⟨[0x08], by decide⟩ (stacked [lowWord 5, lowWord 6, lowWord 7]) 4 ∧
    Leaves 0x09 ⟨[0x09], by decide⟩ (stacked [lowWord 5, lowWord 6, lowWord 7]) 2 := by
  have hmeets := fun c => modular_meets_iff c (stacked [lowWord 5, lowWord 6, lowWord 7])
    (by decide) (by decide) (by decide)
  exact ⟨(hmeets _).1.mpr (by decide), (hmeets _).2.mpr (by decide)⟩

/-- The word `2^255`. -/
def topBit : Uint256 := ⟨⟨0x8000000000000000, 0⟩, clear128⟩

/-- `(2^255 + 2^255) mod 3` and `2^255 * 2^255 mod 3` are one, and both come out as zero. -/
theorem modular_meets_fails :
    ¬Leaves 0x08 ⟨[0x08], by decide⟩ (stacked [topBit, topBit, lowWord 3])
      ((topBit.val + topBit.val) % (lowWord 3).val) ∧
    ¬Leaves 0x09 ⟨[0x09], by decide⟩ (stacked [topBit, topBit, lowWord 3])
      (topBit.val * topBit.val % (lowWord 3).val) := by
  refine ⟨?_, ?_⟩
  · intro hleaves
    have hcond := (addmod_iff (s := stacked [topBit, topBit, lowWord 3]) (by decide) (by decide)
      (by decide)).mp hleaves
    exact absurd hcond (by decide)
  · intro hleaves
    have hcond := (mulmod_iff (s := stacked [topBit, topBit, lowWord 3]) (by decide) (by decide)
      (by decide)).mp hleaves
    exact absurd hcond (by decide)

/-! ## `DIV` -/

/-- With a nonzero divisor `DIV` stores through `NULL`. -/
theorem div_null (sContract : Code) {s : Vm} (h1 : 2 ≤ s.sp) (h2 : s.sp < stackSpace)
    (hr : (s.slot (s.sp - 1)).val ≠ 0) :
    decodeInstruction 0x04 sContract s = .error .null s.popped.popped := by
  have hzero : ¬zero256 (s.slot (s.sp - 1)) = true := fun h => hr (zero256_iff.mp h)
  show opDiv s = _
  unfold opDiv
  rw [popTwo_ok (by omega) h2]
  refine bind_error ?_ _
  unfold divTarget
  rw [if_neg hzero]
  exact bind_error (callDivmod256_null hr _) _

/-- `DIV` as it should run: the floor of the quotient is pushed, and nothing but the stack,
`SP` and the charge changes. -/
def DivMeets (sContract : Code) (s : Vm) : Prop :=
  ∃ w, w.val = (s.slot s.sp).val / (s.slot (s.sp - 1)).val ∧
    decodeInstruction 0x04 sContract s = .ok 0 { s.popped.popped.pushed w with
      gasCharge := s.gasCharge + gasTable.stepGas5 }

theorem not_divMeets {sContract : Code} {s s' : Vm} {e : Fault}
    (hrun : decodeInstruction 0x04 sContract s = .error e s') : ¬DivMeets sContract s := by
  intro hmeets
  obtain ⟨w, -, hok⟩ := hmeets
  rw [hrun] at hok
  cases hok

/-- **`DIV` never divides.** Whatever the operands, the remainder is stored through the
`NULL` that `DIV` passes. -/
theorem div_never_meets (sContract : Code) (s : Vm) (h1 : 2 ≤ s.sp) (h2 : s.sp < stackSpace)
    (hr : (s.slot (s.sp - 1)).val ≠ 0) :
    decodeInstruction 0x04 sContract s = .error .null s.popped.popped ∧ ¬DivMeets sContract s :=
  ⟨div_null sContract h1 h2 hr, not_divMeets (div_null sContract h1 h2 hr)⟩

/-- `6 / 2`. -/
theorem div_never_meets_six : ¬DivMeets ⟨[0x04], by decide⟩ (stacked [lowWord 6, lowWord 2]) :=
  (div_never_meets _ (stacked [lowWord 6, lowWord 2]) (by decide) (by decide) (by decide)).2

/-- `1 / 2`: the exit for a divisor above the dividend stores through `NULL` too. -/
theorem div_one_two_fails : 2 ≤ (stacked [lowWord 1, lowWord 2]).sp ∧ (lowWord 2).val ≠ 0 ∧
    ¬DivMeets ⟨[0x04], by decide⟩ (stacked [lowWord 1, lowWord 2]) :=
  ⟨by decide, by decide, not_divMeets (div_null _ (by decide) (by decide) (by decide))⟩

/-! ## A zero divisor -/

/-- The opcodes that call `divmod256`. Their last operand is the divisor or the modulus. -/
inductive Divides : UInt8 → Prop where
  | div : Divides 0x04
  | sdiv : Divides 0x05
  | mod : Divides 0x06
  | smod : Divides 0x07
  | addmod : Divides 0x08
  | mulmod : Divides 0x09

theorem zero_div {sContract : Code} {s : Vm} (h1 : 2 ≤ s.sp) (h2 : s.sp < stackSpace)
    (hz : (s.slot (s.sp - 1)).val = 0) : Leaves 0x04 sContract s 0 := by
  have hpush := Vm.room_popped₂ (show 1 ≤ s.sp by omega) h2
  have hrun : decodeInstruction 0x04 sContract s = .ok 0 { s.popped.popped.pushed clear256 with
      gasCharge := s.gasCharge + gasTable.stepGas5 } := by
    show opDiv s = _
    unfold opDiv divTarget
    rw [popTwo_ok (by omega) h2, if_pos (zero256_iff.mpr hz), pure_bind,
      bind_ok (stackPush_ok _ hpush)]
    rfl
  exact (leaves_two_iff hrun rfl h1 h2).mpr clear256_val

/-- With a zero divisor every one of the opcodes but `DIV` hangs. -/
theorem zero_endless {b : UInt8} {c : Code} {s : Vm} (hb : Divides b) (hne : b ≠ 0x04)
    (h1 : (OpCode.ofByte b).arity ≤ s.sp) (h2 : s.sp < stackSpace)
    (hz : (s.slot (s.sp - (OpCode.ofByte b).arity + 1)).val = 0) :
    ∃ s', decodeInstruction b c s = .error .endless s' := by
  have htwo : s.sp - 2 + 1 = s.sp - 1 := by omega
  have hthree : s.sp - 3 + 1 = s.sp - 2 := by omega
  cases hb with
  | div => exact absurd rfl hne
  | sdiv => exact ⟨_, dividing_endless h1 h2 (htwo ▸ hz)⟩
  | mod => exact ⟨_, dividing_endless h1 h2 (htwo ▸ hz)⟩
  | smod => exact ⟨_, dividing_endless h1 h2 (htwo ▸ hz)⟩
  | addmod => exact ⟨_, modular_endless h1 h2 (hthree ▸ hz)⟩
  | mulmod => exact ⟨_, modular_endless h1 h2 (hthree ▸ hz)⟩

/-- **A zero divisor.** Only `DIV` answers with zero; the other five never end. -/
theorem zero_divisor_iff (b : UInt8) (sContract : Code) (s : Vm) (hb : Divides b)
    (h1 : (OpCode.ofByte b).arity ≤ s.sp) (h2 : s.sp < stackSpace)
    (hz : (s.slot (s.sp - (OpCode.ofByte b).arity + 1)).val = 0) :
    Leaves b sContract s 0 ↔ b = 0x04 := by
  refine ⟨?_, ?_⟩
  · intro hleaves
    by_contra hne
    obtain ⟨s', hrun⟩ := zero_endless hb hne h1 h2 hz
    exact not_leaves_of_error hrun hleaves
  · intro hdiv
    subst hdiv
    refine zero_div h1 h2 ?_
    rw [← hz]
    congr 2
    show s.sp - 1 = s.sp - 2 + 1
    omega

/-- `5 / 0`. -/
theorem zero_divisor_div :
    Leaves 0x04 ⟨[0x04], by decide⟩ (stacked [lowWord 5, clear256]) 0 :=
  (zero_divisor_iff 0x04 _ (stacked [lowWord 5, clear256]) .div (by decide) (by decide) rfl).mpr rfl

/-- `5 mod 0` never returns, however many rounds the loop gets. -/
theorem zero_divisor_mod_hangs :
    ¬Leaves 0x06 ⟨[0x06], by decide⟩ (stacked [lowWord 5, clear256]) 0 ∧
    ∀ rounds, divmod256 rounds (lowWord 5) clear256 = none := by
  refine ⟨?_, ?_⟩
  · obtain ⟨s', hrun⟩ := zero_endless (c := ⟨[0x06], by decide⟩)
      (s := stacked [lowWord 5, clear256]) .mod (by decide) (by decide) (by decide) rfl
    exact not_leaves_of_error hrun
  · intro rounds
    exact divmod256_zero clear256_val rounds (lowWord 5)

end TinyEvm
