import TinyEvm.Keccak.Sha3
import Mathlib.Data.List.Basic
import Mathlib.Logic.Function.Basic
import Mathlib.Tactic.IntervalCases

/-!
# The two permutations are one

`sha3_permutation` of `keccak256.c` rotates all lanes (rho) and then moves them (pi);
`sha3_keccakf` of `sha3.c` does both in one walk that carries the lane it has just
displaced, along the same cycle the other way round. The first combines its rotations
by XOR and assembles its round constants from seven bits, the second uses OR and a
table.

The passes are compared lane by lane. A pass that assigns lanes one after the other is
read as a chain of updates of the function `lane a`; the indices are constants, so each
lane of the result is found by evaluation, whatever the lanes hold.
-/

namespace TinyEvm.Keccak

/-! ## Lanes -/

theorem lane_of_lt {n : Nat} (a : Vector UInt64 n) {i : Nat} (h : i < n) : lane a i = a[i] := by
  unfold lane
  simp [Vector.getD, h]

theorem lane_ofFn {n : Nat} (f : Fin n → UInt64) {i : Nat} (h : i < n) :
    lane (Vector.ofFn f) i = f ⟨i, h⟩ := by
  rw [lane_of_lt _ h, Vector.getElem_ofFn]

theorem lanes_ext {a b : Lanes} (h : ∀ k, k < 25 → lane a k = lane b k) : a = b := by
  apply Vector.ext
  intro k hk
  rw [← lane_of_lt a hk, ← lane_of_lt b hk]
  exact h k hk

theorem lane_set (a : Lanes) {i : Nat} (h : i < 25) (x : UInt64) :
    lane (a.setIfInBounds i x) = Function.update (lane a) i x := by
  funext k
  by_cases hk : k < 25
  · rw [lane_of_lt _ hk, Vector.getElem_setIfInBounds, Function.update_apply, lane_of_lt _ hk]
    simp [eq_comm]
  · rw [Function.update_of_ne (by omega)]
    unfold lane
    simp [Vector.getD, hk]

/-! ## Rotation -/

/-- The two halves of a rotation have no bit in common. -/
theorem rotl64_eq (x : UInt64) {n : UInt64} (h0 : 0 < n.toNat) (h : n.toNat < 64) :
    rotl64 x n = Sha3.rotl64 x n := by
  have hleft : (n.toBitVec % 64).toNat = n.toNat := by
    rw [BitVec.toNat_umod]
    exact Nat.mod_eq_of_lt h
  have hright : ((64 - n).toBitVec % 64).toNat = 64 - n.toNat := by
    have hsub : (64 - n).toNat = 64 - n.toNat :=
      UInt64.toNat_sub_of_le _ _ (by rw [UInt64.le_iff_toNat_le]; exact Nat.le_of_lt h)
    rw [BitVec.toNat_umod]
    show (64 - n).toNat % 64 = _
    rw [hsub]
    omega
  unfold rotl64 Sha3.rotl64
  apply UInt64.toBitVec_inj.mp
  apply BitVec.eq_of_getLsbD_eq
  intro i hi
  rw [UInt64.toBitVec_xor, UInt64.toBitVec_or, BitVec.getLsbD_xor, BitVec.getLsbD_or,
    UInt64.toBitVec_shiftLeft, UInt64.toBitVec_shiftRight, BitVec.shiftLeft_eq', BitVec.ushiftRight_eq',
    hleft, hright, BitVec.getLsbD_shiftLeft, BitVec.getLsbD_ushiftRight]
  by_cases hlow : i < n.toNat
  · simp [hlow]
  · rw [BitVec.getLsbD_of_ge _ (64 - n.toNat + i) (by omega)]
    simp

/-! ## Theta -/

theorem theta_eq (a : Lanes) : keccakTheta a = Sha3.theta a := by
  apply lanes_ext
  intro k hk
  have hcolumn : k % 5 < 5 := Nat.mod_lt k (by omega)
  unfold keccakTheta Sha3.theta
  rw [lane_ofFn _ hk, lane_ofFn _ hk, lane_ofFn _ hcolumn, rotl64_eq _ (by decide) (by decide),
    UInt64.xor_comm (Sha3.rotl64 _ _)]

/-! ## Rho and pi -/

/-- The assignments of `keccak_pi` as updates of the lanes. -/
def piLanes (is : List Nat) (f : Nat → UInt64) : Nat → UInt64 :=
  is.foldl (fun f i => Function.update f (getConstant typePiTransform (i - 1)).toNat
    (f (getConstant typePiTransform i).toNat)) f

theorem lane_piLoop : ∀ (is : List Nat) (a : Lanes),
    (∀ i ∈ is, (getConstant typePiTransform (i - 1)).toNat < 25) →
    lane (piLoop is a) = piLanes is (lane a) := by
  intro is
  induction is with
  | nil =>
    intro a _
    rfl
  | cons i is ih =>
    intro a his
    rw [piLoop, ih _ fun j hj => his j (List.mem_cons_of_mem i hj),
      lane_set _ (his i List.mem_cons_self)]
    rfl

/-- The lane that pi moves to lane `k`. -/
def piSource : List Nat :=
  [0, 6, 12, 18, 24, 3, 9, 10, 16, 22, 1, 7, 13, 19, 20, 4, 5, 11, 17, 23, 2, 8, 14, 15, 21]

theorem lane_keccakPi (a : Lanes) {k : Nat} (hk : k < 25) :
    lane (keccakPi a) k = lane a (piSource.getD k 0) := by
  unfold keccakPi
  rw [lane_set _ (by decide), lane_piLoop _ _ (by decide)]
  generalize lane a = f
  interval_cases k <;> rfl

/-- The walk of "Rho Pi" as updates of the lanes. -/
def rhoPiLanes : List Nat → UInt64 → (Nat → UInt64) → Nat → UInt64
  | [], _, f => f
  | i :: is, t, f => rhoPiLanes is (f (Sha3.keccakfPiln.getD i 0))
      (Function.update f (Sha3.keccakfPiln.getD i 0) (Sha3.rotl64 t (Sha3.keccakfRotc.getD i 0)))

theorem lane_rhoPiLoop : ∀ (is : List Nat) (t : UInt64) (a : Lanes),
    (∀ i ∈ is, Sha3.keccakfPiln.getD i 0 < 25) →
    lane (Sha3.rhoPiLoop is t a) = rhoPiLanes is t (lane a) := by
  intro is
  induction is with
  | nil =>
    intro t a _
    rfl
  | cons i is ih =>
    intro t a his
    rw [Sha3.rhoPiLoop, ih _ _ fun j hj => his j (List.mem_cons_of_mem i hj),
      lane_set _ (his i List.mem_cons_self), rhoPiLanes]

theorem lane_keccakRho (a : Lanes) {k : Nat} (hk : k < 25) :
    lane (keccakRho a) k = if k = 0 then lane a 0
      else rotl64 (lane a k) (getConstant typeRhoTransform (k - 1)).toUInt64 :=
  lane_ofFn _ hk

/-- Lane `k` comes from the same lane, by the same rotation. -/
theorem rhoPi_eq (a : Lanes) : keccakPi (keccakRho a) = Sha3.rhoPi a := by
  apply lanes_ext
  intro k hk
  have hsource : piSource.getD k 0 < 25 := by
    interval_cases k <;> decide
  rw [lane_keccakPi _ hk, lane_keccakRho _ hsource, Sha3.rhoPi, lane_rhoPiLoop _ _ _ (by decide)]
  generalize lane a = f
  by_cases hzero : k = 0
  · subst hzero
    rfl
  · have hpos : 1 ≤ k := Nat.one_le_iff_ne_zero.mpr hzero
    interval_cases k <;> exact rotl64_eq _ (by decide) (by decide)

/-! ## Chi and iota -/

/-- Both save what they overwrite, so each lane of the row sees the old row. -/
theorem chiRow_eq (a : Lanes) {j : Nat} (hj : j + 5 ≤ 25) : chiRow a j = Sha3.chiRow a j := by
  apply lanes_ext
  intro k hk
  unfold chiRow Sha3.chiRow
  simp (disch := omega) only [lane_set, lane_ofFn, List.range_succ, List.range_zero, List.nil_append,
    List.foldl_append, List.foldl_cons, List.foldl_nil, Function.update_of_ne, Nat.add_comm j]
  simp only [Nat.zero_add, Nat.reduceAdd, Nat.reduceMod]

theorem chi_eq (a : Lanes) : keccakChi a = Sha3.chi a := by
  unfold keccakChi Sha3.chi
  refine List.foldl_ext _ _ a ?_
  intro a j hj
  refine chiRow_eq a ?_
  simp only [List.mem_cons, List.not_mem_nil, or_false] at hj
  omega

theorem roundConstant_eq {r : Nat} (hr : r < 24) :
    getRoundConstant r = Sha3.keccakfRndc.getD r 0 := by
  interval_cases r <;> decide

theorem round_eq (a : Lanes) {r : Nat} (hr : r < 24) :
    permutationRound a r = Sha3.keccakfRound a r := by
  unfold permutationRound Sha3.keccakfRound
  rw [roundConstant_eq hr, theta_eq, rhoPi_eq, chi_eq]

/-- **One permutation.** `sha3_permutation` and `sha3_keccakf` agree on every state. -/
theorem permutation_eq (a : Lanes) : sha3Permutation a = Sha3.sha3Keccakf a := by
  unfold sha3Permutation Sha3.sha3Keccakf
  refine List.foldl_ext _ _ a ?_
  intro a r hr
  exact round_eq a (List.mem_range.mp hr)

end TinyEvm.Keccak
