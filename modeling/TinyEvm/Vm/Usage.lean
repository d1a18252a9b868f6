import TinyEvm.Lib.HighWater
import TinyEvm.Vm.Gas
import TinyEvm.Vm.Rollback
import Mathlib.Data.Fintype.Basic

/-!
# What a run reports

`execute_contract` ends with the largest `SP`, the mark of memory and the number of stores.
None of the three is reset between two runs. The mark of memory is in `Vm.HighWater`; the
other two are exact, and `run_usage` says what they count:

* `max_sp` is the maximum of what it was and `SP` behind every instruction decoded, also the
  last one, which may have failed;
* `max_storage_counter` rises by one with every `SSTORE` that is decoded, and that is more
  than the slots in use: overwriting a slot counts again, and a key above the array, which
  stores nothing, counts too. The gas limit keeps it from rising by more than 801 in a run:
  a store is decoded on at most `GAS_LIMIT`, and each store before it has charged 20000.
-/

namespace TinyEvm

open Lib.Buffer Lib.Exec Lib.Loop Lib.HighWater Lib.Replay

/-! ## `max_storage_counter` -/

theorem storesOf_eq (c : Code) : ∀ (rounds : Nat) (s : Vm),
    storesOf c rounds s = outputs (storeAt c) (executeRound c c.sizeof) rounds s := by
  intro rounds
  induction rounds with
  | zero => exact fun s => rfl
  | succ rounds ih =>
    intro s
    rw [storesOf, outputs]
    cases executeRound c c.sizeof s with
    | ok answer s' => cases answer with
      | none => simp only [ih]
      | some h => rfl
    | error e s' => rfl

theorem calm_counter : Calm (fun s : Vm => s.maxStorageCounter) where
  sp _ _ := rfl
  stack _ _ := rfl
  slots _ _ := rfl
  gasCharge _ _ := rfl
  rtimer _ _ := rfl
  frames _ _ := rfl

theorem calm_maxSp : Calm (fun s : Vm => s.maxSp) where
  sp _ _ := rfl
  stack _ _ := rfl
  slots _ _ := rfl
  gasCharge _ _ := rfl
  rtimer _ _ := rfl
  frames _ _ := rfl

/-- `SSTORE` counts before it looks at its key. -/
theorem opSstore_counter {s s' : Vm} {status : Int} (hrun : opSstore s = .ok status s') :
    s'.maxStorageCounter = s.maxStorageCounter + 1 := by
  obtain ⟨hin, hin', hkey⟩ := opSstore_finds hrun
  rw [opSstore_ok hin hin' hkey] at hrun
  cases hrun
  rfl

theorem decode_counter {c : Code} {s s₁ : Vm} {b : UInt8} {status : Int}
    (hb : Decodes c c.sizeof s b) (hrun : decodeInstruction b c s = .ok status s₁) :
    s₁.maxStorageCounter = s.maxStorageCounter + (storeAt c s).length := by
  rw [storeAt_of_decodes hb]
  by_cases hop : b = 0x55
  · subst hop
    exact opSstore_counter (s := s) hrun
  · have hne : OpCode.ofByte b ≠ .sstore := fun h => hop (OpCode.ofByte_eq_sstore h)
    rw [if_neg hop]
    exact (decode_calm calm_counter c (fun _ _ _ => rfl) (fun _ _ _ => rfl)
      (fun h => absurd h hne) (fun _ _ _ => rfl) (fun _ _ _ => rfl) (fun _ _ _ => rfl)
      (fun _ _ _ => rfl)).ok hrun

/-! ## `max_sp` -/

/-- `SP` behind the instruction that the round at a head decodes, if it decodes one. -/
def spAt (c : Code) (s : Vm) : List Int :=
  if s.pc < c.sizeof - 1 ∧ ¬s.gasCharge > gasLimit then
    match c.bytes[s.pc.toNat]? with
    | none => []
    | some b => match decodeInstruction b c s with
      | .ok _ s₁ => [s₁.sp]
      | .error _ _ => []
  else []

/-- These of at most `rounds` rounds. -/
def spsOf (c : Code) : Nat → Vm → List Int := outputs (spAt c) (executeRound c c.sizeof)

theorem spAt_of_decodes {c : Code} {s s₁ : Vm} {b : UInt8} {status : Int}
    (hb : Decodes c c.sizeof s b) (hrun : decodeInstruction b c s = .ok status s₁) :
    spAt c s = [s₁.sp] := by
  rw [spAt, if_pos ⟨hb.inside, hb.paid⟩, hb.byte]
  simp only [hrun]

theorem spAt_idle {c : Code} {s : Vm} (h : ∀ b, ¬Decodes c c.sizeof s b) : spAt c s = [] := by
  unfold spAt
  split
  next hhead =>
    split
    next => rfl
    next b hbyte => exact absurd ⟨hhead.1, hhead.2, hbyte⟩ (h b)
  next => rfl

theorem decode_maxSp {c : Code} {s s₁ : Vm} {b : UInt8} {status : Int}
    (hrun : decodeInstruction b c s = .ok status s₁) : s₁.maxSp = s.maxSp :=
  (decode_calm calm_maxSp c (fun _ _ _ => rfl) (fun _ _ _ => rfl) (fun _ _ _ => rfl)
    (fun _ _ _ => rfl) (fun _ _ _ => rfl) (fun _ _ _ => rfl) (fun _ _ _ => rfl)).ok hrun

/-! ## Runs -/

theorem foldl_count {α : Type} (l : List α) (n : Nat) :
    l.foldl (fun n _ => n + 1) n = n + l.length := by
  induction l generalizing n with
  | nil => rfl
  | cons a l ih =>
    rw [List.foldl_cons, ih, List.length_cons]
    omega

theorem round_counter {c : Code} {s s' : Vm} {r : Option Halt}
    (hrun : executeRound c c.sizeof s = .ok r s') :
    s'.maxStorageCounter = (storeAt c s).foldl (fun n _ => n + 1) s.maxStorageCounter := by
  rw [foldl_count]
  rcases executeRound_returns hrun with ⟨hnone, rfl⟩ | ⟨b, status, s₁, hb, hd, rfl | rfl⟩
  · rw [storeAt_idle hnone]
    rfl
  all_goals
    have hcount := decode_counter hb hd
    exact hcount

theorem round_maxSp {c : Code} {s s' : Vm} {r : Option Halt}
    (hrun : executeRound c c.sizeof s = .ok r s') :
    s'.maxSp = (spAt c s).foldl max s.maxSp := by
  rcases executeRound_returns hrun with ⟨hnone, rfl⟩ | ⟨b, status, s₁, hb, hd, rfl | rfl⟩
  · rw [spAt_idle hnone]
    rfl
  all_goals
    rw [spAt_of_decodes hb hd, ← decode_maxSp hd]
    rfl

/-! ## How many stores a run can make -/

/-- A round stores once, on a counter within the limit, or not at all. -/
theorem storeAt_cases (c : Code) (s : Vm) :
    storeAt c s = [] ∨ (storeAt c s).length = 1 ∧ Decodes c c.sizeof s 0x55 := by
  by_cases hat : Decodes c c.sizeof s 0x55
  · right
    rw [storeAt_of_decodes hat]
    exact ⟨rfl, hat⟩
  · left
    exact if_neg fun h => hat ⟨h.1, h.2.1, h.2.2⟩

/-- Every store of a run but the last has been charged when the last is decoded. -/
theorem stores_paid {c : Code} {vm : Vm} : ∀ (rounds : Nat) {s : Vm},
    Reaches (executeRound c c.sizeof) (after (initMachine vm)) s →
    storesOf c rounds s ≠ [] →
      s.gasCharge.toNat + gasTable.sstoreSetGas.toNat * (storesOf c rounds s).length
        ≤ gasLimit.toNat + gasTable.sstoreSetGas.toNat := by
  have hset : gasTable.sstoreSetGas.toNat = 20000 := rfl
  rw [hset]
  intro rounds
  induction rounds with
  | zero =>
    intro s _ hne
    exact absurd rfl hne
  | succ rounds ih =>
    intro s hreach hne
    rw [storesOf_eq] at hne ⊢
    rcases run_cases (storeAt c) (executeRound c c.sizeof) rounds s with
      ⟨s', hagain⟩ | ⟨-, hend⟩
    · rw [outputs_again hagain, ← storesOf_eq] at hne ⊢
      have hrest := ih (hreach.tail hagain)
      rcases storeAt_cases c s with hnone | ⟨hone, hat⟩
      · rw [hnone, List.nil_append] at hne ⊢
        have hmono := (again_gas_mono hreach hagain).1
        have hlater := hrest hne
        omega
      · rw [List.length_append, hone]
        have hpaid := hat.gas_le
        have hcharge : s'.gasCharge.toNat = s.gasCharge.toNat + 20000 :=
          again_gas hagain hat (by decide)
        -- the last store need not have been charged
        by_cases hlast : storesOf c rounds s' = []
        · rw [hlast, List.length_nil]
          omega
        · have hlater := hrest hlast
          omega
    · rw [hend] at hne ⊢
      rcases storeAt_cases c s with hnone | ⟨hone, hat⟩
      · exact absurd hnone hne
      · have hpaid := hat.gas_le
        rw [hone]
        omega

theorem stores_le (c : Code) (vm : Vm) (rounds : Nat) :
    (storesOf c rounds (after (initMachine vm))).length
      ≤ gasLimit.toNat / gasTable.sstoreSetGas.toNat + 1 := by
  have hlimit : gasLimit.toNat = 16000000 := rfl
  have hset : gasTable.sstoreSetGas.toNat = 20000 := rfl
  by_cases hne : storesOf c rounds (after (initMachine vm)) = []
  · rw [hne]
    exact Nat.zero_le _
  · have hpaid := stores_paid rounds Relation.ReflTransGen.refl hne
    rw [hlimit, hset] at hpaid ⊢
    omega

/-! ## What the stores change -/

/-- A slot no store names keeps what it holds. -/
theorem nativeStorage_untouched {before : Nat → Uint256} {q : List Store} {j : Nat}
    (h : ∀ x ∈ q, x.1.low ≠ j) : nativeStorage before q j = before j := by
  unfold nativeStorage
  rw [replay_eq]
  cases hlast : lastWriter (fun (x : Store) j => x.1.low == j) q j with
  | none => rfl
  | some x =>
    have hmem := List.mem_of_getLast? hlast
    have hx := List.mem_filter.mp hmem
    exact absurd (beq_iff_eq.mp hx.2) (h x hx.1)

/-- The slots on which two machines differ. -/
def changedSlots (vm s' : Vm) : Finset (Fin storageSpace) :=
  Finset.univ.filter fun i => s'.storage i ≠ vm.storage i

theorem changedSlots_le {vm s' : Vm} {q : List Store}
    (hreplay : ∀ i : Fin storageSpace,
      s'.storage i = nativeStorage (peek vm.storage clear256) q i) :
    (changedSlots vm s').card ≤ q.length := by
  have hnamed : ∀ i ∈ changedSlots vm s', i.val ∈ (q.map (·.1.low)).toFinset := by
    intro i hi
    by_contra hfree
    rw [List.mem_toFinset, List.mem_map] at hfree
    have hkept : nativeStorage (peek vm.storage clear256) q i = peek vm.storage clear256 i :=
      nativeStorage_untouched fun x hx hlow => hfree ⟨x, hx, hlow⟩
    rw [← hreplay, peek_of_lt _ _ i.isLt] at hkept
    exact (Finset.mem_filter.mp hi).2 hkept
  have hcard := Finset.card_le_card_of_injOn _ hnamed Fin.val_injective.injOn
  refine le_trans hcard (le_trans (List.toFinset_card_le _) ?_)
  rw [List.length_map]

/-- **What a run reports.** However a run of `execute_contract` leaves its loop (an access
outside an array does not, it is a fault), its counter has risen by the stores it decoded:
at most 801 of them, and at least as many as the slots that changed. `max_sp` is the
maximum of what it was and `SP` behind every instruction. -/
theorem run_usage {c : Code} {vm s' : Vm} {rounds : Nat} {h : Halt}
    (hrun : executeContract c c.sizeof rounds (after (initMachine vm)) = .ok (some h) s') :
    s'.maxStorageCounter = vm.maxStorageCounter
      + (storesOf c rounds (after (initMachine vm))).length ∧
    (storesOf c rounds (after (initMachine vm))).length
      ≤ gasLimit.toNat / gasTable.sstoreSetGas.toNat + 1 ∧
    (changedSlots vm s').card ≤ (storesOf c rounds (after (initMachine vm))).length ∧
    s'.maxSp = (spsOf c rounds (after (initMachine vm))).foldl max vm.maxSp := by
  refine ⟨?_, stores_le c vm rounds, changedSlots_le (runLoop_storage rounds hrun), ?_⟩
  · rw [← foldl_count, storesOf_eq]
    exact run_foldl (fun _ _ _ => round_counter) rounds hrun
  · exact run_foldl (fun _ _ _ => round_maxSp) rounds hrun

/-- `PUSH1 1 PUSH1 0 SSTORE PUSH1 0 PUSH1 0 REVERT` has stored once when it reverts. -/
theorem run_usage_storeThenRevert : ∃ s', executeContract storeThenRevert storeThenRevert.sizeof 6
      (after (initMachine Vm.zeroed)) = .ok (some .returned) s' ∧
    s'.maxStorageCounter = 1 := by
  have hrun := runLoop_of_goesOn 5 storeThenRevert_goesOn atRevert_leaves
  refine ⟨_, hrun, ?_⟩
  have hone : (storesOf storeThenRevert 6 (after (initMachine Vm.zeroed))).length = 1 := by
    decide +kernel
  rw [(run_usage hrun).1, hone]
  rfl

end TinyEvm
