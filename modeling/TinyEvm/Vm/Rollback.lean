import TinyEvm.Vm.Execute
import TinyEvm.Vm.Frame
import TinyEvm.Vm.Storage

/-!
# What a run leaves in storage

The interpreter has one `STORAGE` and no copy of it: `execute_contract` leaves its
loop in the same way for `RETURN` and `REVERT`, and breaks out directly on a negative
status or when the gas is used up. So whatever ends a run, the stores it made stay.

`storesOf` lists the `SSTORE`s of the rounds of a run, with the operands they found on
the stack, and `run_storage` says that storage afterwards is storage before with these
stores replayed, so that a run leaves storage as it was exactly when the last store to
each slot put back what was there. A failed run is no exception (`revert_keeps_store`).
-/

namespace TinyEvm

open Lib.Buffer Lib.Exec Lib.Loop Lib.Replay

/-! ## The stores of a run -/

/-- The `SSTORE` that the round at a head executes, if it does. -/
def storeAt (c : Code) (s : Vm) : List Store :=
  if s.pc < c.sizeof - 1 ∧ ¬s.gasCharge > gasLimit ∧ c.bytes[s.pc.toNat]? = some 0x55 then
    [(s.slot s.sp, s.slot (s.sp - 1))]
  else []

/-- The `SSTORE`s of at most `rounds` rounds, the oldest first. -/
def storesOf (c : Code) : Nat → Vm → List Store
  | 0, _ => []
  | rounds + 1, s => storeAt c s ++ match executeRound c c.sizeof s with
    | .ok none s' => storesOf c rounds s'
    | _ => []

theorem storeAt_of_decodes {c : Code} {s : Vm} {b : UInt8} (hb : Decodes c c.sizeof s b) :
    storeAt c s = if b = 0x55 then [(s.slot s.sp, s.slot (s.sp - 1))] else [] := by
  unfold storeAt
  refine if_congr ?_ rfl rfl
  rw [hb.byte]
  refine ⟨fun h => Option.some.inj h.2.2, fun h => ⟨hb.inside, hb.paid, ?_⟩⟩
  rw [h]

theorem storeAt_idle {c : Code} {s : Vm} (h : ∀ b, ¬Decodes c c.sizeof s b) :
    storeAt c s = [] :=
  if_neg fun hat => h 0x55 ⟨hat.1, hat.2.1, hat.2.2⟩

theorem OpCode.ofByte_eq_sstore {b : UInt8} (h : OpCode.ofByte b = .sstore) : b = 0x55 := by
  have hall : ∀ i : Fin 256, ofByte (UInt8.ofNat i) = sstore → i.val = 0x55 := by
    decide +kernel
  have hbyte := hall ⟨b.toNat, b.toNat_lt⟩ (by rw [UInt8.ofNat_toNat]; exact h)
  exact UInt8.toNat_inj.mp hbyte

/-- An `SSTORE` that returns has stored its second operand under its first. -/
theorem opSstore_returns {s s' : Vm} {status : Int} (hrun : opSstore s = .ok status s') :
    s'.storage = storeSlot s.storage (s.slot s.sp, s.slot (s.sp - 1)) := by
  obtain ⟨hin, hin', hkey⟩ := opSstore_finds hrun
  rw [opSstore_ok hin hin' hkey] at hrun
  cases hrun
  rfl

theorem decode_storage_eq {c : Code} {s s₁ : Vm} {b : UInt8} {status : Int}
    (hb : Decodes c c.sizeof s b) (hrun : decodeInstruction b c s = .ok status s₁)
    (i : Fin storageSpace) :
    s₁.storage i = nativeStorage (peek s.storage clear256) (storeAt c s) i := by
  rw [storeAt_of_decodes hb]
  by_cases hop : b = 0x55
  · subst hop
    rw [if_pos rfl, opSstore_returns (s := s) hrun]
    exact storeSlot_eq _ _ i
  · rw [if_neg hop]
    refine (congrFun ((decode_storage ?_).ok hrun) i).trans (peek_of_lt _ _ i.isLt).symm
    intro hsstore
    exact hop (OpCode.ofByte_eq_sstore hsstore)

/-- **One round** applies its store to storage. -/
theorem round_storage {c : Code} {s s' : Vm} {r : Option Halt}
    (hrun : executeRound c c.sizeof s = .ok r s') (i : Fin storageSpace) :
    s'.storage i = nativeStorage (peek s.storage clear256) (storeAt c s) i := by
  rcases executeRound_returns hrun with ⟨hnone, rfl⟩ | ⟨b, status, s₁, hb, hd, rfl | rfl⟩
  · rw [storeAt_idle hnone]
    exact (peek_of_lt _ _ i.isLt).symm
  all_goals
    have hstorage := decode_storage_eq hb hd i
    exact hstorage

/-! ## Runs -/

theorem nativeStorage_append (before : Nat → Uint256) (p q : List Store) :
    nativeStorage before (p ++ q) = nativeStorage (nativeStorage before p) q :=
  replay_append _ _ before p q

/-- Every run that leaves the loop has applied its stores, whatever made it leave. -/
theorem runLoop_storage {c : Code} {h : Halt} : ∀ (rounds : Nat) {s s' : Vm},
    runLoop (executeRound c c.sizeof) rounds s = .ok (some h) s' → ∀ i : Fin storageSpace,
      s'.storage i = nativeStorage (peek s.storage clear256) (storesOf c rounds s) i := by
  intro rounds
  induction rounds with
  | zero =>
    intro s s' hrun
    cases hrun
  | succ rounds ih =>
    intro s s' hrun i
    rw [storesOf]
    rcases runLoop_cases hrun with hleave | ⟨s₁, hagain, hrest⟩
    · rw [hleave, List.append_nil]
      exact round_storage hleave i
    · rw [show executeRound c c.sizeof s = .ok none s₁ from hagain, nativeStorage_append]
      rw [ih hrest i]
      refine nativeStorage_congr ?_ _
      rw [peek_of_lt _ _ i.isLt]
      exact round_storage hagain i

/-- **Nothing is rolled back.** However a run of `execute_contract` leaves its loop (an
access outside an array does not, it is a fault), storage is what it was before with the
stores of the run replayed; it is as it was exactly when the last store to each slot put
back what was there. -/
theorem run_storage {c : Code} {vm s' : Vm} {rounds : Nat} {h : Halt}
    (hrun : executeContract c c.sizeof rounds (after (initMachine vm)) = .ok (some h) s') :
    (∀ i : Fin storageSpace, s'.storage i = nativeStorage (peek vm.storage clear256)
      (storesOf c rounds (after (initMachine vm))) i) ∧
    (s'.storage = vm.storage ↔ ∀ (i : Fin storageSpace) (x : Store),
      lastWriter (fun x j => x.1.low == j) (storesOf c rounds (after (initMachine vm))) i = some x →
        x.2 = vm.storage i) := by
  have hreplay := runLoop_storage rounds hrun
  refine ⟨hreplay, ?_, ?_⟩
  · intro hsame i x hlast
    have hi := hreplay i
    unfold nativeStorage at hi
    rw [hsame, replay_eq, hlast] at hi
    exact hi.symm
  · intro hback
    funext i
    have hi := hreplay i
    unfold nativeStorage at hi
    rw [replay_eq] at hi
    rw [hi]
    cases hlast : lastWriter (fun (x : Store) j => x.1.low == j)
      (storesOf c rounds (after (initMachine vm))) i with
    | none => exact peek_of_lt _ _ i.isLt
    | some x => exact hback i x hlast

/-! ## A failed run -/

/-- A run from `init_machine` that fails: by `REVERT`, by a negative status, or by
the gas limit. -/
def FailsWith (c : Code) (vm : Vm) (h : Halt) (s' : Vm) : Prop :=
  ∃ s, Reaches (executeRound c c.sizeof) (after (initMachine vm)) s ∧
    executeRound c c.sizeof s = .ok (some h) s' ∧
    (h = .error ∨ h = .outOfGas ∨ (h = .returned ∧ Decodes c c.sizeof s 0xfd))

/-- `PUSH1 1 PUSH1 0 SSTORE PUSH1 0 PUSH1 0 REVERT`. -/
def storeThenRevert : Code :=
  ⟨[0x60, 0x01, 0x60, 0x00, 0x55, 0x60, 0x00, 0x60, 0x00, 0xfd, 0x00], by decide⟩

/-- The head that stands at its `REVERT`. -/
def atRevert : Vm :=
  afterRounds (executeRound storeThenRevert storeThenRevert.sizeof) 5 (after (initMachine Vm.zeroed))

theorem storeThenRevert_goesOn : goesOn (executeRound storeThenRevert storeThenRevert.sizeof) 5
    (after (initMachine Vm.zeroed)) = true := by
  decide +kernel

theorem atRevert_leaves :
    leavesWith (executeRound storeThenRevert storeThenRevert.sizeof) .returned atRevert = true := by
  decide +kernel

/-- Its run from the zeroed machine ends at the `REVERT` with one store made. -/
theorem run_storage_storeThenRevert : ∃ s', executeContract storeThenRevert storeThenRevert.sizeof 6
      (after (initMachine Vm.zeroed)) = .ok (some .returned) s' ∧
    s'.storage 0 = nativeStorage (peek Vm.zeroed.storage clear256)
      (storesOf storeThenRevert 6 (after (initMachine Vm.zeroed))) 0 := by
  have hrun := runLoop_of_goesOn 5 storeThenRevert_goesOn atRevert_leaves
  exact ⟨_, hrun, (run_storage hrun).1 0⟩

/-- The store survives the `REVERT`. -/
theorem revert_keeps_store : ∃ s', FailsWith storeThenRevert Vm.zeroed .returned s' ∧
    s'.storage ≠ Vm.zeroed.storage := by
  refine ⟨_, ⟨atRevert, reaches_of_goesOn 5 storeThenRevert_goesOn,
    leave_of_leavesWith atRevert_leaves, Or.inr (Or.inr ⟨rfl, ?_⟩)⟩, ?_⟩
  · exact ⟨by decide +kernel, by decide +kernel, by decide +kernel⟩
  · intro hsame
    have hslot : (after (executeRound storeThenRevert storeThenRevert.sizeof atRevert)).storage 0
        ≠ clear256 := by
      decide +kernel
    exact hslot (congrFun hsame 0)

end TinyEvm
