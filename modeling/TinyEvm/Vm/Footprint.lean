import TinyEvm.Vm.Stack

/-!
# What an opcode may do to the stack and to the gas counter

`Footprint k h e g x` bounds a command `x` from every machine, faults included:

* it works in the window of the `k` topmost elements: `SP` does not fall by more
  than `k`, no slot at or below `SP - k` is read or written;
* it raises `SP` by at most `h` when it returns and by at most `e` when it faults;
* when it returns `a`, it has added `g a` to `GAS_Charge`; it never returns an `a`
  for which `g` has no value.

Footprints compose along the sequence of a command, so each opcode gets its own
from its body, and `decode_footprint` collects them: `OpCode.arity` bounds the
window of every opcode, `OpCode.rise` its growth, and `OpCode.outcome` lists the
statuses it can return with what it charges for each. `STOP`, which resets the machine, is the one
exception.
-/

namespace TinyEvm

open Lib.Buffer Lib.Exec

/-- Between `s` and `s'` nothing below the `k` topmost elements was used. -/
structure Window (k : Nat) (s s' : Vm) : Prop where
  sp : s.sp - k ≤ s'.sp
  slots : ∀ i ∈ s'.slots, i ∈ s.slots ∨ s.sp - k < i
  stack : ∀ i : Int, i ≤ s.sp - k → s'.slot i = s.slot i

theorem Window.of_eq {s s' : Vm} (hsp : s'.sp = s.sp) (hslots : s'.slots = s.slots)
    (hstack : s'.stack = s.stack) : Window 0 s s' := by
  refine ⟨by omega, ?_, ?_⟩
  · intro i hi
    exact Or.inl (hslots ▸ hi)
  · intro i _
    unfold Vm.slot
    rw [hstack]

theorem Window.trans {k₁ k₂ : Nat} {s₁ s₂ s₃ : Vm} (h₁ : Window k₁ s₁ s₂) (h₂ : Window k₂ s₂ s₃) :
    Window (k₁ + k₂) s₁ s₃ := by
  have hsp₁ := h₁.sp
  have hsp₂ := h₂.sp
  refine ⟨by omega, ?_, ?_⟩
  · intro i hi
    rcases h₂.slots i hi with hold | hnew
    · rcases h₁.slots i hold with hold | hnew
      · exact Or.inl hold
      · exact Or.inr (by omega)
    · exact Or.inr (by omega)
  · intro i hi
    rw [h₂.stack i (by omega), h₁.stack i (by omega)]

theorem Window.mono {k k' : Nat} {s s' : Vm} (h : Window k s s') (hk : k ≤ k') : Window k' s s' := by
  have hsp := h.sp
  refine ⟨by omega, ?_, ?_⟩
  · intro i hi
    rcases h.slots i hi with hold | hnew
    · exact Or.inl hold
    · exact Or.inr (by omega)
  · intro i hi
    exact h.stack i (by omega)

/-- Room for a new top. -/
theorem Window.raise (s : Vm) : Window 0 s { s with sp := s.sp + 1 } :=
  ⟨by dsimp only; omega, fun _ hi => Or.inl hi, fun _ _ => rfl⟩

/-- A slot above the window may be written. -/
theorem Window.setSlot {s s' : Vm} (h : Window 0 s s') {j : Int} (hj : s.sp < j) (w : Uint256) :
    Window 0 s (s'.setSlot j w) := by
  refine ⟨h.sp, h.slots, ?_⟩
  intro i hi
  rw [Vm.slot_setSlot_ne w (by omega)]
  exact h.stack i hi

structure Footprint {α : Type} (k : Nat) (h e : Int) (g : α → Option UInt32) (x : VmM α) : Prop where
  window : ∀ s, Window k s (after (x s))
  ok : ∀ s a s', x s = .ok a s' →
    s'.sp ≤ s.sp + h ∧ ∃ d, g a = some d ∧ s'.gasCharge = s.gasCharge + d
  fault : ∀ s f s', x s = .error f s' → s'.sp ≤ s.sp + e

/-- Any value, and no charge. -/
abbrev free {α : Type} : α → Option UInt32 := fun _ => some 0

/-- One of the statuses `ends`, and no charge. -/
def exits (ends : List Int) (status : Int) : Option UInt32 := if status ∈ ends then some 0 else none

/-- Zero with a charge of `gas`, or one of the statuses `ends`. -/
def paying (gas : UInt32) (ends : List Int) (status : Int) : Option UInt32 :=
  if status = 0 then some gas else exits ends status

namespace Footprint

variable {α β : Type}

theorem mono {k k' : Nat} {h h' e e' : Int} {g : α → Option UInt32} {x : VmM α}
    (hx : Footprint k h e g x) (hk : k ≤ k') (hh : h ≤ h') (he : e ≤ e') :
    Footprint k' h' e' g x := by
  refine ⟨fun s => (hx.window s).mono hk, ?_, ?_⟩
  · intro s a s' hrun
    obtain ⟨hsp, hgas⟩ := hx.ok s a s' hrun
    exact ⟨by omega, hgas⟩
  · intro s f s' hrun
    have hsp := hx.fault s f s' hrun
    omega

/-- A command that leaves the stack and the counter alone. -/
theorem still {x : VmM α} (hsp : Keeps (·.sp) x) (hslots : Keeps (·.slots) x)
    (hstack : Keeps (·.stack) x) (hgas : Keeps (·.gasCharge) x) : Footprint 0 0 0 free x := by
  refine ⟨fun s => Window.of_eq (hsp s) (hslots s) (hstack s), ?_, ?_⟩
  · intro s a s' hrun
    have hs : s'.sp = s.sp := hsp.ok hrun
    have hg : s'.gasCharge = s.gasCharge := hgas.ok hrun
    exact ⟨by omega, 0, rfl, by rw [hg, UInt32.add_zero]⟩
  · intro s f s' hrun
    have hs : (after (x s)).sp = s.sp := hsp s
    rw [hrun, after_error] at hs
    omega

/-- Returning a value charges nothing for it. -/
theorem value {a : α} {g : α → Option UInt32} (hg : g a = some 0) : Footprint 0 0 0 g (pure a) := by
  refine ⟨fun s => Window.of_eq rfl rfl rfl, ?_, ?_⟩
  · intro s b s' hrun
    cases hrun
    exact ⟨by omega, 0, hg, (UInt32.add_zero _).symm⟩
  · intro s f s' hrun
    cases hrun

theorem fails {f : Fault} {g : α → Option UInt32} : Footprint 0 0 0 g (throw f : VmM α) := by
  refine ⟨fun s => Window.of_eq rfl rfl rfl, ?_, ?_⟩
  · intro s b s' hrun
    cases hrun
  · intro s f' s' hrun
    cases hrun
    omega

theorem state : Footprint 0 0 0 free (get : VmM Vm) :=
  still (fun _ => rfl) (fun _ => rfl) (fun _ => rfl) (fun _ => rfl)

/-- An update of anything else. -/
theorem update {f : Vm → Vm} (hsp : ∀ s, (f s).sp = s.sp) (hslots : ∀ s, (f s).slots = s.slots)
    (hstack : ∀ s, (f s).stack = s.stack) (hgas : ∀ s, (f s).gasCharge = s.gasCharge) :
    Footprint 0 0 0 free (modify f : VmM PUnit) :=
  still (Keeps.update hsp) (Keeps.update hslots) (Keeps.update hstack) (Keeps.update hgas)

theorem bind {k₁ k₂ : Nat} {h₁ h₂ e₁ e₂ : Int} {g : β → Option UInt32} {x : VmM α} {f : α → VmM β}
    (hx : Footprint k₁ h₁ e₁ free x) (hf : ∀ a, Footprint k₂ h₂ e₂ g (f a)) :
    Footprint (k₁ + k₂) (h₁ + h₂) (max e₁ (h₁ + e₂)) g (x >>= f) := by
  refine ⟨?_, ?_, ?_⟩
  · intro s
    cases hr : x s with
    | ok a s' =>
      have hw := hx.window s
      rw [hr] at hw
      rw [bind_ok hr]
      exact hw.trans ((hf a).window s')
    | error e s' =>
      have hw := hx.window s
      rw [hr] at hw
      rw [bind_error hr]
      exact Window.mono hw (by omega)
  · intro s b s'' hrun
    obtain ⟨a, s', hr, hrest⟩ := bind_eq_ok.mp hrun
    obtain ⟨hsp, d, hd, hgas⟩ := hx.ok s a s' hr
    obtain ⟨hsp', d', hd', hgas'⟩ := (hf a).ok s' b s'' hrest
    -- the first part charges nothing, so the sequence charges what the second does
    obtain rfl : 0 = d := Option.some.inj hd
    refine ⟨by omega, d', hd', ?_⟩
    rw [hgas', hgas, UInt32.add_zero]
  · intro s e s'' hrun
    cases hr : x s with
    | ok a s' =>
      rw [bind_ok hr] at hrun
      have hsp := (hx.ok s a s' hr).1
      have hsp' := (hf a).fault s' e s'' hrun
      omega
    | error e' s' =>
      rw [bind_error hr] at hrun
      cases hrun
      have hsp := hx.fault s e s'' hr
      omega

theorem branch {k₁ k₂ : Nat} {h₁ h₂ e₁ e₂ : Int} {g : α → Option UInt32} {c : Prop} [Decidable c]
    {x y : VmM α} (hx : Footprint k₁ h₁ e₁ g x) (hy : Footprint k₂ h₂ e₂ g y) :
    Footprint (max k₁ k₂) (max h₁ h₂) (max e₁ e₂) g (if c then x else y) := by
  split
  · exact hx.mono (Nat.le_max_left ..) (Int.le_max_left ..) (Int.le_max_left ..)
  · exact hy.mono (Nat.le_max_right ..) (Int.le_max_right ..) (Int.le_max_right ..)

theorem branchDep {k₁ k₂ : Nat} {h₁ h₂ e₁ e₂ : Int} {g : α → Option UInt32} {c : Prop} [Decidable c]
    {x : c → VmM α} {y : ¬c → VmM α} (hx : ∀ hc, Footprint k₁ h₁ e₁ g (x hc))
    (hy : ∀ hc, Footprint k₂ h₂ e₂ g (y hc)) :
    Footprint (max k₁ k₂) (max h₁ h₂) (max e₁ e₂) g (if hc : c then x hc else y hc) := by
  split
  · exact (hx _).mono (Nat.le_max_left ..) (Int.le_max_left ..) (Int.le_max_left ..)
  · exact (hy _).mono (Nat.le_max_right ..) (Int.le_max_right ..) (Int.le_max_right ..)

/-! ## Primitives -/

theorem pop : Footprint 1 (-1) 0 free stackPop := by
  refine ⟨?_, ?_, ?_⟩
  · intro s
    by_cases hin : InStack s.sp
    · rw [stackPop_ok hin]
      refine ⟨Int.le_refl _, ?_, ?_⟩
      · intro i hi
        rcases List.mem_cons.mp hi with rfl | hold
        · exact Or.inr (by omega)
        · exact Or.inl hold
      · intro i _
        rfl
    · rw [stackPop_fault hin]
      exact (Window.of_eq rfl rfl rfl).mono (by omega)
  · intro s a s' hrun
    by_cases hin : InStack s.sp
    · rw [stackPop_ok hin] at hrun
      cases hrun
      exact ⟨Int.le_refl _, 0, rfl, (UInt32.add_zero _).symm⟩
    · rw [stackPop_fault hin] at hrun
      cases hrun
  · intro s f s' hrun
    by_cases hin : InStack s.sp
    · rw [stackPop_ok hin] at hrun
      cases hrun
    · rw [stackPop_fault hin] at hrun
      cases hrun
      omega

theorem popLow : Footprint 1 (-1) 0 free stackPopLow := by
  unfold stackPopLow
  refine mono (pop.bind fun _ => value rfl) ?_ ?_ ?_ <;> decide

theorem window_pushed (s : Vm) (w : Uint256) : Window 0 s (s.pushed w) := by
  refine ⟨?_, ?_, ?_⟩
  · rw [Vm.sp_pushed]
    omega
  · intro i hi
    exact Or.inl hi
  · intro i hi
    exact Vm.slot_pushed_ne w (by omega)

theorem push (w : Uint256) : Footprint 0 1 1 free (stackPush w) := by
  refine ⟨?_, ?_, ?_⟩
  · intro s
    by_cases hin : InStack (s.sp + 1)
    · rw [stackPush_ok w hin]
      exact window_pushed s w
    · by_cases hfull : s.sp ≥ stackSpace
      · rw [stackPush_full w hfull]
        exact Window.of_eq rfl rfl rfl
      · rw [stackPush_fault w hin (by omega)]
        refine ⟨?_, fun i hi => Or.inl hi, fun i _ => rfl⟩
        show s.sp - (0 : Nat) ≤ s.sp + 1
        omega
  · intro s a s' hrun
    by_cases hin : InStack (s.sp + 1)
    · rw [stackPush_ok w hin] at hrun
      cases hrun
      exact ⟨Int.le_refl _, 0, rfl, (UInt32.add_zero _).symm⟩
    · by_cases hfull : s.sp ≥ stackSpace
      · rw [stackPush_full w hfull] at hrun
        cases hrun
        exact ⟨by omega, 0, rfl, (UInt32.add_zero _).symm⟩
      · rw [stackPush_fault w hin (by omega)] at hrun
        cases hrun
  · intro s f s' hrun
    by_cases hin : InStack (s.sp + 1)
    · rw [stackPush_ok w hin] at hrun
      cases hrun
    · by_cases hfull : s.sp ≥ stackSpace
      · rw [stackPush_full w hfull] at hrun
        cases hrun
      · rw [stackPush_fault w hin (by omega)] at hrun
        cases hrun
        exact Int.le_refl _

/-- The end of most opcodes: `GAS_Charge += gas; break;`. -/
theorem paid (gas : UInt32) {ends : List Int} :
    Footprint 0 0 0 (paying gas ends) (charge gas >>= fun _ => (pure 0 : VmM Int)) := by
  refine ⟨fun s => Window.of_eq rfl rfl rfl, ?_, ?_⟩
  · intro s a s' hrun
    cases hrun
    exact ⟨(Int.add_zero s.sp).ge, gas, rfl, rfl⟩
  · intro s f s' hrun
    cases hrun

/-- The end of an opcode that forgets to charge. -/
theorem unpaid {ends : List Int} : Footprint 0 0 0 (paying 0 ends) (pure 0 : VmM Int) := value rfl

theorem noteMem (f : Vm → Nat) : Footprint 0 0 0 free
    (modify fun s => { s with maxMemOffset := f s } : VmM PUnit) :=
  update (fun _ => rfl) (fun _ => rfl) (fun _ => rfl) (fun _ => rfl)

theorem setPc (f : Vm → UInt32) : Footprint 0 0 0 free
    (modify fun s => { s with pc := f s } : VmM PUnit) :=
  update (fun _ => rfl) (fun _ => rfl) (fun _ => rfl) (fun _ => rfl)

theorem memBlock (off len : Nat) : Footprint 0 0 0 free (memBlock off len) := by
  unfold TinyEvm.memBlock
  refine mono (state.bind fun _ => branch (value rfl) fails) ?_ ?_ ?_ <;> decide

theorem setMemBlock (off len : Nat) (bytes : Nat → UInt8) :
    Footprint 0 0 0 free (setMemBlock off len bytes) := by
  unfold TinyEvm.setMemBlock
  split
  · exact update (fun _ => rfl) (fun _ => rfl) (fun _ => rfl) (fun _ => rfl)
  · exact fails

theorem codeBlock (c : Code) (off len : Nat) : Footprint 0 0 0 free (codeBlock c off len) := by
  unfold TinyEvm.codeBlock
  split
  · exact value rfl
  · exact fails

theorem codeAt (c : Code) (i : Nat) : Footprint 0 0 0 free (codeAt c i) := by
  unfold TinyEvm.codeAt
  split
  · exact value rfl
  · exact fails

/-! ## Opcodes that end no higher than they started -/

theorem unary (f : Uint256 → Uint256) (gas : UInt32) :
    Footprint 1 0 0 (paying gas []) (unary f gas) := by
  unfold TinyEvm.unary
  refine mono (pop.bind fun _ => (push _).bind fun _ => paid gas) ?_ ?_ ?_ <;> decide

theorem binary (f : Uint256 → Uint256 → Uint256) (gas : UInt32) :
    Footprint 2 0 0 (paying gas []) (binary f gas) := by
  unfold TinyEvm.binary
  refine mono (pop.bind fun _ => pop.bind fun _ => (push _).bind fun _ => paid gas) ?_ ?_ ?_ <;>
    decide

theorem opSub : Footprint 2 0 0 (paying 0 []) opSub := by
  unfold TinyEvm.opSub
  refine mono (pop.bind fun _ => pop.bind fun _ => (push _).bind fun _ => unpaid) ?_ ?_ ?_ <;> decide

theorem callDivmod256 (l r : Uint256) (retMod : Bool) :
    Footprint 0 0 0 free (callDivmod256 l r retMod) := by
  unfold TinyEvm.callDivmod256
  split
  · exact fails
  · split
    · exact value rfl
    · exact fails

theorem opDiv : Footprint 2 0 0 (paying 5 []) opDiv := by
  have htarget : ∀ l r, Footprint 0 0 0 free (divTarget l r) := by
    intro l r
    unfold divTarget
    refine mono (branch (value rfl) ((callDivmod256 l r false).bind fun _ => value rfl)) ?_ ?_ ?_ <;>
      decide
  unfold TinyEvm.opDiv
  refine mono (pop.bind fun _ => pop.bind fun _ => (htarget _ _).bind fun _ =>
    (push _).bind fun _ => paid 5) ?_ ?_ ?_ <;> decide

theorem dividing (result : Uint256 × Uint256 → Uint256) :
    Footprint 2 0 0 (paying 5 []) (dividing result) := by
  unfold TinyEvm.dividing
  refine mono (pop.bind fun _ => pop.bind fun _ => (callDivmod256 _ _ true).bind fun _ =>
    (push _).bind fun _ => paid 5) ?_ ?_ ?_ <;> decide

theorem modular (f : Uint256 → Uint256 → Uint256) (gas : UInt32) :
    Footprint 3 0 0 (paying gas []) (modular f gas) := by
  unfold TinyEvm.modular
  refine mono (pop.bind fun _ => pop.bind fun _ => pop.bind fun _ =>
    (callDivmod256 _ _ true).bind fun _ => (push _).bind fun _ => paid gas) ?_ ?_ ?_ <;> decide

theorem sha3Result (length : UInt64) (data : Nat → UInt8) {ends : List Int} :
    Footprint 0 1 1 (paying 0 ends) (sha3Result length data) := by
  unfold TinyEvm.sha3Result
  refine mono (branch fails ((push _).bind fun _ => unpaid)) ?_ ?_ ?_ <;> decide

/-- `SHA3` behind its check of the length. -/
theorem sha3Body (ends : List Int) (offset length : UInt64) : Footprint 0 1 1 (paying 0 ends)
    (if offset.toNat > memorySpace then automaticFrame >>= fun data => TinyEvm.sha3Result length data
      else TinyEvm.memBlock offset.toNat length.toNat >>= fun data => TinyEvm.sha3Result length data) := by
  have hframe : Footprint 0 0 0 free automaticFrame :=
    still (fun _ => rfl) (fun _ => rfl) (fun _ => rfl) (fun _ => rfl)
  refine mono (branch (hframe.bind fun _ => sha3Result _ _)
    ((memBlock _ _).bind fun _ => sha3Result _ _)) ?_ ?_ ?_ <;> decide

theorem opSha3 : Footprint 2 0 0 (paying 0 [-1]) opSha3 := by
  unfold TinyEvm.opSha3
  refine mono (popLow.bind fun offset => popLow.bind fun length =>
    branch (value rfl) (sha3Body _ offset length)) ?_ ?_ ?_ <;> decide

theorem opCalldataload : Footprint 1 0 0 (paying 0 []) opCalldataload := by
  unfold TinyEvm.opCalldataload
  refine mono (popLow.bind fun _ => state.bind fun _ => branch unpaid
    (branch ((push _).bind fun _ => unpaid) (branch ((push _).bind fun _ => unpaid) fails)))
    ?_ ?_ ?_ <;> decide

theorem opCalldatacopy (c : Code) : Footprint 3 0 0 (paying 2 []) (opCalldatacopy c) := by
  unfold TinyEvm.opCalldatacopy
  refine mono (popLow.bind fun _ => popLow.bind fun _ => popLow.bind fun _ => branch (paid 2)
    (branch (paid 2) ((codeBlock c _ _).bind fun _ => (setMemBlock _ _ _).bind fun _ =>
      (noteMem _).bind fun _ => paid 2))) ?_ ?_ ?_ <;> decide

theorem codeElement (c : Code) : ∀ (k : Nat) (offset element : UInt64),
    Footprint 0 0 0 free (codeElement c k offset element) := by
  intro k
  induction k with
  | zero =>
    intro offset element
    exact value rfl
  | succ k ih =>
    intro offset element
    rw [TinyEvm.codeElement]
    refine mono ((codeAt c _).bind fun _ => ih _ _) ?_ ?_ ?_ <;> decide

theorem codecopyLoop (c : Code) (memOffset : Nat) : ∀ (rounds : Nat) (len : Int) (offset : UInt64),
    Footprint 0 0 0 free (codecopyLoop c memOffset rounds len offset) := by
  intro rounds
  induction rounds with
  | zero =>
    intro len offset
    exact value rfl
  | succ rounds ih =>
    intro len offset
    rw [TinyEvm.codecopyLoop]
    split
    · refine mono ((codeElement c 8 _ _).bind fun _ => (codeElement c 8 _ _).bind fun _ =>
        (codeElement c 8 _ _).bind fun _ => (codeElement c 8 _ _).bind fun _ =>
        (setMemBlock _ _ _).bind fun _ => (setMemBlock _ _ _).bind fun _ =>
        (setMemBlock _ _ _).bind fun _ => (setMemBlock _ _ _).bind fun _ => ih _ _)
        ?_ ?_ ?_ <;> decide
    · exact value rfl

theorem opCodecopy (c : Code) : Footprint 3 0 0 (paying 2 []) (opCodecopy c) := by
  unfold TinyEvm.opCodecopy
  refine mono (popLow.bind fun _ => popLow.bind fun _ => popLow.bind fun _ => branch (paid 2)
    (branch ((noteMem _).bind fun _ => (codecopyLoop c _ _ _ _).bind fun _ => paid 2)
      ((codeBlock c _ _).bind fun _ => (setMemBlock _ _ _).bind fun _ => paid 2)))
      ?_ ?_ ?_ <;> decide

/-- `RETURN` never returns zero. -/
theorem opReturn : Footprint 2 0 0 (exits [returnStatus]) opReturn := by
  have hlength : ∀ n : UInt64, Footprint 0 0 0 free
      (modify fun s => { s with deployLength := n } : VmM PUnit) :=
    fun n => update (fun _ => rfl) (fun _ => rfl) (fun _ => rfl) (fun _ => rfl)
  have hcopy : ∀ len bytes, Footprint 0 0 0 free
      (modify fun s => { s with deployedContract := blit s.deployedContract 0 len bytes } : VmM PUnit) :=
    fun len bytes => update (fun _ => rfl) (fun _ => rfl) (fun _ => rfl) (fun _ => rfl)
  unfold TinyEvm.opReturn
  refine mono (popLow.bind fun _ => popLow.bind fun _ => (memBlock _ _).bind fun _ =>
    (hlength _).bind fun _ => branch ((hcopy _ _).bind fun _ => value rfl) fails) ?_ ?_ ?_ <;> decide

theorem opPop : Footprint 1 0 0 (paying 2 []) opPop := by
  unfold TinyEvm.opPop
  refine mono (pop.bind fun _ => paid 2) ?_ ?_ ?_ <;> decide

theorem opMload : Footprint 1 0 0 (paying 3 []) opMload := by
  unfold TinyEvm.opMload
  refine mono (popLow.bind fun _ => branch (paid 3)
    ((memBlock _ _).bind fun _ => (push _).bind fun _ => paid 3)) ?_ ?_ ?_ <;> decide

theorem opMstore : Footprint 2 0 0 (paying 3 []) opMstore := by
  unfold TinyEvm.opMstore
  refine mono (popLow.bind fun _ => pop.bind fun _ => branch (paid 3)
    ((setMemBlock _ _ _).bind fun _ => (noteMem _).bind fun _ => paid 3)) ?_ ?_ ?_ <;> decide

theorem opMstore8 : Footprint 2 0 0 (paying 3 []) opMstore8 := by
  unfold TinyEvm.opMstore8
  refine mono (popLow.bind fun _ => popLow.bind fun _ => branch (paid 3)
    ((setMemBlock _ _ _).bind fun _ => paid 3)) ?_ ?_ ?_ <;> decide

theorem opSstore : Footprint 2 0 0 (paying 20000 []) opSstore := by
  have hcount : Footprint 0 0 0 free
      (modify fun s => { s with maxStorageCounter := s.maxStorageCounter + 1 } : VmM PUnit) :=
    update (fun _ => rfl) (fun _ => rfl) (fun _ => rfl) (fun _ => rfl)
  have hstore : ∀ (key : Fin storageSpace) (value : Uint256), Footprint 0 0 0 free
      (modify fun s => { s with storage := poke s.storage key value } : VmM PUnit) :=
    fun key value => update (fun _ => rfl) (fun _ => rfl) (fun _ => rfl) (fun _ => rfl)
  unfold TinyEvm.opSstore
  refine mono (popLow.bind fun _ => pop.bind fun _ => hcount.bind fun _ => branch (paid 20000)
    (branchDep (fun _ => (hstore _ _).bind fun _ => paid 20000) fun _ => fails)) ?_ ?_ ?_ <;> decide

theorem opSload : Footprint 1 0 0 (paying 0 []) opSload := by
  unfold TinyEvm.opSload
  refine mono (popLow.bind fun _ => state.bind fun _ => branch unpaid
    (branchDep (fun _ => (push _).bind fun _ => unpaid) fun _ => fails)) ?_ ?_ ?_ <;> decide

theorem opJumpi : Footprint 2 0 0 (paying 0 []) opJumpi := by
  unfold TinyEvm.opJumpi
  refine mono (popLow.bind fun _ => popLow.bind fun _ => (setPc _).bind fun _ => unpaid)
    ?_ ?_ ?_ <;> decide

theorem opJump : Footprint 1 0 0 (paying 0 []) opJump := by
  unfold TinyEvm.opJump
  refine mono (popLow.bind fun _ => (setPc _).bind fun _ => unpaid) ?_ ?_ ?_ <;> decide

/-- `REVERT` charges only where it fails to end the run. -/
theorem opRevert : Footprint 2 0 0 (paying 3 [returnStatus]) opRevert := by
  unfold TinyEvm.opRevert
  refine mono (popLow.bind fun _ => popLow.bind fun _ => branch (paid 3)
    ((memBlock _ _).bind fun _ => value rfl)) ?_ ?_ ?_ <;> decide

/-! ## `DUP`, `SWAP` and the opcodes that grow the stack -/

theorem pushing (item : Vm → Uint256) (gas : UInt32) :
    Footprint 0 1 1 (paying gas []) (pushing item gas) := by
  unfold TinyEvm.pushing
  refine mono (state.bind fun _ => (push _).bind fun _ => paid gas) ?_ ?_ ?_ <;> decide

theorem pushingFree (item : Vm → Uint256) : Footprint 0 1 1 (paying 0 []) (pushingFree item) := by
  unfold TinyEvm.pushingFree
  refine mono (state.bind fun _ => (push _).bind fun _ => unpaid) ?_ ?_ ?_ <;> decide

theorem opTimestamp : Footprint 0 1 1 (paying 0 []) opTimestamp := by
  have htick : Footprint 0 0 0 free (get >>= fun s : Vm =>
      (set { s with rtimer := fun i => s.rtimer (i + 1) } : VmM PUnit) >>= fun _ => pure s) :=
    still (fun _ => rfl) (fun _ => rfl) (fun _ => rfl) (fun _ => rfl)
  have heq : TinyEvm.opTimestamp = (get >>= fun s : Vm =>
      (set { s with rtimer := fun i => s.rtimer (i + 1) } : VmM PUnit) >>= fun _ => pure s) >>= fun s =>
      stackPush (lowWord (s.rtimer 0).toUInt64) >>= fun _ => pure 0 := rfl
  rw [heq]
  refine mono (htick.bind fun _ => (push _).bind fun _ => unpaid) ?_ ?_ ?_ <;> decide

/-- A command that, from every machine, does nothing, faults at once, or goes on
as `y` from a machine whose window is still open. -/
theorem of_cases {k : Nat} {h : Int} {x : VmM Int} (hh : 0 ≤ h)
    (hx : ∀ s, x s = .ok 0 s ∨ (∃ f, x s = .error f s) ∨
      ∃ y s₁, Footprint 0 h h (paying 0 []) y ∧ Window k s s₁ ∧ s₁.sp = s.sp ∧
        s₁.gasCharge = s.gasCharge ∧ x s = y s₁) : Footprint k h h (paying 0 []) x := by
  refine ⟨?_, ?_, ?_⟩
  · intro s
    rcases hx s with hrun | ⟨f, hrun⟩ | ⟨y, s₁, hy, hw, hsp, -, hrun⟩
    · rw [hrun]
      exact (Window.of_eq rfl rfl rfl).mono (by omega)
    · rw [hrun]
      exact (Window.of_eq rfl rfl rfl).mono (by omega)
    · rw [hrun]
      exact hw.trans (hy.window s₁)
  · intro s a s' hok
    rcases hx s with hrun | ⟨f, hrun⟩ | ⟨y, s₁, hy, hw, hsp, hgas, hrun⟩
    · rw [hrun] at hok
      cases hok
      exact ⟨by omega, 0, rfl, (UInt32.add_zero _).symm⟩
    · rw [hrun] at hok
      cases hok
    · rw [hrun] at hok
      rw [← hsp, ← hgas]
      exact hy.ok s₁ a s' hok
  · intro s f' s' herr
    rcases hx s with hrun | ⟨f, hrun⟩ | ⟨y, s₁, hy, hw, hsp, hgas, hrun⟩
    · rw [hrun] at herr
      cases herr
    · rw [hrun] at herr
      cases herr
      omega
    · rw [hrun] at herr
      rw [← hsp]
      exact hy.fault s₁ f' s' herr

theorem opDup (n : Nat) : Footprint (n + 1) 1 1 (paying 0 []) (opDup n) := by
  refine of_cases (by decide) ?_
  intro s
  unfold TinyEvm.opDup
  rw [get_bind]
  by_cases hneg : s.sp - n < 0
  · rw [if_pos hneg]
    exact Or.inl rfl
  · rw [if_neg hneg]
    right
    by_cases hin : InStack (s.sp - n)
    · right
      refine ⟨_, _, (push (s.slot (s.sp - n))).bind (fun _ => unpaid), ?_, ?_, ?_,
        bind_ok (stackAt_ok hin) _⟩
      · refine ⟨?_, ?_, fun i _ => rfl⟩
        · show s.sp - ((n + 1 : Nat) : Int) ≤ s.sp
          omega
        · intro i hi
          rcases List.mem_cons.mp hi with rfl | hold
          · exact Or.inr (by omega)
          · exact Or.inl hold
      · rfl
      · rfl
    · left
      exact ⟨_, bind_error (stackAt_fault hin) _⟩

theorem opSwap (n : Nat) : Footprint (n + 1) 0 0 (paying 0 []) (opSwap n) := by
  refine of_cases (by decide) ?_
  intro s
  unfold TinyEvm.opSwap
  rw [get_bind]
  by_cases hbad : s.sp - n < 0 ∨ s.sp - n > stackSpace
  · rw [if_pos hbad]
    exact Or.inl rfl
  · rw [if_neg hbad]
    right
    by_cases hin : InStack s.sp
    · right
      -- `SWAPn` tests its far slot against `STACK_SPACE`, so inside `STACK` both are
      have hother : InStack (s.sp - n) := by
        unfold InStack at hin ⊢
        omega
      refine ⟨pure 0, ({ s with slots := (s.sp - n) :: s.sp :: s.slots }.setSlot s.sp
        (s.slot (s.sp - n))).setSlot (s.sp - n) (s.slot s.sp),
        unpaid, ?_, rfl, rfl, ?_⟩
      · refine ⟨?_, ?_, ?_⟩
        · show s.sp - ((n + 1 : Nat) : Int) ≤ s.sp
          omega
        · intro i hi
          rcases List.mem_cons.mp hi with rfl | hold
          · exact Or.inr (by omega)
          · rcases List.mem_cons.mp hold with rfl | hold
            · exact Or.inr (by omega)
            · exact Or.inl hold
        · intro i hi
          rw [Vm.slot_setSlot_ne _ (by omega), Vm.slot_setSlot_ne _ (by omega)]
          rfl
      · rw [bind_ok (stackAt_ok hin), bind_ok (stackAt_ok hother), bind_ok (setStackAt_ok _ hin),
          bind_ok (setStackAt_ok _ hother)]
        rfl
    · left
      exact ⟨_, bind_error (stackAt_fault hin) _⟩

theorem pushBytes (c : Code) : ∀ (k : Nat) (element : UInt64),
    Footprint 0 0 0 free (pushBytes c k element) := by
  intro k
  induction k with
  | zero =>
    intro element
    exact value rfl
  | succ k ih =>
    intro element
    rw [TinyEvm.pushBytes]
    refine mono ((setPc _).bind fun _ => state.bind fun _ => (codeAt c _).bind fun _ => ih _)
      ?_ ?_ ?_ <;> decide

theorem pushImmediate (n : Nat) {read : VmM Uint256} (hread : Footprint 0 0 0 free read) :
    Footprint 0 1 1 (paying 2 [-1]) (pushImmediate n read) := by
  have hrun : ∀ s, TinyEvm.pushImmediate n read s = if s.sp + n ≥ stackSpace then .ok (-1) s
      else (read >>= fun word => setStackAt (s.sp + 1) word >>= fun _ =>
        charge 2 >>= fun _ => pure 0) { s with sp := s.sp + 1 } := by
    intro s
    unfold TinyEvm.pushImmediate
    rw [get_bind]
    split <;> rfl
  have hwindow : ∀ s, Window 0 s (after (read { s with sp := s.sp + 1 })) := fun s =>
    (Window.raise s).trans (hread.window _)
  -- the word is stored at the slot `read` still has on top
  have hsame : ∀ s w s₁, read { s with sp := s.sp + 1 } = .ok w s₁ →
      Window 0 s s₁ ∧ s₁.sp ≤ s.sp + 1 ∧ s₁.gasCharge = s.gasCharge := by
    intro s w s₁ hok
    have hw := hwindow s
    rw [hok, after_ok] at hw
    obtain ⟨hsp, d, hd, hgas⟩ := hread.ok _ _ _ hok
    obtain rfl : 0 = d := Option.some.inj hd
    dsimp only at hsp
    refine ⟨hw, by omega, ?_⟩
    rw [hgas, UInt32.add_zero]
  refine ⟨?_, ?_, ?_⟩
  · intro s
    rw [hrun]
    split
    · exact Window.of_eq rfl rfl rfl
    · cases hr : read { s with sp := s.sp + 1 } with
      | error f s₁ =>
        have hw := hwindow s
        rw [hr, after_error] at hw
        rw [bind_error hr]
        exact hw
      | ok w s₁ =>
        rw [bind_ok hr]
        by_cases hin : InStack (s.sp + 1)
        · rw [bind_ok (setStackAt_ok w hin)]
          have hw := (hsame s w s₁ hr).1.setSlot (Int.lt_succ s.sp) w
          exact ⟨hw.sp, hw.slots, hw.stack⟩
        · rw [bind_error (setStackAt_fault w hin)]
          exact (hsame s w s₁ hr).1
  · intro s a s' hok
    rw [hrun] at hok
    split at hok
    · cases hok
      exact ⟨by omega, 0, rfl, (UInt32.add_zero _).symm⟩
    · obtain ⟨w, s₁, hr, hok⟩ := bind_eq_ok.mp hok
      obtain ⟨-, hsp, hgas⟩ := hsame s w s₁ hr
      by_cases hin : InStack (s.sp + 1)
      · rw [bind_ok (setStackAt_ok w hin)] at hok
        cases hok
        exact ⟨by show s₁.sp ≤ _; omega, 2, rfl, by rw [← hgas]; rfl⟩
      · rw [bind_error (setStackAt_fault w hin)] at hok
        cases hok
  · intro s f s' herr
    rw [hrun] at herr
    split at herr
    · cases herr
    · cases hr : read { s with sp := s.sp + 1 } with
      | error f' s₁ =>
        rw [bind_error hr] at herr
        cases herr
        have hsp := hread.fault _ _ _ hr
        dsimp only at hsp
        omega
      | ok w s₁ =>
        obtain ⟨-, hsp, -⟩ := hsame s w s₁ hr
        rw [bind_ok hr] at herr
        by_cases hin : InStack (s.sp + 1)
        · rw [bind_ok (setStackAt_ok w hin)] at herr
          cases herr
        · rw [bind_error (setStackAt_fault w hin)] at herr
          cases herr
          omega

theorem opPush (c : Code) (n : Nat) : Footprint 0 1 1 (paying 2 [-1]) (opPush c n) := by
  have hbytes : ∀ k, Footprint 0 0 0 free (TinyEvm.pushBytes c k 0) := fun k => pushBytes c k 0
  have hword : ∀ w : Uint256, Footprint 0 0 0 free (pure w : VmM Uint256) := fun _ => value rfl
  unfold TinyEvm.opPush
  split
  · refine pushImmediate n (mono ((hbytes _).bind fun _ => hword _) ?_ ?_ ?_) <;> decide
  · split
    · refine pushImmediate n (mono ((hbytes _).bind fun _ => (hbytes _).bind fun _ =>
        hword _) ?_ ?_ ?_) <;> decide
    · split
      · refine pushImmediate n (mono ((hbytes _).bind fun _ => (hbytes _).bind fun _ =>
          (hbytes _).bind fun _ => hword _) ?_ ?_ ?_) <;> decide
      · refine pushImmediate n (mono ((hbytes _).bind fun _ => (hbytes _).bind fun _ =>
          (hbytes _).bind fun _ => (hbytes _).bind fun _ => hword _) ?_ ?_ ?_) <;> decide

end Footprint

/-! ## Every opcode -/

namespace OpCode

/-- How far an opcode can raise `SP`. -/
def rise : OpCode → Int
  | push _ | dup _ | address | caller | callvalue | calldatasize | codesize | blockhash
  | timestamp => 1
  | _ => 0

/-- What an opcode adds to `GAS_Charge` when the run goes on behind it. -/
def gas : OpCode → UInt32
  | add | lt | gt | slt | sgt | eq | iszero | and | or | xor | not | byte | shl | shr | sar
  | mload | mstore | mstore8 | revert => 3
  | mul | div | sdiv | mod | smod | addmod | signextend => 5
  | mulmod => 8
  | exp => 10
  | address | caller | callvalue | calldatacopy | codecopy | pop | push _ => 2
  | sstore => 20000
  | _ => 0

/-- The statuses an opcode returns, and the charge for each. -/
def outcome : OpCode → Int → Option UInt32
  | ret => exits [returnStatus]
  | unsupported => exits [-1]
  | revert => paying 3 [returnStatus]
  | sha3 => paying 0 [-1]
  | push _ => paying 2 [-1]
  | op => paying op.gas []

end OpCode

/-- **The footprint of every opcode but `STOP`.** -/
theorem decode_footprint {b : UInt8} (c : Code) (hstop : OpCode.ofByte b ≠ .stop) :
    Footprint (OpCode.ofByte b).arity (OpCode.ofByte b).rise (OpCode.ofByte b).rise
      (OpCode.ofByte b).outcome (decodeInstruction b c) := by
  unfold decodeInstruction
  cases hop : OpCode.ofByte b with
  | stop => exact absurd hop hstop
  | add => exact Footprint.binary _ _
  | mul => exact Footprint.binary _ _
  | sub => exact Footprint.opSub
  | div => exact Footprint.opDiv
  | sdiv => exact Footprint.dividing _
  | mod => exact Footprint.dividing _
  | smod => exact Footprint.dividing _
  | addmod => exact Footprint.modular _ _
  | mulmod => exact Footprint.modular _ _
  | exp => exact Footprint.binary _ _
  | signextend => exact (Footprint.paid 5).mono (by decide) (by decide) (by decide)
  | sensor => exact Footprint.unpaid
  | led => exact Footprint.unpaid
  | temperature => exact Footprint.unpaid
  | lt => exact Footprint.binary _ _
  | gt => exact Footprint.binary _ _
  | slt => exact Footprint.binary _ _
  | sgt => exact Footprint.binary _ _
  | eq => exact Footprint.binary _ _
  | iszero => exact Footprint.unary _ _
  | and => exact Footprint.binary _ _
  | or => exact Footprint.binary _ _
  | xor => exact Footprint.binary _ _
  | not => exact Footprint.unary _ _
  | byte => exact Footprint.binary _ _
  | shl => exact Footprint.binary _ _
  | shr => exact Footprint.binary _ _
  | sar => exact Footprint.binary _ _
  | sha3 => exact Footprint.opSha3
  | address => exact Footprint.pushing _ _
  | balance => exact Footprint.unpaid.mono (by decide) (by decide) (by decide)
  | caller => exact Footprint.pushing _ _
  | callvalue => exact Footprint.pushing _ _
  | calldataload => exact Footprint.opCalldataload
  | calldatasize => exact Footprint.pushingFree _
  | calldatacopy => exact Footprint.opCalldatacopy c
  | codesize => exact Footprint.pushingFree _
  | codecopy => exact Footprint.opCodecopy c
  | blockhash => exact (Footprint.pushingFree _).mono (by decide) (by decide) (by decide)
  | timestamp => exact Footprint.opTimestamp
  | pop => exact Footprint.opPop
  | mload => exact Footprint.opMload
  | mstore => exact Footprint.opMstore
  | mstore8 => exact Footprint.opMstore8
  | sload => exact Footprint.opSload
  | sstore => exact Footprint.opSstore
  | jump => exact Footprint.opJump
  | jumpi => exact Footprint.opJumpi
  | jumpdest => exact Footprint.unpaid
  | push n => exact Footprint.opPush c (n + 1)
  | dup n => exact Footprint.opDup n
  | swap n => exact Footprint.opSwap (n + 1)
  | log n => exact Footprint.unpaid.mono (by omega) (Int.le_refl 0) (Int.le_refl 0)
  | ret => exact Footprint.opReturn
  | revert => exact Footprint.opRevert
  | invalid => exact Footprint.unpaid
  | unsupported => exact Footprint.value rfl

/-- `STOP` resets `PC`, `SP` and the counter, and nothing else. -/
theorem decode_stop {b : UInt8} {c : Code} {s : Vm} (hop : OpCode.ofByte b = .stop) :
    decodeInstruction b c s = .ok 0 { s with pc := 0, sp := 0, gasCharge := 0 } := by
  unfold decodeInstruction
  rw [hop]
  rfl

end TinyEvm
