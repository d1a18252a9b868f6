import Mathlib.Algebra.Order.BigOperators.Group.List
import Mathlib.Algebra.Order.Ring.Nat
import Mathlib.Data.List.Nodup

/-!
# Escrow

Amounts are deposited under keys, each key once, and paid out again, each deposit
at most once and in full. A `Ledger` is the history of both, newest first;
`Ledger.Sound` says that the history is one of such an escrow, and the two
operations keep it. What is in escrow is then what was deposited under the keys
that are not paid yet (`held_add_paidOut`), and a deposit that is still held is
part of it (`amount_le_held`): whoever holds what the ledger says can always pay
the next one.
-/

namespace TinyEvm.Lib.Escrow

variable {κ ρ : Type}

/-- Deposits `(key, amount)` and payments `(key, amount, note)`. -/
structure Ledger (κ ρ : Type) where
  deposits : List (κ × Nat)
  payments : List (κ × Nat × ρ)

namespace Ledger

def keys (l : Ledger κ ρ) : List κ := l.deposits.map Prod.fst

def paidKeys (l : Ledger κ ρ) : List κ := l.payments.map Prod.fst

/-- Every key once on both sides, and only what was deposited is paid. -/
structure Sound (l : Ledger κ ρ) : Prop where
  keys_nodup : l.keys.Nodup
  paid_nodup : l.paidKeys.Nodup
  paid_deposit : ∀ p ∈ l.payments, (p.1, p.2.1) ∈ l.deposits

def deposited (l : Ledger κ ρ) : Nat := (l.deposits.map Prod.snd).sum

def paidOut (l : Ledger κ ρ) : Nat := (l.payments.map fun p => p.2.1).sum

def deposit (l : Ledger κ ρ) (k : κ) (n : Nat) : Ledger κ ρ :=
  { l with deposits := (k, n) :: l.deposits }

def pay (l : Ledger κ ρ) (k : κ) (n : Nat) (note : ρ) : Ledger κ ρ :=
  { l with payments := (k, n, note) :: l.payments }

def empty : Ledger κ ρ := ⟨[], []⟩

theorem sound_empty : (empty : Ledger κ ρ).Sound :=
  ⟨List.nodup_nil, List.nodup_nil, fun _ h => by cases h⟩

/-! ## The operations -/

theorem Sound.deposit {l : Ledger κ ρ} (h : l.Sound) {k : κ} (hk : k ∉ l.keys) (n : Nat) :
    (l.deposit k n).Sound :=
  ⟨List.nodup_cons.mpr ⟨hk, h.keys_nodup⟩, h.paid_nodup,
    fun p hp => List.mem_cons_of_mem _ (h.paid_deposit p hp)⟩

theorem Sound.pay {l : Ledger κ ρ} (h : l.Sound) {k : κ} {n : Nat} (hk : k ∉ l.paidKeys)
    (hn : (k, n) ∈ l.deposits) (note : ρ) : (l.pay k n note).Sound := by
  refine ⟨h.keys_nodup, List.nodup_cons.mpr ⟨hk, h.paid_nodup⟩, ?_⟩
  intro p hp
  rcases List.mem_cons.mp hp with rfl | hp
  · exact hn
  · exact h.paid_deposit p hp

theorem mem_keys_of_mem {l : Ledger κ ρ} {k : κ} {n : Nat} (h : (k, n) ∈ l.deposits) : k ∈ l.keys :=
  List.mem_map.mpr ⟨(k, n), h, rfl⟩

/-! ## What is in escrow -/

section

variable [DecidableEq κ]

/-- The deposits that are not paid yet. -/
def unpaid (l : Ledger κ ρ) : List (κ × Nat) := l.deposits.filter fun d => d.1 ∉ l.paidKeys

/-- What is in escrow. -/
def held (l : Ledger κ ρ) : Nat := (l.unpaid.map Prod.snd).sum

/-- Paying a key moves its amount from the one side to the other. -/
theorem filter_sum_pay {ds : List (κ × Nat)} {k : κ} {n : Nat} {paid : List κ}
    (hnodup : (ds.map Prod.fst).Nodup) (hn : (k, n) ∈ ds) (hk : k ∉ paid) :
    ((ds.filter fun d => d.1 ∉ paid).map Prod.snd).sum
      = ((ds.filter fun d => d.1 ∉ k :: paid).map Prod.snd).sum + n := by
  induction ds with
  | nil => cases hn
  | cons d ds ih =>
    rw [List.map_cons, List.nodup_cons] at hnodup
    rcases List.mem_cons.mp hn with rfl | hmem
    · -- the other deposits are under other keys
      have hrest : (ds.filter fun d => d.1 ∉ k :: paid) = ds.filter fun d => d.1 ∉ paid := by
        refine List.filter_congr fun d hd => ?_
        have hne : d.1 ≠ k := fun heq => hnodup.1 (List.mem_map.mpr ⟨d, hd, heq⟩)
        simp [hne]
      rw [List.filter_cons_of_pos (by simpa using hk), List.filter_cons_of_neg (by simp), hrest,
        List.map_cons, List.sum_cons, Nat.add_comm]
    · have hne : d.1 ≠ k := fun heq => hnodup.1 (List.mem_map.mpr ⟨(k, n), hmem, heq.symm⟩)
      have hsum := ih hnodup.2 hmem
      by_cases hd : d.1 ∈ paid
      · rw [List.filter_cons_of_neg (by simpa using hd),
          List.filter_cons_of_neg (by simp [hd])]
        exact hsum
      · rw [List.filter_cons_of_pos (by simpa using hd),
          List.filter_cons_of_pos (by simp [hne, hd]), List.map_cons, List.map_cons, List.sum_cons,
          List.sum_cons, hsum, Nat.add_assoc]

theorem held_pay {l : Ledger κ ρ} (h : l.Sound) {k : κ} {n : Nat} (hn : (k, n) ∈ l.deposits)
    (hk : k ∉ l.paidKeys) (note : ρ) : l.held = (l.pay k n note).held + n :=
  filter_sum_pay h.keys_nodup hn hk

theorem held_deposit {l : Ledger κ ρ} (h : l.Sound) {k : κ} (hk : k ∉ l.keys) (n : Nat) :
    (l.deposit k n).held = l.held + n := by
  have hunpaid : k ∉ l.paidKeys := by
    intro hpaid
    obtain ⟨p, hp, rfl⟩ := List.mem_map.mp hpaid
    exact hk (mem_keys_of_mem (h.paid_deposit p hp))
  show (((((k, n) :: l.deposits).filter fun d => d.1 ∉ l.paidKeys)).map Prod.snd).sum = _
  rw [List.filter_cons_of_pos (by simpa using hunpaid), List.map_cons, List.sum_cons, Nat.add_comm]
  rfl

/-- **A deposit that is not paid is in escrow.** -/
theorem amount_le_held {l : Ledger κ ρ} {k : κ} {n : Nat} (hn : (k, n) ∈ l.deposits)
    (hk : k ∉ l.paidKeys) : n ≤ l.held := by
  have hmem : (k, n) ∈ l.unpaid := List.mem_filter.mpr ⟨hn, by simpa using hk⟩
  exact List.single_le_sum (by simp) _ (List.mem_map.mpr ⟨(k, n), hmem, rfl⟩)

/-- What is held and what was paid is what was deposited. -/
def Balanced (l : Ledger κ ρ) : Prop := l.held + l.paidOut = l.deposited

theorem balanced_empty : (empty : Ledger κ ρ).Balanced := rfl

theorem Balanced.deposit {l : Ledger κ ρ} (hb : l.Balanced) (h : l.Sound) {k : κ} (hk : k ∉ l.keys)
    (n : Nat) : (l.deposit k n).Balanced := by
  have hheld := held_deposit h hk n
  have hsum : (l.deposit k n).deposited = n + l.deposited := List.sum_cons
  have hpaid : (l.deposit k n).paidOut = l.paidOut := rfl
  unfold Balanced at hb ⊢
  omega

theorem Balanced.pay {l : Ledger κ ρ} (hb : l.Balanced) (h : l.Sound) {k : κ} {n : Nat}
    (hn : (k, n) ∈ l.deposits) (hk : k ∉ l.paidKeys) (note : ρ) : (l.pay k n note).Balanced := by
  have hheld := held_pay h hn hk note
  have hsum : (l.pay k n note).paidOut = n + l.paidOut := List.sum_cons
  have hdeposited : (l.pay k n note).deposited = l.deposited := rfl
  unfold Balanced at hb ⊢
  omega

end

end Ledger

end TinyEvm.Lib.Escrow
