import TinyEvm.Lib.Escrow
import TinyEvm.Contract.Solidity
import Mathlib.Logic.Relation

/-!
# `HashedTimelock`

The contract of `HashLock.sol`: a sender locks ether for a receiver under a hash
and a time; before the time the receiver takes it with a preimage of the hash,
from the time on the sender takes it back.

`withdraw` and `refund` hand control to the payee in the middle, at `transfer`.
They are cut there (`withdrawBegin`, `refundBegin`), and `Calls` lets the payee
make any calls before the rest runs, which is more than the gas of a `transfer`
pays for. `Reachable` is every history of such calls in blocks whose time does
not go back, with ether forced upon the contract at any point. A call that
reverts changes nothing and is no step.

That a lock is not paid twice rests on the flags for two calls of one kind, but
on the time for `withdraw` after `refund`: `withdrawable` does not look at
`refunded`. `Inv` therefore carries `timelock ≤ now` for refunded locks, and
survives because time is monotone.

`sha256` is the precompiled contract, a parameter; nothing is assumed of it. What
the ledger records is a ghost: no function of the contract reads it.
-/

namespace TinyEvm.HashedTimelock

open Lib.Escrow Solidity

structure LockContract where
  sender : Address
  receiver : Address
  amount : Uint
  hashlock : Bytes32
  timelock : Uint
  withdrawn : Bool
  refunded : Bool
  preimage : Bytes32
deriving DecidableEq

/-- What a mapping holds before it is written. -/
def LockContract.zero : LockContract := ⟨0, 0, 0, 0, 0, false, false, 0⟩

inductive Event where
  | logHTLCNew (contractId : Bytes32) (sender receiver : Address) (amount : Uint) (hashlock : Bytes32)
      (timelock : Uint)
  | logHTLCWithdraw (contractId : Bytes32)
  | logHTLCRefund (contractId : Bytes32)
deriving DecidableEq

/-- Who was paid, and when. -/
structure Receipt where
  payee : Address
  time : Uint
deriving DecidableEq

structure State where
  contracts : Bytes32 → LockContract
  balance : Nat
  /-- Newest first. -/
  events : List Event
  ledger : Ledger Bytes32 Receipt

def State.initial : State := ⟨fun _ => .zero, 0, [], .empty⟩

def State.setContract (s : State) (id : Bytes32) (c : LockContract) : State :=
  { s with contracts := fun k => if k = id then c else s.contracts k }

def State.emit (s : State) (e : Event) : State := { s with events := e :: s.events }

def haveContract (s : State) (contractId : Bytes32) : Bool := (s.contracts contractId).sender ≠ 0

section

variable (sha256 : List UInt8 → Bytes32)

def newContract (msg : Msg) (receiver : Address) (hashlock : Bytes32) (timelock : Uint) (s : State) :
    Except String (State × Bytes32) := do
  require (msg.value > 0) "msg.value must be > 0"
  require (timelock > msg.now) "timelock time must be in the future"
  let contractId := sha256 (encodePacked 20 msg.sender.toNat ++ encodePacked 20 receiver.toNat ++
    encodePacked 32 msg.value.toNat ++ encodePacked 32 hashlock.toNat ++ encodePacked 32 timelock.toNat)
  require (haveContract s contractId = false) "Contract already exists"
  let s := s.setContract contractId ⟨msg.sender, receiver, msg.value, hashlock, timelock, false, false, 0⟩
  let s := { s with
    balance := s.balance + msg.value.toNat, ledger := s.ledger.deposit contractId msg.value.toNat }
  return (s.emit (.logHTLCNew contractId msg.sender receiver msg.value hashlock timelock), contractId)

/-- `payee.transfer(c.amount)`, up to the code of the payee. -/
def transfer (id : Bytes32) (payee : Address) (amount now : Uint) (s : State) : Except String State := do
  require (amount.toNat ≤ s.balance) ""
  return { s with
    balance := s.balance - amount.toNat, ledger := s.ledger.pay id amount.toNat ⟨payee, now⟩ }

/-- `withdraw` up to the code of the receiver. It is not payable. -/
def withdrawBegin (msg : Msg) (contractId preimage : Bytes32) (s : State) : Except String State := do
  require (msg.value = 0) ""
  require (haveContract s contractId = true) "contractId does not exist"
  let c := s.contracts contractId
  require (c.hashlock = sha256 (encodePacked 32 preimage.toNat)) "hashlock hash does not match"
  require (c.receiver = msg.sender) "withdrawable: not receiver"
  require (c.withdrawn = false) "withdrawable: already withdrawn"
  require (c.timelock > msg.now) "withdrawable: timelock time must be in the future"
  transfer contractId c.receiver c.amount msg.now
    (s.setContract contractId { c with preimage := preimage, withdrawn := true })

/-- `refund` up to the code of the sender. -/
def refundBegin (msg : Msg) (contractId : Bytes32) (s : State) : Except String State := do
  require (msg.value = 0) ""
  require (haveContract s contractId = true) "contractId does not exist"
  let c := s.contracts contractId
  require (c.sender = msg.sender) "refundable: not sender"
  require (c.refunded = false) "refundable: already refunded"
  require (c.withdrawn = false) "refundable: already withdrawn"
  require (c.timelock ≤ msg.now) "refundable: timelock not yet passed"
  transfer contractId c.sender c.amount msg.now (s.setContract contractId { c with refunded := true })

/-- The parameters of a lock, zero where there is none. -/
def getContract (s : State) (contractId : Bytes32) : LockContract :=
  if haveContract s contractId = false then .zero else s.contracts contractId

/-- Calls made one after the other, and within each other, at one time. The zero
address sends nothing. -/
inductive Calls (now : Uint) : State → State → Prop
  | done (s : State) : Calls now s s
  | newContract {s s' s'' : State} {msg : Msg} {receiver : Address} {hashlock : Bytes32}
      {timelock : Uint} {id : Bytes32} : msg.now = now → msg.sender ≠ 0 →
      newContract sha256 msg receiver hashlock timelock s = .ok (s', id) → Calls now s' s'' →
      Calls now s s''
  | withdraw {s s₁ s₂ s' : State} {msg : Msg} {id preimage : Bytes32} : msg.now = now →
      withdrawBegin sha256 msg id preimage s = .ok s₁ → Calls now s₁ s₂ →
      Calls now (s₂.emit (.logHTLCWithdraw id)) s' → Calls now s s'
  | refund {s s₁ s₂ s' : State} {msg : Msg} {id : Bytes32} : msg.now = now →
      refundBegin msg id s = .ok s₁ → Calls now s₁ s₂ →
      Calls now (s₂.emit (.logHTLCRefund id)) s' → Calls now s s'
  /-- Ether that comes without a call: a block reward, a `selfdestruct`. -/
  | forced {s s' : State} (n : Nat) : Calls now { s with balance := s.balance + n } s' → Calls now s s'

/-- The next block: the time does not go back. -/
def Block (p q : Uint × State) : Prop := p.1 ≤ q.1 ∧ Calls sha256 q.1 p.2 q.2

/-- The states of the contract at the times they are reached. -/
def Reachable (now : Uint) (s : State) : Prop :=
  ∃ start, Relation.ReflTransGen (Block sha256) (start, .initial) (now, s)

end

/-! ## What a call does -/

/-- The state behind a payment. -/
def State.paid (s : State) (id : Bytes32) (payee : Address) (amount now : Uint) : State :=
  { s with balance := s.balance - amount.toNat, ledger := s.ledger.pay id amount.toNat ⟨payee, now⟩ }

section

variable {sha256 : List UInt8 → Bytes32} {msg : Msg} {id preimage : Bytes32} {s s' : State}

/-- **`withdraw` goes through** for the receiver, with a preimage, before the time. -/
theorem withdrawBegin_ok_iff : withdrawBegin sha256 msg id preimage s = .ok s' ↔
    msg.value = 0 ∧ haveContract s id = true ∧
    (s.contracts id).hashlock = sha256 (encodePacked 32 preimage.toNat) ∧
    (s.contracts id).receiver = msg.sender ∧ (s.contracts id).withdrawn = false ∧
    msg.now < (s.contracts id).timelock ∧ (s.contracts id).amount.toNat ≤ s.balance ∧
    s' = (s.setContract id { s.contracts id with preimage := preimage, withdrawn := true }).paid id
      (s.contracts id).receiver (s.contracts id).amount msg.now := by
  unfold withdrawBegin transfer
  simp only [require_bind_ok]
  simp only [pure, Except.pure, Except.ok.injEq, State.setContract, State.paid, gt_iff_lt, eq_comm]

/-- **`refund` goes through** for the sender, from the time on. -/
theorem refundBegin_ok_iff : refundBegin msg id s = .ok s' ↔
    msg.value = 0 ∧ haveContract s id = true ∧ (s.contracts id).sender = msg.sender ∧
    (s.contracts id).refunded = false ∧ (s.contracts id).withdrawn = false ∧
    (s.contracts id).timelock ≤ msg.now ∧ (s.contracts id).amount.toNat ≤ s.balance ∧
    s' = (s.setContract id { s.contracts id with refunded := true }).paid id
      (s.contracts id).sender (s.contracts id).amount msg.now := by
  unfold refundBegin transfer
  simp only [require_bind_ok]
  simp only [pure, Except.pure, Except.ok.injEq, State.setContract, State.paid, eq_comm]

theorem newContract_ok {receiver : Address} {hashlock : Bytes32} {timelock : Uint}
    (h : newContract sha256 msg receiver hashlock timelock s = .ok (s', id)) :
    msg.now < timelock ∧ haveContract s id = false ∧
    ∃ c, c.sender = msg.sender ∧ c.amount = msg.value ∧ c.withdrawn = false ∧ c.refunded = false ∧
      s'.contracts = (s.setContract id c).contracts ∧ s'.balance = s.balance + msg.value.toNat ∧
      s'.ledger = s.ledger.deposit id msg.value.toNat := by
  unfold newContract at h
  simp only [require_bind_ok] at h
  obtain ⟨-, htime, hnew, hs⟩ := h
  cases hs
  exact ⟨htime, hnew, _, rfl, rfl, rfl, rfl, rfl, rfl, rfl⟩

end

/-! ## The invariant -/

/-- One lock against the ledger at the time `now`. -/
structure RecordOk (sha256 : List UInt8 → Bytes32) (now : Uint) (l : Ledger Bytes32 Receipt)
    (id : Bytes32) (c : LockContract) : Prop where
  created : c.sender ≠ 0 ↔ id ∈ l.keys
  amount : c.sender ≠ 0 → (id, c.amount.toNat) ∈ l.deposits
  paid : (c.withdrawn = true ∨ c.refunded = true) ↔ id ∈ l.paidKeys
  withdrawn : c.withdrawn = true → c.refunded = false ∧
    c.hashlock = sha256 (encodePacked 32 c.preimage.toNat) ∧
    ∃ time, (id, c.amount.toNat, ⟨c.receiver, time⟩) ∈ l.payments ∧ time < c.timelock
  refunded : c.refunded = true → c.timelock ≤ now ∧
    ∃ time, (id, c.amount.toNat, ⟨c.sender, time⟩) ∈ l.payments ∧ c.timelock ≤ time

structure Inv (sha256 : List UInt8 → Bytes32) (now : Uint) (s : State) : Prop where
  sound : s.ledger.Sound
  balanced : s.ledger.Balanced
  solvent : s.ledger.held ≤ s.balance
  record : ∀ id, RecordOk sha256 now s.ledger id (s.contracts id)

/-- The terms of a lock, which nothing changes, and its flags, which nothing takes back. -/
structure Kept (c c' : LockContract) : Prop where
  terms : c.sender = c'.sender ∧ c.receiver = c'.receiver ∧ c.amount = c'.amount ∧
    c.hashlock = c'.hashlock ∧ c.timelock = c'.timelock
  withdrawn : c.withdrawn = true → c'.withdrawn = true
  refunded : c.refunded = true → c'.refunded = true

theorem Kept.refl (c : LockContract) : Kept c c := ⟨⟨rfl, rfl, rfl, rfl, rfl⟩, id, id⟩

theorem Kept.trans {c c' c'' : LockContract} (h : Kept c c') (h' : Kept c' c'') : Kept c c'' := by
  obtain ⟨⟨h1, h2, h3, h4, h5⟩, hw, hr⟩ := h
  obtain ⟨⟨h1', h2', h3', h4', h5'⟩, hw', hr'⟩ := h'
  exact ⟨⟨h1.trans h1', h2.trans h2', h3.trans h3', h4.trans h4', h5.trans h5'⟩, hw' ∘ hw, hr' ∘ hr⟩

section

variable {sha256 : List UInt8 → Bytes32} {now now' : Uint} {l : Ledger Bytes32 Receipt}
  {id k : Bytes32} {c : LockContract} {s s' : State}

/-! ### Records of other locks -/

theorem RecordOk.mono (h : RecordOk sha256 now l id c) (hle : now ≤ now') :
    RecordOk sha256 now' l id c :=
  { h with refunded := fun hr => ⟨BitVec.le_trans (h.refunded hr).1 hle, (h.refunded hr).2⟩ }

theorem RecordOk.deposit (h : RecordOk sha256 now l id c) (hne : id ≠ k) (n : Nat) :
    RecordOk sha256 now (l.deposit k n) id c where
  created := h.created.trans (by simp [Ledger.keys, Ledger.deposit, hne])
  amount := fun hs => List.mem_cons_of_mem _ (h.amount hs)
  paid := h.paid
  withdrawn := h.withdrawn
  refunded := h.refunded

theorem RecordOk.pay (h : RecordOk sha256 now l id c) (hne : id ≠ k) (n : Nat) (r : Receipt) :
    RecordOk sha256 now (l.pay k n r) id c where
  created := h.created
  amount := h.amount
  paid := h.paid.trans (by simp [Ledger.paidKeys, Ledger.pay, hne])
  withdrawn := by
    intro hw
    obtain ⟨hr, hhash, time, hmem, hlt⟩ := h.withdrawn hw
    exact ⟨hr, hhash, time, List.mem_cons_of_mem _ hmem, hlt⟩
  refunded := by
    intro hr
    obtain ⟨hle, time, hmem, htime⟩ := h.refunded hr
    exact ⟨hle, time, List.mem_cons_of_mem _ hmem, htime⟩

/-! ### Steps -/

theorem Inv.mono (h : Inv sha256 now s) (hle : now ≤ now') : Inv sha256 now' s :=
  { h with record := fun id => (h.record id).mono hle }

theorem Inv.emit (h : Inv sha256 now s) (e : Event) : Inv sha256 now (s.emit e) :=
  ⟨h.sound, h.balanced, h.solvent, h.record⟩

theorem Inv.forced (h : Inv sha256 now s) (n : Nat) :
    Inv sha256 now { s with balance := s.balance + n } :=
  ⟨h.sound, h.balanced, Nat.le_add_right_of_le h.solvent, h.record⟩

theorem haveContract_iff : haveContract s id = true ↔ (s.contracts id).sender ≠ 0 := by
  unfold haveContract
  exact decide_eq_true_iff

/-- A lock that is neither withdrawn nor refunded is not paid. -/
theorem Inv.unpaid (h : Inv sha256 now s) (hw : (s.contracts id).withdrawn = false)
    (hr : (s.contracts id).refunded = false) : id ∉ s.ledger.paidKeys := by
  rw [← (h.record id).paid, hw, hr]
  simp

/-- The payment of a lock that is not paid yet, with one of its flags set. -/
theorem Inv.pay (h : Inv sha256 now s) {c : LockContract} {payee : Address}
    (hhave : haveContract s id = true) (hunpaid : id ∉ s.ledger.paidKeys)
    (hamount : c.amount = (s.contracts id).amount)
    (hrecord : RecordOk sha256 now (s.ledger.pay id c.amount.toNat ⟨payee, now⟩) id c) :
    Inv sha256 now ((s.setContract id c).paid id payee c.amount now) := by
  have hmem : (id, c.amount.toNat) ∈ s.ledger.deposits := by
    rw [hamount]
    exact (h.record id).amount (haveContract_iff.mp hhave)
  refine ⟨h.sound.pay hunpaid hmem _, h.balanced.pay h.sound hmem hunpaid _, ?_, ?_⟩
  · have hheld := Ledger.held_pay h.sound hmem hunpaid ⟨payee, now⟩
    have hsolvent := h.solvent
    show (s.ledger.pay id c.amount.toNat ⟨payee, now⟩).held ≤ s.balance - c.amount.toNat
    omega
  · intro k
    show RecordOk sha256 now _ k (if k = id then c else s.contracts k)
    by_cases hk : k = id
    · subst hk
      rw [if_pos rfl]
      exact hrecord
    · rw [if_neg hk]
      exact (h.record k).pay hk _ _

theorem Inv.withdrawBegin {msg : Msg} {preimage : Bytes32} (h : Inv sha256 now s) (hnow : msg.now = now)
    (hrun : withdrawBegin sha256 msg id preimage s = .ok s') : Inv sha256 now s' := by
  subst hnow
  obtain ⟨-, hhave, hhash, -, hw, hlt, -, rfl⟩ := withdrawBegin_ok_iff.mp hrun
  have hold := h.record id
  -- a refunded lock has its time behind it
  have hr : (s.contracts id).refunded = false := by
    by_contra hne
    have hle := (hold.refunded (by simpa using hne)).1
    exact absurd hlt (BitVec.not_lt.mpr hle)
  refine h.pay (c := { s.contracts id with preimage := preimage, withdrawn := true }) hhave
    (h.unpaid hw hr) rfl ⟨hold.created, hold.amount, ?_, ?_, ?_⟩
  · exact iff_of_true (Or.inl rfl) List.mem_cons_self
  · exact fun _ => ⟨hr, hhash, msg.now, List.mem_cons_self, hlt⟩
  · intro htrue
    exact absurd (hr.symm.trans htrue) (by decide)

theorem Inv.refundBegin {msg : Msg} (h : Inv sha256 now s) (hnow : msg.now = now)
    (hrun : refundBegin msg id s = .ok s') : Inv sha256 now s' := by
  subst hnow
  obtain ⟨-, hhave, -, hr, hw, hle, -, rfl⟩ := refundBegin_ok_iff.mp hrun
  have hold := h.record id
  refine h.pay (c := { s.contracts id with refunded := true }) hhave (h.unpaid hw hr) rfl
    ⟨hold.created, hold.amount, ?_, ?_, ?_⟩
  · exact iff_of_true (Or.inr rfl) List.mem_cons_self
  · intro htrue
    exact absurd (hw.symm.trans htrue) (by decide)
  · exact fun _ => ⟨hle, msg.now, List.mem_cons_self, hle⟩

theorem Inv.newContract {msg : Msg} {receiver : Address} {hashlock : Bytes32} {timelock : Uint}
    (h : Inv sha256 now s) (hsender : msg.sender ≠ 0)
    (hrun : newContract sha256 msg receiver hashlock timelock s = .ok (s', id)) :
    Inv sha256 now s' := by
  obtain ⟨-, hnew, c, hs, hv, hw, hr, hcontracts, hbalance, hledger⟩ := newContract_ok hrun
  have hkey : id ∉ s.ledger.keys := by
    rw [← (h.record id).created, ← haveContract_iff, hnew]
    decide
  have hunpaid : id ∉ s.ledger.paidKeys := by
    intro hpaid
    obtain ⟨p, hp, rfl⟩ := List.mem_map.mp hpaid
    exact hkey (Ledger.mem_keys_of_mem (h.sound.paid_deposit p hp))
  refine ⟨?_, ?_, ?_, ?_⟩
  · rw [hledger]
    exact h.sound.deposit hkey _
  · rw [hledger]
    exact h.balanced.deposit h.sound hkey _
  · rw [hledger, hbalance, Ledger.held_deposit h.sound hkey]
    exact Nat.add_le_add_right h.solvent _
  · intro k
    rw [hledger, hcontracts]
    show RecordOk sha256 now _ k (if k = id then c else s.contracts k)
    by_cases hk : k = id
    · subst hk
      rw [if_pos rfl]
      refine ⟨?_, ?_, ?_, ?_, ?_⟩
      · exact iff_of_true (by rw [hs]; exact hsender) List.mem_cons_self
      · intro _
        rw [hv]
        exact List.mem_cons_self
      · rw [hw, hr]
        exact iff_of_false (by decide) hunpaid
      · intro htrue
        exact absurd (hw.symm.trans htrue) (by decide)
      · intro htrue
        exact absurd (hr.symm.trans htrue) (by decide)
    · rw [if_neg hk]
      exact (h.record k).deposit hk _

/-! ### Runs -/

theorem Inv.calls (h : Inv sha256 now s) (hcalls : Calls sha256 now s s') : Inv sha256 now s' := by
  induction hcalls with
  | done s => exact h
  | newContract _ hsender hrun _ ih => exact ih (h.newContract hsender hrun)
  | withdraw hnow hrun _ _ ihInner ihRest => exact ihRest ((ihInner (h.withdrawBegin hnow hrun)).emit _)
  | refund hnow hrun _ _ ihInner ihRest => exact ihRest ((ihInner (h.refundBegin hnow hrun)).emit _)
  | forced n _ ih => exact ih (h.forced n)

theorem inv_initial : Inv sha256 now .initial where
  sound := Ledger.sound_empty
  balanced := Ledger.balanced_empty
  solvent := Nat.le_refl 0
  record := fun _ => ⟨iff_of_false (fun h => h rfl) (List.not_mem_nil), fun h => absurd rfl h,
    iff_of_false (by simp [State.initial, LockContract.zero]) List.not_mem_nil,
    fun h => (nomatch h), fun h => (nomatch h)⟩

theorem inv_later {p q : Uint × State} (h : Inv sha256 p.1 p.2)
    (hlater : Relation.ReflTransGen (Block sha256) p q) : Inv sha256 q.1 q.2 := by
  induction hlater with
  | refl => exact h
  | tail _ hblock ih => exact (ih.mono hblock.1).calls hblock.2

theorem Reachable.inv (h : Reachable sha256 now s) : Inv sha256 now s := by
  obtain ⟨start, hrun⟩ := h
  exact inv_later (p := (start, .initial)) inv_initial hrun

theorem Kept.have (h : Kept (s.contracts id) (s'.contracts id)) (hhave : haveContract s id = true) :
    haveContract s' id = true := by
  rw [haveContract_iff] at hhave ⊢
  rw [← h.terms.1]
  exact hhave

/-- A record that is written keeps the terms it has. -/
theorem kept_setContract {c : LockContract} (hc : k = id → Kept (s.contracts k) c) :
    Kept (s.contracts id) ((s.setContract k c).contracts id) := by
  show Kept _ (if id = k then c else s.contracts id)
  by_cases hk : id = k
  · subst hk
    rw [if_pos rfl]
    exact hc rfl
  · rw [if_neg hk]
    exact Kept.refl _

theorem Calls.kept (hcalls : Calls sha256 now s s') (hhave : haveContract s id = true) :
    Kept (s.contracts id) (s'.contracts id) := by
  induction hcalls with
  | done s => exact Kept.refl _
  | @newContract s s₁ s' msg receiver hashlock timelock k _ _ hrun _ ih =>
    obtain ⟨-, hnew, c, -, -, -, -, hcontracts, -, -⟩ := newContract_ok hrun
    have hfirst : Kept (s.contracts id) (s₁.contracts id) := by
      rw [hcontracts]
      refine kept_setContract ?_
      rintro rfl
      rw [hnew] at hhave
      cases hhave
    exact hfirst.trans (ih (hfirst.have hhave))
  | @withdraw s s₁ s₂ s' msg k preimage _ hrun _ _ ihInner ihRest =>
    obtain ⟨-, -, -, -, -, -, -, rfl⟩ := withdrawBegin_ok_iff.mp hrun
    have hfirst : Kept (s.contracts id) ((s.setContract k
        { s.contracts k with preimage := preimage, withdrawn := true }).contracts id) :=
      kept_setContract fun _ => ⟨⟨rfl, rfl, rfl, rfl, rfl⟩, fun _ => rfl, fun h => h⟩
    have hinner := hfirst.trans (ihInner (hfirst.have hhave))
    exact hinner.trans (ihRest (hinner.have hhave))
  | @refund s s₁ s₂ s' msg k _ hrun _ _ ihInner ihRest =>
    obtain ⟨-, -, -, -, -, -, -, rfl⟩ := refundBegin_ok_iff.mp hrun
    have hfirst : Kept (s.contracts id) ((s.setContract k
        { s.contracts k with refunded := true }).contracts id) :=
      kept_setContract fun _ => ⟨⟨rfl, rfl, rfl, rfl, rfl⟩, fun h => h, fun _ => rfl⟩
    have hinner := hfirst.trans (ihInner (hfirst.have hhave))
    exact hinner.trans (ihRest (hinner.have hhave))
  | forced n _ ih => exact ih hhave

theorem kept_later {p q : Uint × State} (hlater : Relation.ReflTransGen (Block sha256) p q)
    (hhave : haveContract p.2 id = true) : Kept (p.2.contracts id) (q.2.contracts id) := by
  induction hlater with
  | refl => exact Kept.refl _
  | tail _ hblock ih => exact ih.trans (hblock.2.kept (ih.have hhave))

end

/-! ## The results -/

/-- **Nothing is lost and nothing is paid twice.** In every history, calls from
within a payment included, the contract holds what is locked; what was locked and
what was paid add up; a lock is paid at most once, in full: to the receiver
before its time against a preimage, or to the sender from its time on. -/
theorem htlc_safe {sha256 : List UInt8 → Bytes32} {now : Uint} {s : State}
    (h : Reachable sha256 now s) :
    s.ledger.held ≤ s.balance ∧ s.ledger.held + s.ledger.paidOut = s.ledger.deposited ∧
    s.ledger.paidKeys.Nodup ∧
    ∀ id, haveContract s id = true →
      (id, (s.contracts id).amount.toNat) ∈ s.ledger.deposits ∧
      (((s.contracts id).withdrawn = true ∨ (s.contracts id).refunded = true) ↔
        id ∈ s.ledger.paidKeys) ∧
      ¬((s.contracts id).withdrawn = true ∧ (s.contracts id).refunded = true) ∧
      ((s.contracts id).withdrawn = true →
        (s.contracts id).hashlock = sha256 (encodePacked 32 (s.contracts id).preimage.toNat) ∧
        ∃ time, (id, (s.contracts id).amount.toNat, ⟨(s.contracts id).receiver, time⟩) ∈ s.ledger.payments ∧
          time < (s.contracts id).timelock) ∧
      ((s.contracts id).refunded = true →
        ∃ time, (id, (s.contracts id).amount.toNat, ⟨(s.contracts id).sender, time⟩) ∈ s.ledger.payments ∧
          (s.contracts id).timelock ≤ time) := by
  have hinv := h.inv
  refine ⟨hinv.solvent, hinv.balanced, hinv.sound.paid_nodup, ?_⟩
  intro id hhave
  have hrecord := hinv.record id
  refine ⟨hrecord.amount (haveContract_iff.mp hhave), hrecord.paid, ?_,
    fun hw => (hrecord.withdrawn hw).2, fun hr => (hrecord.refunded hr).2⟩
  rintro ⟨hw, hr⟩
  rw [(hrecord.withdrawn hw).1] at hr
  cases hr

def lockFiveId : Bytes32 :=
  sumHash (encodePacked 20 1 ++ encodePacked 20 2 ++ encodePacked 32 5 ++
    encodePacked 32 (sumHash (encodePacked 32 7)).toNat ++ encodePacked 32 10)

/-- Five wei from the sender 1 for the receiver 2, under the hash of 7, until time 10. -/
def lockedFive : State where
  contracts := fun k => if k = lockFiveId
    then ⟨1, 2, 5, sumHash (encodePacked 32 7), 10, false, false, 0⟩ else .zero
  balance := 5
  events := [.logHTLCNew lockFiveId 1 2 5 (sumHash (encodePacked 32 7)) 10]
  ledger := Ledger.empty.deposit lockFiveId 5

theorem lockFive_block : Block sumHash (1, .initial) (1, lockedFive) := by
  have hrun : newContract sumHash ⟨1, 5, 1⟩ 2 (sumHash (encodePacked 32 7)) 10 .initial
      = .ok (lockedFive, lockFiveId) := rfl
  exact ⟨BitVec.le_refl _, .newContract rfl (by decide) hrun (.done _)⟩

/-- The receiver has withdrawn them at time 4 with 7. -/
def withdrawnFive : State :=
  ((lockedFive.setContract lockFiveId ⟨1, 2, 5, sumHash (encodePacked 32 7), 10, true, false, 7⟩).paid
    lockFiveId 2 5 4).emit (.logHTLCWithdraw lockFiveId)

theorem lockedFive_contract : lockedFive.contracts lockFiveId
    = ⟨1, 2, 5, sumHash (encodePacked 32 7), 10, false, false, 0⟩ := by
  simp only [lockedFive, if_true]

theorem lockedFive_have : haveContract lockedFive lockFiveId = true := by
  rw [haveContract_iff, lockedFive_contract]
  decide

theorem withdrawFive_block : Block sumHash (1, lockedFive) (4, withdrawnFive) := by
  have hrun : withdrawBegin sumHash ⟨2, 0, 4⟩ lockFiveId 7 lockedFive
      = .ok ((lockedFive.setContract lockFiveId
        ⟨1, 2, 5, sumHash (encodePacked 32 7), 10, true, false, 7⟩).paid lockFiveId 2 5 4) := by
    rw [withdrawBegin_ok_iff, lockedFive_contract]
    exact ⟨rfl, lockedFive_have, rfl, rfl, rfl, by decide, by decide, rfl⟩
  exact ⟨by decide, .withdraw rfl hrun (.done _) (.done _)⟩

/-- The five wei are paid once, to the receiver, before the time. -/
theorem htlc_safe_withdrawn :
    withdrawnFive.ledger.held ≤ withdrawnFive.balance ∧
    withdrawnFive.ledger.held + withdrawnFive.ledger.paidOut = withdrawnFive.ledger.deposited ∧
    withdrawnFive.ledger.paidKeys.Nodup ∧ lockFiveId ∈ withdrawnFive.ledger.paidKeys ∧
    ∃ time, (lockFiveId, 5, ⟨2, time⟩) ∈ withdrawnFive.ledger.payments ∧ time < (10 : Uint) := by
  have hcontract : withdrawnFive.contracts lockFiveId
      = ⟨1, 2, 5, sumHash (encodePacked 32 7), 10, true, false, 7⟩ := by
    simp only [withdrawnFive, State.emit, State.paid, State.setContract, if_true]
  have hhave : haveContract withdrawnFive lockFiveId = true := by
    rw [haveContract_iff, hcontract]
    decide
  have hreach : Reachable sumHash 4 withdrawnFive :=
    ⟨1, .tail (.single lockFive_block) withdrawFive_block⟩
  obtain ⟨hsolvent, hbalanced, honce, hlocks⟩ := htlc_safe hreach
  obtain ⟨-, hpaid, -, hwithdrawn, -⟩ := hlocks lockFiveId hhave
  rw [hcontract] at hpaid hwithdrawn
  exact ⟨hsolvent, hbalanced, honce, hpaid.mp (Or.inl rfl), (hwithdrawn rfl).2⟩

/-- **A lock can always be claimed, and by one party only.** Its terms stay as they
were set. While it is not paid, the receiver gets it before its time with any
preimage and the sender from its time on: the ether is there whatever happened to
other locks. No call of anyone else, or at another time, goes through. -/
theorem htlc_claimable {sha256 : List UInt8 → Bytes32} {now now' : Uint} {s s' : State}
    {id : Bytes32} (h : Reachable sha256 now s) (hhave : haveContract s id = true)
    (hlater : Relation.ReflTransGen (Block sha256) (now, s) (now', s')) :
    Kept (s.contracts id) (s'.contracts id) ∧
    ((s'.contracts id).withdrawn = false → (s'.contracts id).refunded = false →
      (now' < (s.contracts id).timelock → ∀ x,
        (s.contracts id).hashlock = sha256 (encodePacked 32 x.toNat) →
        ∃ s'', withdrawBegin sha256 ⟨(s.contracts id).receiver, 0, now'⟩ id x s' = .ok s'') ∧
      ((s.contracts id).timelock ≤ now' →
        ∃ s'', refundBegin ⟨(s.contracts id).sender, 0, now'⟩ id s' = .ok s'')) ∧
    (∀ msg x s'', now' ≤ msg.now → withdrawBegin sha256 msg id x s' = .ok s'' →
      msg.sender = (s.contracts id).receiver ∧ msg.now < (s.contracts id).timelock ∧
        (s.contracts id).hashlock = sha256 (encodePacked 32 x.toNat) ∧ id ∉ s'.ledger.paidKeys) ∧
    ∀ msg s'', refundBegin msg id s' = .ok s'' →
      msg.sender = (s.contracts id).sender ∧ (s.contracts id).timelock ≤ msg.now ∧
        id ∉ s'.ledger.paidKeys := by
  have hinv : Inv sha256 now' s' := inv_later (p := (now, s)) h.inv hlater
  have hkept : Kept (s.contracts id) (s'.contracts id) := kept_later (p := (now, s)) hlater hhave
  have hhave' : haveContract s' id = true := hkept.have hhave
  obtain ⟨hsender, hreceiver, -, hhash, htime⟩ := hkept.terms
  refine ⟨hkept, ?_, ?_, ?_⟩
  · intro hw hr
    have hfunds : (s'.contracts id).amount.toNat ≤ s'.balance :=
      Nat.le_trans (Ledger.amount_le_held ((hinv.record id).amount (haveContract_iff.mp hhave'))
        (hinv.unpaid hw hr)) hinv.solvent
    rw [hsender, hreceiver, hhash, htime]
    refine ⟨fun hlt x hx => ?_, fun hle => ?_⟩
    · exact ⟨_, withdrawBegin_ok_iff.mpr ⟨rfl, hhave', hx, rfl, hw, hlt, hfunds, rfl⟩⟩
    · exact ⟨_, refundBegin_ok_iff.mpr ⟨rfl, hhave', rfl, hr, hw, hle, hfunds, rfl⟩⟩
  · intro msg x s'' hle hrun
    obtain ⟨-, -, hx, hto, hw, hlt, -, -⟩ := withdrawBegin_ok_iff.mp hrun
    rw [hreceiver, hhash, htime]
    refine ⟨hto.symm, hlt, hx, hinv.unpaid hw ?_⟩
    by_contra hr
    have hpast := ((hinv.record id).refunded (by simpa using hr)).1
    exact absurd hlt (BitVec.not_lt.mpr (BitVec.le_trans hpast hle))
  · intro msg s'' hrun
    obtain ⟨-, -, hto, hr, hw, hle, -, -⟩ := refundBegin_ok_iff.mp hrun
    rw [hsender, htime]
    exact ⟨hto.symm, hle, hinv.unpaid hw hr⟩

theorem htlc_claimable_locked :
    ∃ s, withdrawBegin sumHash ⟨2, 0, 1⟩ lockFiveId 7 lockedFive = .ok s := by
  have hreach : Reachable sumHash 1 lockedFive := ⟨1, .single lockFive_block⟩
  have hclaim := htlc_claimable hreach lockedFive_have Relation.ReflTransGen.refl
  rw [lockedFive_contract] at hclaim
  exact (hclaim.2.1 rfl rfl).1 (by decide) 7 rfl

end TinyEvm.HashedTimelock
