import TinyEvm.Contract.Solidity
import Mathlib.Algebra.Order.Ring.Nat
import Mathlib.Logic.Relation

/-!
# `PaymentChannel`

The contract of `PaymentChannel.sol`: a sender locks ether for a recipient and
signs, off the chain, how much of it is his; the recipient closes the channel with
one of the signed amounts, or the sender gets everything back once the channel has
expired. These are the payments the interpreter is built to make.

`selfdestruct` does not end a contract at once. Until its transaction ends it can
be called again, with an empty balance (`Life.doomed`); then the account goes with
what came in since. A `World` is the chain and the two parties: `Step` takes calls
of anyone, ether forced upon the account, the ends of transactions, the passing of
time, and the sender signing whatever he likes, in any order. `transfer` leaves
the recipient too little gas to call back, so a call is one step.

`keccak256` and `ecrecover` are parameters. Of the first nothing is assumed: what
would need it to be free of collisions says so by naming the collision
(`Authorised`). Of the second `Unforged` says that a signature of the sender is
one he made. The list of `exits` and the sums beside it are ghosts, and no
function of the contract reads them. `sensor_data` and `TemplateContract` are
not used in the source and left out.
-/

namespace TinyEvm.PaymentChannel

open Solidity

/-- `doomed` from `selfdestruct` to the end of its transaction. -/
inductive Life where
  | alive
  | doomed
  | gone
deriving DecidableEq

/-- What a call paid out: the amount for the recipient and the rest for the sender. -/
inductive Exit where
  | close (amount : Uint) (rest : Nat) (time : Uint)
  | timeout (rest : Nat) (time : Uint)
deriving DecidableEq

def Exit.total : Exit → Nat
  | close amount rest _ => amount.toNat + rest
  | timeout rest _ => rest

structure State where
  sender : Address
  recipient : Address
  expiration : Uint
  balance : Nat
  life : Life
  /-- Newest first. -/
  exits : List Exit
  /-- All ether that came in, and what of it came after the first exit. -/
  received : Nat
  late : Nat
  /-- What went with the account. -/
  burnt : Nat
deriving DecidableEq

/-- Everything paid out so far. -/
def State.paidOut (s : State) : Nat := (s.exits.map Exit.total).sum

/-- `n` wei come in. -/
def State.receive (s : State) (n : Nat) : State :=
  { s with
    balance := s.balance + n, received := s.received + n,
    late := if s.life = .alive then s.late else s.late + n }

/-- `selfdestruct(sender)`, at the end of the call that `e` is about. -/
def State.selfdestruct (s : State) (e : Exit) : State :=
  { s with balance := 0, life := .doomed, exits := e :: s.exits }

/-- The constructor: `expiration` may wrap around. -/
def create (msg : Msg) (recipient : Address) (duration : Uint) : State where
  sender := msg.sender
  recipient := recipient
  expiration := msg.now + duration
  balance := msg.value.toNat
  life := .alive
  exits := []
  received := msg.value.toNat
  late := 0
  burnt := 0

def splitSignature (sig : List UInt8) : Except String (UInt8 × Bytes32 × Bytes32) := do
  require (sig.length = 65) ""
  return (sig.getD 64 0, mload sig 0, mload sig 32)

/-- What `eth_sign` puts in front of a hash. -/
def signable (hash : Bytes32) : List UInt8 :=
  "\x19Ethereum Signed Message:\n32".toList.map (fun c => UInt8.ofNat c.toNat) ++
    encodePacked 32 hash.toNat

/-- `abi.encodePacked(this, amount)`. -/
def paymentOf (this : Address) (amount : Uint) : List UInt8 :=
  encodePacked 20 this.toNat ++ encodePacked 32 amount.toNat

section

variable (keccak256 : List UInt8 → Bytes32) (ecrecover : Bytes32 → UInt8 → Bytes32 → Bytes32 → Address)
  (this : Address)

def prefixed (hash : Bytes32) : Bytes32 := keccak256 (signable hash)

/-- `v` of the signature is not looked at. -/
def recoverSigner (message : Bytes32) (sig : List UInt8) : Except String Address := do
  let (_, r, s) ← splitSignature sig
  return ecrecover message 0x1b r s

def isValidSignature (s : State) (amount : Uint) (signature : List UInt8) : Except String Bool := do
  let message := prefixed keccak256 (keccak256 (paymentOf this amount))
  let signer ← recoverSigner ecrecover message signature
  return signer = s.sender

def close (msg : Msg) (amount : Uint) (signature : List UInt8) (s : State) : Except String State := do
  let s := s.receive msg.value.toNat
  require (msg.sender = s.recipient) ""
  let valid ← isValidSignature keccak256 ecrecover this s amount signature
  require (valid = true) ""
  require (amount.toNat ≤ s.balance) ""
  return s.selfdestruct (.close amount (s.balance - amount.toNat) msg.now)

def extend (msg : Msg) (newExpiration : Uint) (s : State) : Except String State := do
  require (msg.value = 0) ""
  require (msg.sender = s.sender) ""
  require (newExpiration > s.expiration) ""
  return { s with expiration := newExpiration }

def claimTimeout (msg : Msg) (s : State) : Except String State := do
  require (msg.value = 0) ""
  require (msg.now ≥ s.expiration) ""
  return s.selfdestruct (.timeout s.balance msg.now)

/-- The end of a transaction takes a doomed account away, and its ether. -/
def State.finish (s : State) : State :=
  if s.life = .doomed then { s with life := .gone, balance := 0, burnt := s.burnt + s.balance } else s

/-- The chain at one time, the channel on it, and all the sender has signed. -/
structure World where
  now : Uint
  channel : State
  signed : List (List UInt8)

/-- If the signature is the sender's, he has signed the message it is for. -/
def Unforged (w : World) (amount : Uint) (signature : List UInt8) : Prop :=
  let message := prefixed keccak256 (keccak256 (paymentOf this amount))
  recoverSigner ecrecover message signature = .ok w.channel.sender →
    ∃ data ∈ w.signed, prefixed keccak256 (keccak256 data) = message

inductive Step (w : World) : World → Prop
  | close {msg : Msg} {amount : Uint} {signature : List UInt8} {s' : State} : msg.now = w.now →
      w.channel.life ≠ .gone → Unforged keccak256 ecrecover this w amount signature →
      close keccak256 ecrecover this msg amount signature w.channel = .ok s' →
      Step w { w with channel := s' }
  | extend {msg : Msg} {newExpiration : Uint} {s' : State} : msg.now = w.now →
      w.channel.life ≠ .gone → extend msg newExpiration w.channel = .ok s' →
      Step w { w with channel := s' }
  | claimTimeout {msg : Msg} {s' : State} : msg.now = w.now → w.channel.life ≠ .gone →
      claimTimeout msg w.channel = .ok s' → Step w { w with channel := s' }
  | forced (n : Nat) : Step w { w with channel := w.channel.receive n }
  | sign (data : List UInt8) : Step w { w with signed := data :: w.signed }
  | finish : Step w { w with channel := w.channel.finish }
  | tick {now : Uint} : w.channel.life ≠ .doomed → w.now ≤ now → Step w { w with now := now }

/-- The worlds after the channel was made by `msg`. -/
def Reachable (msg : Msg) (recipient : Address) (duration : Uint) (w : World) : Prop :=
  ∃ signed, Relation.ReflTransGen (Step keccak256 ecrecover this)
    ⟨msg.now, create msg recipient duration, signed⟩ w

/-- The sender signed this amount of this channel, or something whose hash is the same. -/
def Authorised (signed : List (List UInt8)) (amount : Uint) : Prop :=
  paymentOf this amount ∈ signed ∨ ∃ data ∈ signed, data ≠ paymentOf this amount ∧
    (keccak256 data = keccak256 (paymentOf this amount) ∨
      signable (keccak256 data) ≠ signable (keccak256 (paymentOf this amount)) ∧
      keccak256 (signable (keccak256 data)) = keccak256 (signable (keccak256 (paymentOf this amount))))

end

/-! ## What a call does -/

section

variable {keccak256 : List UInt8 → Bytes32} {ecrecover : Bytes32 → UInt8 → Bytes32 → Bytes32 → Address}
  {this : Address} {msg : Msg} {amount newExpiration : Uint} {signature : List UInt8} {s s' : State}

theorem splitSignature_ok_iff {vrs : UInt8 × Bytes32 × Bytes32} :
    splitSignature signature = .ok vrs ↔ signature.length = 65 ∧
      vrs = (signature.getD 64 0, mload signature 0, mload signature 32) := by
  unfold splitSignature
  rw [require_bind_ok, return_ok]

theorem recoverSigner_ok_iff {message : Bytes32} {signer : Address} :
    recoverSigner ecrecover message signature = .ok signer ↔ signature.length = 65 ∧
      signer = ecrecover message 0x1b (mload signature 0) (mload signature 32) := by
  unfold recoverSigner
  simp only [bind_ok, splitSignature_ok_iff, return_ok]
  constructor
  · rintro ⟨_, ⟨hlen, rfl⟩, hsigner⟩
    exact ⟨hlen, hsigner⟩
  · rintro ⟨hlen, hsigner⟩
    exact ⟨_, ⟨hlen, rfl⟩, hsigner⟩

/-- Whatever the last byte of a signature is, it recovers the same signer: the one
for `v = 27`. -/
theorem recoverSigner_last (message : Bytes32) (rs : List UInt8) (hrs : rs.length = 64) (v v' : UInt8) :
    recoverSigner ecrecover message (rs ++ [v]) = recoverSigner ecrecover message (rs ++ [v']) := by
  have hload : ∀ i, i ≤ 32 → ∀ v : UInt8, mload (rs ++ [v]) i = mload rs i := by
    intro i hi v
    unfold mload
    refine congrArg _ (Lib.BigEndian.beNat_congr fun k hk => ?_)
    simp only [List.getD_eq_getElem?_getD]
    rw [List.getElem?_append_left (by omega)]
  unfold recoverSigner splitSignature
  rw [hload 0 (by omega), hload 0 (by omega), hload 32 (by omega), hload 32 (by omega),
    List.length_append, List.length_append, hrs]
  rfl

theorem isValidSignature_ok_iff {valid : Bool} :
    isValidSignature keccak256 ecrecover this s amount signature = .ok valid ↔ ∃ signer,
      recoverSigner ecrecover (prefixed keccak256 (keccak256 (paymentOf this amount))) signature
        = .ok signer ∧ valid = decide (signer = s.sender) := by
  unfold isValidSignature
  simp only [bind_ok, return_ok]

/-- **`close` goes through** for the recipient, with a signature of the sender for
the amount, when the ether is there, what he sends along included. -/
theorem close_ok_iff : close keccak256 ecrecover this msg amount signature s = .ok s' ↔
    msg.sender = s.recipient ∧
    recoverSigner ecrecover (prefixed keccak256 (keccak256 (paymentOf this amount))) signature
      = .ok s.sender ∧
    amount.toNat ≤ s.balance + msg.value.toNat ∧
    s' = (s.receive msg.value.toNat).selfdestruct
      (.close amount (s.balance + msg.value.toNat - amount.toNat) msg.now) := by
  unfold close
  rw [require_bind_ok, bind_ok]
  simp only [isValidSignature_ok_iff, require_bind_ok, return_ok]
  constructor
  · rintro ⟨hto, _, ⟨signer, hsigner, rfl⟩, hvalid, hfunds, rfl⟩
    rw [of_decide_eq_true hvalid] at hsigner
    exact ⟨hto, hsigner, hfunds, rfl⟩
  · rintro ⟨hto, hsigner, hfunds, rfl⟩
    exact ⟨hto, true, ⟨_, hsigner, (decide_eq_true rfl).symm⟩, rfl, hfunds, rfl⟩

theorem extend_ok_iff : extend msg newExpiration s = .ok s' ↔
    msg.value = 0 ∧ msg.sender = s.sender ∧ s.expiration < newExpiration ∧
    s' = { s with expiration := newExpiration } := by
  unfold extend
  simp only [require_bind_ok, return_ok, gt_iff_lt]

theorem claimTimeout_ok_iff : claimTimeout msg s = .ok s' ↔
    msg.value = 0 ∧ s.expiration ≤ msg.now ∧
    s' = s.selfdestruct (.timeout s.balance msg.now) := by
  unfold claimTimeout
  simp only [require_bind_ok, return_ok, ge_iff_le]

/-- A channel is open to `claimTimeout` when it is made if it is made for no time,
or for so long that the sum wraps around. -/
theorem create_expired_iff (msg : Msg) (recipient : Address) (duration : Uint) :
    (create msg recipient duration).expiration ≤ msg.now ↔
      duration = 0 ∨ 2 ^ 256 ≤ msg.now.toNat + duration.toNat := by
  have hnow := msg.now.isLt
  have hduration := duration.isLt
  rw [BitVec.le_def, ← BitVec.toNat_inj]
  show (msg.now + duration).toNat ≤ msg.now.toNat ↔ duration.toNat = 0 ∨ _
  rw [BitVec.toNat_add]
  omega

end

/-! ## The invariant -/

/-- A channel made with the deposit `d` and the expiration `e₀`. -/
structure Inv (keccak256 : List UInt8 → Bytes32) (this sender recipient : Address) (e₀ : Uint) (d : Nat)
    (w : World) : Prop where
  parties : w.channel.sender = sender ∧ w.channel.recipient = recipient
  balanced : w.channel.paidOut + w.channel.balance + w.channel.burnt = w.channel.received
  extended : e₀ ≤ w.channel.expiration
  alive : w.channel.life = .alive →
    w.channel.exits = [] ∧ w.channel.late = 0 ∧ w.channel.burnt = 0 ∧ d ≤ w.channel.received
  ended : w.channel.life ≠ .alive → ∃ later first, w.channel.exits = later ++ [first] ∧
    first.total + w.channel.late = w.channel.received ∧ d ≤ first.total
  close : ∀ amount rest time, .close amount rest time ∈ w.channel.exits →
    Authorised keccak256 this w.signed amount
  timeout : ∀ rest time, .timeout rest time ∈ w.channel.exits → e₀ ≤ time ∧ time ≤ w.now

section

variable {keccak256 : List UInt8 → Bytes32} {ecrecover : Bytes32 → UInt8 → Bytes32 → Bytes32 → Address}
  {this sender recipient : Address} {e₀ : Uint} {d : Nat} {w w' : World} {s : State}

theorem Authorised.mono {signed signed' : List (List UInt8)} {amount : Uint}
    (h : Authorised keccak256 this signed amount) (hsub : signed ⊆ signed') :
    Authorised keccak256 this signed' amount :=
  h.imp (fun hmem => hsub hmem) fun ⟨data, hmem, hcollides⟩ => ⟨data, hsub hmem, hcollides⟩

/-- A signature of the sender's authorises the amount. -/
theorem authorised_of_unforged {amount : Uint} {signature : List UInt8}
    (h : Unforged keccak256 ecrecover this w amount signature)
    (hsigner : recoverSigner ecrecover (prefixed keccak256 (keccak256 (paymentOf this amount))) signature
      = .ok w.channel.sender) : Authorised keccak256 this w.signed amount := by
  obtain ⟨data, hmem, hhash⟩ := h hsigner
  by_cases hdata : data = paymentOf this amount
  · exact Or.inl (hdata ▸ hmem)
  · refine Or.inr ⟨data, hmem, hdata, ?_⟩
    by_cases htext : signable (keccak256 data) = signable (keccak256 (paymentOf this amount))
    · obtain ⟨-, hpacked⟩ := List.append_inj htext rfl
      have hbytes := encodePacked_inj (BitVec.isLt _) (BitVec.isLt _) hpacked
      exact Or.inl (BitVec.eq_of_toNat_eq hbytes)
    · exact Or.inr ⟨htext, hhash⟩

/-- Ether coming in. -/
theorem Inv.receive (h : Inv keccak256 this sender recipient e₀ d w) (n : Nat) :
    Inv keccak256 this sender recipient e₀ d { w with channel := w.channel.receive n } where
  parties := h.parties
  balanced := by
    have hbalanced := h.balanced
    show w.channel.paidOut + (w.channel.balance + n) + w.channel.burnt = w.channel.received + n
    omega
  extended := h.extended
  alive := by
    intro hlife
    change w.channel.life = .alive at hlife
    obtain ⟨hexits, hlate, hburnt, hdeposit⟩ := h.alive hlife
    exact ⟨hexits, by simp [State.receive, hlife, hlate], hburnt, Nat.le_add_right_of_le hdeposit⟩
  ended := by
    intro hlife
    change w.channel.life ≠ .alive at hlife
    obtain ⟨later, first, hexits, hsum, hdeposit⟩ := h.ended hlife
    refine ⟨later, first, hexits, ?_, hdeposit⟩
    simp only [State.receive, if_neg hlife]
    omega
  close := h.close
  timeout := h.timeout

/-- An exit of everything there is. -/
theorem Inv.selfdestruct (h : Inv keccak256 this sender recipient e₀ d w) {e : Exit} (htotal : e.total = w.channel.balance)
    (hclose : ∀ amount rest time, e = .close amount rest time → Authorised keccak256 this w.signed amount)
    (htimeout : ∀ rest time, e = .timeout rest time → e₀ ≤ time ∧ time ≤ w.now) :
    Inv keccak256 this sender recipient e₀ d { w with channel := w.channel.selfdestruct e } where
  parties := h.parties
  balanced := by
    have hbalanced := h.balanced
    have hpaid : (w.channel.selfdestruct e).paidOut = e.total + w.channel.paidOut := List.sum_cons
    show (w.channel.selfdestruct e).paidOut + 0 + w.channel.burnt = w.channel.received
    omega
  extended := h.extended
  alive := fun hdoomed => nomatch hdoomed
  ended := by
    intro _
    by_cases halive : w.channel.life = .alive
    · obtain ⟨hexits, hlate, hburnt, hdeposit⟩ := h.alive halive
      have hbalanced := h.balanced
      rw [State.paidOut, hexits, List.map_nil, List.sum_nil, hburnt] at hbalanced
      refine ⟨[], e, congrArg (e :: ·) hexits, ?_, by omega⟩
      show e.total + w.channel.late = w.channel.received
      omega
    · obtain ⟨later, first, hexits, hsum, hdeposit⟩ := h.ended halive
      exact ⟨e :: later, first, congrArg (e :: ·) hexits, hsum, hdeposit⟩
  close := by
    intro amount rest time hmem
    rcases List.mem_cons.mp hmem with heq | hmem
    · exact hclose amount rest time heq.symm
    · exact h.close amount rest time hmem
  timeout := by
    intro rest time hmem
    rcases List.mem_cons.mp hmem with heq | hmem
    · exact htimeout rest time heq.symm
    · exact h.timeout rest time hmem

/-- **Every step keeps the invariant.** -/
theorem Step.inv (hstep : Step keccak256 ecrecover this w w')
    (h : Inv keccak256 this sender recipient e₀ d w) : Inv keccak256 this sender recipient e₀ d w' := by
  cases hstep with
  | @close msg amount signature s' _ _ hunforged hrun =>
    obtain ⟨-, hsigner, hfunds, rfl⟩ := close_ok_iff.mp hrun
    refine (h.receive msg.value.toNat).selfdestruct (Nat.add_sub_cancel' hfunds) ?_
      (fun _ _ heq => nomatch heq)
    intro amount' rest time heq
    cases heq
    exact authorised_of_unforged hunforged hsigner
  | extend _ _ hrun =>
    obtain ⟨-, -, hlater, rfl⟩ := extend_ok_iff.mp hrun
    exact { h with extended := BitVec.le_trans h.extended (BitVec.le_of_lt hlater) }
  | @claimTimeout msg s' hnow _ hrun =>
    obtain ⟨-, hexpired, rfl⟩ := claimTimeout_ok_iff.mp hrun
    refine h.selfdestruct rfl (fun _ _ _ heq => nomatch heq) ?_
    intro rest time heq
    cases heq
    exact ⟨BitVec.le_trans h.extended hexpired, hnow ▸ BitVec.le_refl _⟩
  | forced n => exact h.receive n
  | sign data =>
    exact { h with
      close := fun amount rest time hmem =>
        (h.close amount rest time hmem).mono (List.subset_cons_self data _) }
  | finish =>
    by_cases hdoomed : w.channel.life = .doomed
    · have hfinish : w.channel.finish = { w.channel with
          life := .gone, balance := 0, burnt := w.channel.burnt + w.channel.balance } := if_pos hdoomed
      have hbalanced := h.balanced
      rw [hfinish]
      exact { h with
        balanced := by
          show w.channel.paidOut + 0 + (w.channel.burnt + w.channel.balance) = w.channel.received
          omega
        alive := fun halive => nomatch halive
        ended := fun _ => h.ended (by rw [hdoomed]; exact fun heq => nomatch heq) }
    · rw [show w.channel.finish = w.channel from if_neg hdoomed]
      exact h
  | tick _ hle =>
    exact { h with
      timeout := fun rest time hmem =>
        ⟨(h.timeout rest time hmem).1, BitVec.le_trans (h.timeout rest time hmem).2 hle⟩ }

theorem inv_later (hlater : Relation.ReflTransGen (Step keccak256 ecrecover this) w w')
    (h : Inv keccak256 this sender recipient e₀ d w) : Inv keccak256 this sender recipient e₀ d w' := by
  induction hlater with
  | refl => exact h
  | tail _ hstep ih => exact hstep.inv ih

theorem inv_create (msg : Msg) (recipient : Address) (duration : Uint) (signed : List (List UInt8)) :
    Inv keccak256 this msg.sender recipient (msg.now + duration) msg.value.toNat
      ⟨msg.now, create msg recipient duration, signed⟩ where
  parties := ⟨rfl, rfl⟩
  balanced := by simp [State.paidOut, create]
  extended := BitVec.le_refl _
  alive := fun _ => ⟨rfl, rfl, rfl, Nat.le_refl _⟩
  ended := fun hlife => absurd rfl hlife
  close := fun _ _ _ hmem => nomatch hmem
  timeout := fun _ _ hmem => nomatch hmem

theorem Reachable.inv {msg : Msg} {recipient : Address} {duration : Uint}
    (h : Reachable keccak256 ecrecover this msg recipient duration w) :
    Inv keccak256 this msg.sender recipient (msg.now + duration) msg.value.toNat w := by
  obtain ⟨signed, hlater⟩ := h
  exact inv_later hlater (inv_create msg recipient duration signed)

/-- While nothing is paid out, everything that came in is there. -/
theorem Inv.balance_eq (h : Inv keccak256 this sender recipient e₀ d w)
    (halive : w.channel.life = .alive) : w.channel.balance = w.channel.received := by
  obtain ⟨hexits, -, hburnt, -⟩ := h.alive halive
  have hbalanced := h.balanced
  rw [State.paidOut, hexits, List.map_nil, List.sum_nil, hburnt] at hbalanced
  omega

end

/-! ## The results -/

/-- **What the channel pays out.** In every history nothing is lost: what was paid,
what is there and what went with the account is what came in. While the channel is
alive it has paid nothing and holds its deposit. The first exit pays out all there
was, the deposit included, and later ones (in the same transaction) no more than
what came in after it. The recipient gets only amounts the sender signed for this
channel, and a timeout does not come before the expiration the channel was made with. -/
theorem channel_safe {keccak256 : List UInt8 → Bytes32}
    {ecrecover : Bytes32 → UInt8 → Bytes32 → Bytes32 → Address} {this recipient : Address} {msg : Msg}
    {duration : Uint} {w : World} (h : Reachable keccak256 ecrecover this msg recipient duration w) :
    w.channel.paidOut + w.channel.balance + w.channel.burnt = w.channel.received ∧
    (w.channel.life = .alive → w.channel.exits = [] ∧ msg.value.toNat ≤ w.channel.balance ∧
      msg.now + duration ≤ w.channel.expiration) ∧
    (w.channel.life ≠ .alive → ∃ later first, w.channel.exits = later ++ [first] ∧
      first.total + w.channel.late = w.channel.received ∧ msg.value.toNat ≤ first.total ∧
      (later.map Exit.total).sum ≤ w.channel.late) ∧
    (∀ amount rest time, .close amount rest time ∈ w.channel.exits →
      Authorised keccak256 this w.signed amount) ∧
    ∀ rest time, .timeout rest time ∈ w.channel.exits → msg.now + duration ≤ time := by
  have hinv := h.inv
  refine ⟨hinv.balanced, ?_, ?_, hinv.close, fun rest time hmem => (hinv.timeout rest time hmem).1⟩
  · intro halive
    obtain ⟨hexits, -, -, hdeposit⟩ := hinv.alive halive
    exact ⟨hexits, hinv.balance_eq halive ▸ hdeposit, hinv.extended⟩
  · intro hlife
    obtain ⟨later, first, hexits, hsum, hdeposit⟩ := hinv.ended hlife
    have hbalanced := hinv.balanced
    have hpaid : w.channel.paidOut = (later.map Exit.total).sum + first.total := by
      rw [State.paidOut, hexits, List.map_append, List.sum_append, List.map_singleton,
        List.sum_singleton]
    exact ⟨later, first, hexits, hsum, hdeposit, by omega⟩

/-- To compute with: `r` names the signer. -/
def signerOfR : Bytes32 → UInt8 → Bytes32 → Bytes32 → Address := fun _ _ r _ => r.setWidth 160

/-- The channel 7, from the sender 1 to the recipient 2: five wei for ten seconds. -/
def fiveWei : State := create ⟨1, 5, 1⟩ 2 10

/-- A signature of the sender 1. -/
def signatureOne : List UInt8 := encodePacked 32 1 ++ encodePacked 32 0 ++ [0x1c]

theorem recoverSigner_signatureOne (message : Bytes32) :
    recoverSigner signerOfR message signatureOne = .ok 1 :=
  recoverSigner_ok_iff.mpr ⟨rfl, show 1 = (mload signatureOne 0).setWidth 160 by decide⟩

/-- Three of the five wei are signed for, and the channel is closed with them. -/
theorem channel_safe_closed : Authorised sumHash 7 [paymentOf 7 3] 3 := by
  have hclose : close sumHash signerOfR 7 ⟨2, 0, 1⟩ 3 signatureOne fiveWei
      = .ok (fiveWei.selfdestruct (.close 3 2 1)) :=
    close_ok_iff.mpr ⟨rfl, recoverSigner_signatureOne _, by decide, by decide⟩
  have hsign : Step sumHash signerOfR 7 ⟨1, fiveWei, []⟩ ⟨1, fiveWei, [paymentOf 7 3]⟩ := .sign _
  have hstep : Step sumHash signerOfR 7 ⟨1, fiveWei, [paymentOf 7 3]⟩
      ⟨1, fiveWei.selfdestruct (.close 3 2 1), [paymentOf 7 3]⟩ :=
    .close rfl (by decide) (fun _ => ⟨_, List.mem_singleton_self _, rfl⟩) hclose
  have hreach : Reachable sumHash signerOfR 7 ⟨1, 5, 1⟩ 2 10
      ⟨1, fiveWei.selfdestruct (.close 3 2 1), [paymentOf 7 3]⟩ :=
    ⟨[], .tail (.single hsign) hstep⟩
  exact (channel_safe hreach).2.2.2.1 3 2 1 (List.mem_singleton_self _)

end TinyEvm.PaymentChannel
