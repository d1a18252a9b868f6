import TinyEvm.Lib.BigEndian
import Mathlib.Data.BitVec
import Mathlib.Tactic.NormNum

/-!
# What the contracts share

The types and built-ins of Solidity that more than one contract here uses.
`encodePacked` writes a number in a fixed count of bytes, most significant first;
numbers of that size can be read back, so fields packed one behind another are
told apart (`encodePacked_append_inj`).
-/

namespace TinyEvm.Solidity

open Lib.BigEndian

abbrev Address := BitVec 160
abbrev Bytes32 := BitVec 256
abbrev Uint := BitVec 256

/-- `msg.sender`, `msg.value` and `now`. -/
structure Msg where
  sender : Address
  value : Uint
  now : Uint

/-- `require(c, text)`. -/
def require (c : Prop) [Decidable c] (text : String) : Except String Unit :=
  if c then .ok () else .error text

theorem require_bind_ok {c : Prop} [Decidable c] {text : String} {α : Type} {x : Unit → Except String α}
    {a : α} : (require c text >>= x) = .ok a ↔ c ∧ x () = .ok a := by
  unfold require
  split
  next hc => exact ⟨fun h => ⟨hc, h⟩, fun h => h.2⟩
  next hc => exact ⟨fun h => (nomatch h), fun h => absurd h.1 hc⟩

theorem bind_ok {α β : Type} {x : Except String α} {f : α → Except String β} {b : β} :
    (x >>= f) = .ok b ↔ ∃ a, x = .ok a ∧ f a = .ok b := by
  cases x with
  | error text => exact ⟨fun h => (nomatch h), fun ⟨_, h, _⟩ => nomatch h⟩
  | ok a => exact ⟨fun h => ⟨a, rfl, h⟩, fun ⟨_, h, hb⟩ => by cases h; exact hb⟩

theorem return_ok {α : Type} {a b : α} : (pure a : Except String α) = .ok b ↔ b = a :=
  ⟨fun h => (Except.ok.inj h).symm, fun h => by rw [h]; rfl⟩

/-- `abi.encodePacked` of a number of `k` bytes. -/
def encodePacked (k v : Nat) : List UInt8 :=
  (List.range k).map fun i => UInt8.ofNat (v / 256 ^ (k - 1 - i))

@[simp] theorem encodePacked_length (k v : Nat) : (encodePacked k v).length = k := by
  simp [encodePacked]

theorem encodePacked_getD {k i : Nat} (v : Nat) (hi : i < k) :
    (encodePacked k v).getD i 0 = UInt8.ofNat (v / 256 ^ (k - 1 - i)) := by
  simp [encodePacked, hi]

theorem beNat_encodePacked (k v : Nat) : beNat ((encodePacked k v).getD · 0) k = v % 256 ^ k := by
  have hdigits := beNat_digits (f := ((encodePacked k v).getD · 0)) (v := v) (n := k)
    (fun i hi => by rw [encodePacked_getD v hi]; exact UInt8.toNat_ofNat') k (Nat.le_refl k)
  rw [hdigits, Nat.sub_self, Nat.pow_zero, Nat.div_one]

theorem encodePacked_inj {k v v' : Nat} (hv : v < 256 ^ k) (hv' : v' < 256 ^ k)
    (h : encodePacked k v = encodePacked k v') : v = v' := by
  have hnat := beNat_encodePacked k v
  rw [h, beNat_encodePacked, Nat.mod_eq_of_lt hv', Nat.mod_eq_of_lt hv] at hnat
  exact hnat.symm

/-- The first field of a packed text and what stands behind it. -/
theorem encodePacked_append_inj {k v v' : Nat} {l l' : List UInt8} (hv : v < 256 ^ k)
    (hv' : v' < 256 ^ k) (h : encodePacked k v ++ l = encodePacked k v' ++ l') : v = v' ∧ l = l' := by
  obtain ⟨hfield, hrest⟩ := List.append_inj h (by simp)
  exact ⟨encodePacked_inj hv hv' hfield, hrest⟩

/-- `mload` of the 32 bytes from `offset` of a byte array on, zero behind its end. -/
def mload (data : List UInt8) (offset : Nat) : Uint :=
  BitVec.ofNat 256 (beNat (fun k => data.getD (offset + k) 0) 32)

theorem mload_toNat (data : List UInt8) (offset : Nat) :
    (mload data offset).toNat = beNat (fun k => data.getD (offset + k) 0) 32 := by
  rw [mload, BitVec.toNat_ofNat]
  exact Nat.mod_eq_of_lt (Nat.lt_of_lt_of_eq (beNat_lt _ 32) (by norm_num))

/-- The first `j` of the bytes that are loaded. -/
theorem mload_div (data : List UInt8) (offset : Nat) {j k : Nat} (h : j + k = 32) :
    (mload data offset).toNat / 256 ^ k = beNat (fun i => data.getD (offset + i) 0) j := by
  rw [mload_toNat, ← h, beNat_div]

/-- A field of `k` bytes read back where it was packed. -/
theorem beNat_field (before after : List UInt8) {k v : Nat} (hv : v < 256 ^ k) :
    beNat (fun i => (before ++ (encodePacked k v ++ after)).getD (before.length + i) 0) k = v := by
  have hbytes : ∀ i, i < k → (before ++ (encodePacked k v ++ after)).getD (before.length + i) 0
      = (encodePacked k v).getD i 0 := by
    intro i hi
    simp only [List.getD_eq_getElem?_getD]
    rw [List.getElem?_append_right (by omega), Nat.add_sub_cancel_left,
      List.getElem?_append_left (by simpa using hi)]
  rw [beNat_congr hbytes, beNat_encodePacked, Nat.mod_eq_of_lt hv]

/-- A hash to compute with. -/
def sumHash (bytes : List UInt8) : Bytes32 :=
  BitVec.ofNat 256 (bytes.foldl (fun n b => 3 * n + b.toNat) 1)

end TinyEvm.Solidity
