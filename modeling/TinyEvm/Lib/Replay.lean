import Mathlib.Data.Nat.Notation
import Mathlib.Data.List.Induction

/-!
# Replaying writes over an address space

A write `x` covers some addresses and has a value for each of them. `replay`
applies a list of writes, oldest first, to an initial content; afterwards an
address holds what its last writer put there (`replay_eq`), and that is the rule
by which contents are computed instead of unfolding the history. Two addresses
whose last writers cover both have the same last writer (`lastWriter_congr`).
-/

namespace TinyEvm.Lib.Replay

variable {ι κ β : Type} (covers : ι → Nat → Bool) (value : ι → Nat → β)

/-- The content `m` after one write. -/
def overwrite (m : Nat → β) (x : ι) (j : Nat) : β := if covers x j then value x j else m j

/-- The content `m` after the writes of `q`, the oldest first in the list. -/
def replay (m : Nat → β) (q : List ι) : Nat → β := q.foldl (overwrite covers value) m

/-- The last write of `q` that covers `j`. -/
def lastWriter (q : List ι) (j : Nat) : Option ι := (q.filter fun x => covers x j).getLast?

theorem replay_snoc (m : Nat → β) (q : List ι) (x : ι) (j : Nat) :
    replay covers value m (q ++ [x]) j
      = if covers x j then value x j else replay covers value m q j := by
  unfold replay
  rw [List.foldl_append]
  rfl

theorem replay_append (m : Nat → β) (q q' : List ι) :
    replay covers value m (q ++ q') = replay covers value (replay covers value m q) q' :=
  List.foldl_append

theorem lastWriter_snoc (q : List ι) (x : ι) (j : Nat) :
    lastWriter covers (q ++ [x]) j = if covers x j then some x else lastWriter covers q j := by
  unfold lastWriter
  rw [List.filter_append]
  by_cases h : covers x j
  · rw [List.filter_cons_of_pos (by exact h), List.filter_nil, List.getLast?_concat, if_pos h]
  · rw [List.filter_cons_of_neg (by exact h), List.filter_nil, List.append_nil, if_neg h]

theorem covers_of_lastWriter {q : List ι} {x : ι} {j : Nat} (h : lastWriter covers q j = some x) :
    covers x j = true :=
  (List.mem_filter.mp (List.mem_of_getLast? h)).2

/-- **An address holds what its last writer put there.** -/
theorem replay_eq (m : Nat → β) (q : List ι) (j : Nat) :
    replay covers value m q j
      = match lastWriter covers q j with
        | some x => value x j
        | none => m j := by
  induction q using List.reverseRecOn with
  | nil => rfl
  | append_singleton q x ih =>
    rw [replay_snoc, lastWriter_snoc]
    by_cases h : covers x j
    · rw [if_pos h, if_pos h]
    · rw [if_neg h, if_neg h]
      exact ih

/-- Addresses that their last writers cover together have the same one. -/
theorem lastWriter_congr {i j : Nat} (q : List ι)
    (hi : ∀ x, lastWriter covers q i = some x → covers x j = true)
    (hj : ∀ x, lastWriter covers q j = some x → covers x i = true) :
    lastWriter covers q i = lastWriter covers q j := by
  induction q using List.reverseRecOn with
  | nil => rfl
  | append_singleton q x ih =>
    rw [lastWriter_snoc] at hi hj
    rw [lastWriter_snoc, lastWriter_snoc]
    -- the newest write covers both addresses or neither of them
    by_cases hxi : covers x i
    · have hxj : covers x j = true := hi x (if_pos hxi)
      rw [if_pos hxi, if_pos hxj]
    · have hxj : ¬covers x j = true := fun hxj => hxi (hj x (if_pos hxj))
      rw [if_neg hxi] at hi
      rw [if_neg hxj] at hj
      rw [if_neg hxi, if_neg hxj]
      exact ih hi hj

/-- The last writer when the writes are images of others. -/
theorem lastWriter_map (f : κ → ι) (q : List κ) (j : Nat) :
    lastWriter covers (q.map f) j = (lastWriter (fun y => covers (f y)) q j).map f := by
  unfold lastWriter
  rw [List.filter_map, List.getLast?_map]
  rfl

end TinyEvm.Lib.Replay
