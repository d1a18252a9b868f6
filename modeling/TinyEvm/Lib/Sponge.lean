import Mathlib.Algebra.GroupWithZero.Nat
import Mathlib.Logic.Function.Iterate

/-!
# Sponges

A sponge has a state, a permutation `f` of it, and a rate `r`: `put` adds an element
at a position below `r`, `get` reads one. Written down by blocks, absorbing adds `r`
elements and permutes (`absorb`), and element `k` of the stream that comes out is
element `k % r` of the state after `k / r` permutations (`stream`).

Implementations go element by element with a position `j`. Absorbing, they permute as
soon as a block is full (`absorbLoop`); squeezing, not before the next element is asked
for, so that `j` may stand at `r` between two calls (`squeezeLoop`). `At` is the
invariant of the latter, and whatever pieces the output is asked for in, it is one
stream (`squeezeAll_eq`).
-/

namespace TinyEvm.Lib.Sponge

variable {S β : Type} (f : S → S) (put : S → Nat → β → S) (get : S → Nat → β) (r : Nat)

/-- Elements added from position `j` on. -/
def place : S → Nat → List β → S
  | s, _, [] => s
  | s, j, x :: bs => place (put s j x) (j + 1) bs

/-- `n` blocks, one after the other. -/
def absorb : Nat → List β → S → S
  | 0, _, s => s
  | n + 1, bs, s => absorb n (bs.drop r) (f (place put s 0 (bs.take r)))

/-- One element after the other, from position `j` on. -/
def absorbLoop : List β → S → Nat → S × Nat
  | [], s, j => (s, j)
  | x :: bs, s, j =>
    if j + 1 ≥ r then absorbLoop bs (f (put s j x)) 0 else absorbLoop bs (put s j x) (j + 1)

/-- Element `k` of what comes out. -/
def stream (s : S) (k : Nat) : β := get (f^[k / r] s) (k % r)

/-- `n` elements from position `j` on. -/
def squeezeLoop : Nat → S → Nat → List β × S × Nat
  | 0, s, j => ([], s, j)
  | n + 1, s, j =>
    let p := if j ≥ r then (f s, 0) else (s, j)
    let rest := squeezeLoop n p.1 (p.2 + 1)
    (get p.1 p.2 :: rest.1, rest.2)

/-- The output asked for in pieces. -/
def squeezeAll : List Nat → S → Nat → List β
  | [], _, _ => []
  | n :: ns, s, j =>
    let p := squeezeLoop f get r n s j
    p.1 ++ squeezeAll ns p.2.1 p.2.2

variable {f put get r} {s base : S} {j p : Nat}

/-! ## Absorbing -/

theorem absorbLoop_append (f : S → S) (put : S → Nat → β → S) (r : Nat) : ∀ (as bs : List β) (s : S) (j : Nat),
    absorbLoop f put r (as ++ bs) s j
      = absorbLoop f put r bs (absorbLoop f put r as s j).1 (absorbLoop f put r as s j).2 := by
  intro as
  induction as with
  | nil =>
    intro bs s j
    rfl
  | cons x as ih =>
    intro bs s j
    rw [List.cons_append, absorbLoop, absorbLoop]
    split
    · exact ih bs _ _
    · exact ih bs _ _

/-- The position counts the elements. -/
theorem absorbLoop_pos : ∀ (bs : List β) (s : S) (j : Nat), j < r →
    (absorbLoop f put r bs s j).2 = (j + bs.length) % r := by
  intro bs
  induction bs with
  | nil =>
    intro s j hj
    exact (Nat.mod_eq_of_lt hj).symm
  | cons x bs ih =>
    intro s j hj
    rw [absorbLoop, List.length_cons]
    split
    · rw [ih _ _ (by omega), show j + (bs.length + 1) = 0 + bs.length + r by omega, Nat.add_mod_right]
    · rw [ih _ _ (by omega), show j + (bs.length + 1) = j + 1 + bs.length by omega]

/-- Elements that fill the block. -/
theorem absorbLoop_block : ∀ (bs : List β) (s : S) (j : Nat), j < r → j + bs.length = r →
    absorbLoop f put r bs s j = (f (place put s j bs), 0) := by
  intro bs
  induction bs with
  | nil =>
    intro s j hj hlen
    rw [List.length_nil] at hlen
    omega
  | cons x bs ih =>
    intro s j hj hlen
    rw [List.length_cons] at hlen
    rw [absorbLoop, place]
    by_cases hlast : j + 1 ≥ r
    · obtain rfl : bs = [] := List.length_eq_zero_iff.mp (by omega)
      rw [if_pos hlast]
      rfl
    · rw [if_neg hlast]
      exact ih _ _ (by omega) (by omega)

/-- **Whole blocks are absorbed as blocks.** -/
theorem absorbLoop_eq (f : S → S) (put : S → Nat → β → S) (hr : 0 < r) : ∀ (n : Nat) (bs : List β) (s : S), bs.length = n * r →
    absorbLoop f put r bs s 0 = (absorb f put r n bs s, 0) := by
  intro n
  induction n with
  | zero =>
    intro bs s hlen
    obtain rfl : bs = [] := List.length_eq_zero_iff.mp (by omega)
    rfl
  | succ n ih =>
    intro bs s hlen
    rw [Nat.succ_mul] at hlen
    have hblock : (bs.take r).length = r := by
      rw [List.length_take]
      omega
    have hparts := absorbLoop_append f put r (bs.take r) (bs.drop r) s 0
    rw [List.take_append_drop] at hparts
    rw [hparts, absorbLoop_block _ _ _ hr (by omega), ih _ _ (by rw [List.length_drop]; omega),
      absorb]

/-! ## Squeezing -/

/-- State and position, `p` elements into the stream that starts at `base`. -/
def At (f : S → S) (r : Nat) (base s : S) (j p : Nat) : Prop :=
  ∃ q, s = f^[q] base ∧ p = q * r + j ∧ j ≤ r

theorem at_start (base : S) : At f r base base 0 0 := ⟨0, rfl, by omega, Nat.zero_le r⟩

/-- One element. -/
theorem At.next (get : S → Nat → β) (hr : 0 < r) (h : At f r base s j p) :
    let next := if j ≥ r then (f s, 0) else (s, j)
    get next.1 next.2 = stream f get r base p ∧ At f r base next.1 (next.2 + 1) (p + 1) := by
  obtain ⟨q, rfl, rfl, hj⟩ := h
  by_cases hfull : j ≥ r
  · obtain rfl : j = r := by omega
    simp only [if_pos (Nat.le_refl j)]
    refine ⟨?_, q + 1, (Function.iterate_succ_apply' f q base).symm, by rw [Nat.succ_mul], hr⟩
    rw [stream, show q * j + j = (q + 1) * j from (Nat.succ_mul q j).symm, Nat.mul_div_cancel _ hr,
      Nat.mul_mod_left, Function.iterate_succ_apply']
  · simp only [if_neg hfull]
    refine ⟨?_, q, rfl, by omega, by omega⟩
    rw [stream, Nat.mul_comm, Nat.mul_add_div hr, Nat.div_eq_of_lt (by omega), Nat.add_zero,
      Nat.mul_add_mod, Nat.mod_eq_of_lt (by omega)]

/-- **A piece of the stream.** -/
theorem squeezeLoop_eq (hr : 0 < r) : ∀ (n : Nat) {s : S} {j p : Nat}, At f r base s j p →
    (squeezeLoop f get r n s j).1 = (List.range' p n).map (stream f get r base) ∧
      At f r base (squeezeLoop f get r n s j).2.1 (squeezeLoop f get r n s j).2.2 (p + n) := by
  intro n
  induction n with
  | zero =>
    intro s j p h
    exact ⟨rfl, h⟩
  | succ n ih =>
    intro s j p h
    obtain ⟨hget, hnext⟩ := h.next get hr
    obtain ⟨hrest, hat⟩ := ih hnext
    rw [squeezeLoop, List.range'_succ, List.map_cons]
    refine ⟨?_, ?_⟩
    · rw [← hget, ← hrest]
    · rw [Nat.add_comm n 1, ← Nat.add_assoc]
      exact hat

/-- **One stream, whatever the pieces.** -/
theorem squeezeAll_eq (hr : 0 < r) : ∀ (ns : List Nat) {s : S} {j p : Nat}, At f r base s j p →
    squeezeAll f get r ns s j = (List.range' p ns.sum).map (stream f get r base) := by
  intro ns
  induction ns with
  | nil =>
    intro s j p _
    rfl
  | cons n ns ih =>
    intro s j p h
    obtain ⟨hpiece, hat⟩ := squeezeLoop_eq hr n h
    rw [squeezeAll, List.sum_cons, ← List.range'_append_1, List.map_append, ← hpiece, ← ih hat]

end TinyEvm.Lib.Sponge
