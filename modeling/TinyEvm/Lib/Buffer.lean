import Mathlib.Data.Nat.Notation

/-!
# Arrays of a fixed size

A C array `T a[n]` is a function `Fin n → α`: an index outside it cannot be
read, and `peek` says what a read would give with a default for that case.
`Fits n off len` is the condition under which a block of `len` elements at
`off` lies inside the array (a block of length zero touches nothing, so it
always does), and `blit` is the array after such a block was copied in.
-/

namespace TinyEvm.Lib.Buffer

variable {α : Type} {n : Nat}

/-- The element at `i`, or `d` outside the array. -/
def peek (b : Fin n → α) (d : α) (i : Nat) : α :=
  if h : i < n then b ⟨i, h⟩ else d

/-- The block `[off, off + len)` lies inside an array of `n` elements. -/
def Fits (n off len : Nat) : Prop := len = 0 ∨ off + len ≤ n

instance (n off len : Nat) : Decidable (Fits n off len) :=
  inferInstanceAs (Decidable (len = 0 ∨ off + len ≤ n))

theorem fits_iff_forall {n off len : Nat} :
    Fits n off len ↔ ∀ i, off ≤ i → i < off + len → i < n := by
  unfold Fits
  refine ⟨by omega, fun h => ?_⟩
  by_cases hlen : len = 0
  · exact Or.inl hlen
  · have hlast := h (off + len - 1) (by omega) (by omega)
    omega

/-- `b` with one element replaced. -/
def poke (b : Fin n → α) (i : Fin n) (x : α) : Fin n → α :=
  fun j => if j = i then x else b j

/-- `b` with `f 0, …, f (len - 1)` copied to `off`. -/
def blit (b : Fin n → α) (off len : Nat) (f : Nat → α) : Fin n → α :=
  fun j => if off ≤ j ∧ j < off + len then f (j - off) else b j

theorem peek_of_lt (b : Fin n → α) (d : α) {i : Nat} (h : i < n) : peek b d i = b ⟨i, h⟩ :=
  dif_pos h

theorem peek_blit_of_mem (b : Fin n → α) (d : α) {off len i : Nat} (f : Nat → α)
    (hn : off + len ≤ n) (h1 : off ≤ i) (h2 : i < off + len) :
    peek (blit b off len f) d i = f (i - off) := by
  rw [peek_of_lt _ _ (by omega), blit]
  exact if_pos ⟨h1, h2⟩

theorem peek_blit_of_not_mem (b : Fin n → α) (d : α) {off len i : Nat} (f : Nat → α)
    (h : i < off ∨ off + len ≤ i) : peek (blit b off len f) d i = peek b d i := by
  unfold peek
  split
  · exact if_neg (by simp only; omega)
  · rfl

/-- A block copied over another of the same place and length hides it. -/
theorem blit_blit (b : Fin n → α) (off len : Nat) (f g : Nat → α) :
    blit (blit b off len f) off len g = blit b off len g := by
  funext j
  unfold blit
  split
  · rfl
  · rfl

end TinyEvm.Lib.Buffer
