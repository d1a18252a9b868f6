import Mathlib.Algebra.GroupWithZero.Nat
import Mathlib.Algebra.Order.BigOperators.Group.List
import Mathlib.Data.List.Induction

/-!
# Merkle sum trees

An entry is a size and a hash; the entry of an inner node has the sum of the two
sizes and `H` of the two entries. A proof is a list of siblings, lowest first, and
`climb` goes up from an entry along it. The sizes of the left siblings add up to
where the entry starts (`offset`).

* `opens_climb`: the proofs a tree gives for its leaves climb to its root.
* `climb_meet`: two climbs that meet. Peeling the last step off both, either `H`
  collides on the two pairs, or they are equal: then both came from the same side
  and the rest of the climbs meet, or they came from different sides, and one range
  is left of the other. When one climb is used up, its entry is on the way of the
  other. No tree is assumed behind the root, and no injectivity of `H`: what the
  conclusion names is a collision among the pairs that were hashed.
-/

namespace TinyEvm.Lib.SumTree

variable {η : Type}

structure Entry (η : Type) where
  size : Nat
  hash : η
deriving DecidableEq

/-- An entry beside the way up, and on which side. -/
structure Sibling (η : Type) where
  left : Bool
  entry : Entry η
deriving DecidableEq

/-- The two children, from left to right, of the node above `e` and its sibling. -/
def pair (e : Entry η) (s : Sibling η) : Entry η × Entry η :=
  if s.left then (s.entry, e) else (e, s.entry)

/-- Where an entry starts. -/
def offset (p : List (Sibling η)) : Nat := (p.map fun s => if s.left then s.entry.size else 0).sum

section

variable (H : Entry η × Entry η → η)

def parent (lr : Entry η × Entry η) : Entry η := ⟨lr.1.size + lr.2.size, H lr⟩

/-- One step up. -/
def up (e : Entry η) (s : Sibling η) : Entry η := parent H (pair e s)

def climb (e : Entry η) (p : List (Sibling η)) : Entry η := p.foldl (up H) e

/-- The pairs hashed on the way. -/
def pairs (e : Entry η) : List (Sibling η) → List (Entry η × Entry η)
  | [] => []
  | s :: p => pair e s :: pairs (up H e s) p

/-- Two different pairs, one of each list, with the same hash. -/
def Collision (l l' : List (Entry η × Entry η)) : Prop :=
  ∃ a ∈ l, ∃ b ∈ l', a ≠ b ∧ H a = H b

inductive EntryTree (η : Type) where
  | leaf (e : Entry η)
  | node (l r : EntryTree η)

def EntryTree.entry : EntryTree η → Entry η
  | leaf e => e
  | node l r => parent H (l.entry, r.entry)

/-- The leaves with their proofs and where they start, the tree starting at `b`. -/
def EntryTree.opens (b : Nat) : EntryTree η → List (Nat × Entry η × List (Sibling η))
  | leaf e => [(b, e, [])]
  | node l r =>
    (l.opens b).map (fun x => (x.1, x.2.1, x.2.2 ++ [⟨false, r.entry H⟩])) ++
    (r.opens (b + (l.entry H).size)).map (fun x => (x.1, x.2.1, x.2.2 ++ [⟨true, l.entry H⟩]))

end

variable {H : Entry η × Entry η → η} {e f : Entry η} {s s' : Sibling η} {p q : List (Sibling η)}

/-! ## One step more -/

theorem climb_concat : climb H e (p ++ [s]) = up H (climb H e p) s := by simp [climb]

theorem offset_concat : offset (p ++ [s]) = offset p + if s.left then s.entry.size else 0 := by
  simp [offset]

theorem pairs_concat : pairs H e (p ++ [s]) = pairs H e p ++ [pair (climb H e p) s] := by
  induction p generalizing e with
  | nil => rfl
  | cons t p ih => exact congrArg (pair e t :: ·) ih

theorem up_size : (up H e s).size = e.size + s.entry.size := by
  unfold up pair parent
  split
  · exact Nat.add_comm _ _
  · rfl

/-- An entry lies inside the one it climbs to. -/
theorem offset_add_size_le : offset p + e.size ≤ (climb H e p).size := by
  induction p using List.reverseRecOn with
  | nil => exact Nat.le_of_eq (Nat.zero_add _)
  | append_singleton p s ih =>
    rw [climb_concat, up_size, offset_concat]
    split <;> omega

theorem climb_size : (climb H e p).size = e.size + (p.map fun s => s.entry.size).sum := by
  induction p using List.reverseRecOn with
  | nil => rfl
  | append_singleton p s ih => simp [climb_concat, up_size, ih, Nat.add_assoc]

/-- A climb that is not empty ends in the hash of its last pair. -/
theorem hash_climb (hp : p ≠ []) : ∃ a ∈ pairs H e p, H a = (climb H e p).hash := by
  obtain rfl | ⟨p, s, rfl⟩ := List.eq_nil_or_concat' p
  · exact absurd rfl hp
  · rw [pairs_concat, climb_concat]
    exact ⟨_, List.mem_append_right _ (List.mem_singleton_self _), rfl⟩

/-- The entries that are hashed are no larger than the one at the end. -/
theorem size_le_of_mem_pairs {a : Entry η × Entry η} (ha : a ∈ pairs H e p) :
    a.1.size ≤ (climb H e p).size ∧ a.2.size ≤ (climb H e p).size := by
  induction p using List.reverseRecOn with
  | nil => cases ha
  | append_singleton p s ih =>
    rw [pairs_concat, List.mem_append, List.mem_singleton] at ha
    rw [climb_concat]
    rcases ha with ha | rfl
    · have hle := ih ha
      rw [up_size]
      omega
    · exact ⟨Nat.le_add_right _ _, Nat.le_add_left _ _⟩

/-! ## Proofs of a tree -/

/-- **The proofs of a tree climb to its root**, from where their leaf starts. -/
theorem opens_climb {t : EntryTree η} {b o : Nat} (h : (o, e, p) ∈ t.opens H b) :
    climb H e p = t.entry H ∧ o = b + offset p := by
  induction t generalizing b p with
  | leaf e' =>
    obtain ⟨rfl, rfl, rfl⟩ : o = b ∧ e = e' ∧ p = [] := by simpa [EntryTree.opens] using h
    exact ⟨rfl, rfl⟩
  | node l r ihl ihr =>
    rw [EntryTree.opens, List.mem_append, List.mem_map, List.mem_map] at h
    rcases h with ⟨⟨o', e', p'⟩, hmem, heq⟩ | ⟨⟨o', e', p'⟩, hmem, heq⟩
    · cases heq
      obtain ⟨hclimb, ho⟩ := ihl hmem
      rw [climb_concat, hclimb, offset_concat]
      exact ⟨rfl, ho⟩
    · cases heq
      obtain ⟨hclimb, ho⟩ := ihr hmem
      rw [climb_concat, hclimb, offset_concat]
      refine ⟨rfl, ?_⟩
      simp only [if_true]
      omega

/-! ## Two climbs -/

/-- The entry `f` is on the way from `e`, or `e` itself. -/
def Passes (H : Entry η × Entry η → η) (e : Entry η) (p : List (Sibling η)) (f : Entry η)
    (q : List (Sibling η)) : Prop :=
  ∃ r, r <+: p ∧ climb H e r = f ∧ offset p = offset q + offset r

theorem Passes.concat (h : Passes H e p f q) (hside : s.left = s'.left) (hentry : s.entry = s'.entry) :
    Passes H e (p ++ [s]) f (q ++ [s']) := by
  obtain ⟨r, hprefix, hclimb, hoffset⟩ := h
  refine ⟨r, hprefix.trans (List.prefix_append _ _), hclimb, ?_⟩
  rw [offset_concat, offset_concat, hoffset, hside, hentry]
  omega

theorem Passes.range (h : Passes H e p f q) :
    offset q ≤ offset p ∧ offset p + e.size ≤ offset q + f.size := by
  obtain ⟨r, -, rfl, hoffset⟩ := h
  have hle := offset_add_size_le (H := H) (e := e) (p := r)
  omega

theorem Passes.eq_or_hash (h : Passes H e p f q) :
    (e = f ∧ offset p = offset q) ∨ ∃ a ∈ pairs H e p, H a = f.hash := by
  obtain ⟨r, ⟨rest, rfl⟩, rfl, hoffset⟩ := h
  by_cases hr : r = []
  · subst hr
    exact Or.inl ⟨rfl, hoffset⟩
  · obtain ⟨a, ha, hhash⟩ := hash_climb (H := H) (e := e) hr
    refine Or.inr ⟨a, ?_, hhash⟩
    clear hoffset hhash hr
    induction rest using List.reverseRecOn with
    | nil => rwa [List.append_nil]
    | append_singleton rest s ih =>
      rw [← List.append_assoc, pairs_concat]
      exact List.mem_append_left _ ih

/-- How the ranges of two entries under one root lie to each other. -/
def Meets (H : Entry η × Entry η → η) (e : Entry η) (p : List (Sibling η)) (f : Entry η)
    (q : List (Sibling η)) : Prop :=
  offset p + e.size ≤ offset q ∨ offset q + f.size ≤ offset p ∨ Passes H e p f q ∨ Passes H f q e p

theorem Meets.concat (h : Meets H e p f q) (hside : s.left = s'.left) (hentry : s.entry = s'.entry) :
    Meets H e (p ++ [s]) f (q ++ [s']) := by
  rcases h with hbefore | hafter | hpasses | hpasses
  · refine Or.inl ?_
    rw [offset_concat, offset_concat, hside, hentry]
    omega
  · refine Or.inr (Or.inl ?_)
    rw [offset_concat, offset_concat, hside, hentry]
    omega
  · exact Or.inr (Or.inr (Or.inl (hpasses.concat hside hentry)))
  · exact Or.inr (Or.inr (Or.inr (hpasses.concat hside.symm hentry.symm)))

/-- The last steps of two climbs hash the same pair. -/
theorem meets_of_pair_eq (hpair : pair (climb H e p) s = pair (climb H f q) s')
    (hbelow : climb H e p = climb H f q → Meets H e p f q) : Meets H e (p ++ [s]) f (q ++ [s']) := by
  have hp := offset_add_size_le (H := H) (e := e) (p := p)
  have hq := offset_add_size_le (H := H) (e := f) (p := q)
  obtain ⟨sleft, sentry⟩ := s
  obtain ⟨sleft', sentry'⟩ := s'
  cases sleft <;> cases sleft'
  · obtain ⟨hclimb, hentry⟩ := Prod.mk.inj hpair
    exact (hbelow hclimb).concat rfl hentry
  · -- from the left, and from the right
    obtain ⟨hclimb, -⟩ : climb H e p = sentry' ∧ sentry = climb H f q := Prod.mk.inj hpair
    refine Or.inl ?_
    rw [offset_concat, offset_concat]
    simp only [if_true, Bool.false_eq_true, if_false, ← hclimb]
    omega
  · obtain ⟨hclimb, -⟩ : sentry = climb H f q ∧ climb H e p = sentry' := Prod.mk.inj hpair
    refine Or.inr (Or.inl ?_)
    rw [offset_concat, offset_concat]
    simp only [if_true, Bool.false_eq_true, if_false, hclimb]
    omega
  · obtain ⟨hentry, hclimb⟩ := Prod.mk.inj hpair
    exact (hbelow hclimb).concat rfl hentry

theorem Collision.concat (h : Collision H (pairs H e p) (pairs H f q)) :
    Collision H (pairs H e (p ++ [s])) (pairs H f (q ++ [s'])) := by
  obtain ⟨a, ha, b, hb, hne⟩ := h
  rw [pairs_concat, pairs_concat]
  exact ⟨a, List.mem_append_left _ ha, b, List.mem_append_left _ hb, hne⟩

/-- **Two climbs that meet**: the ranges are apart, or one entry is on the way of the
other, or `H` collides. -/
theorem climb_meet (h : climb H e p = climb H f q) :
    Collision H (pairs H e p) (pairs H f q) ∨ Meets H e p f q := by
  induction p using List.reverseRecOn generalizing q with
  | nil => exact Or.inr (Or.inr (Or.inr (Or.inr ⟨q, List.prefix_refl q, h.symm, (Nat.zero_add _).symm⟩)))
  | append_singleton p s ih =>
    obtain rfl | ⟨q, s', rfl⟩ := List.eq_nil_or_concat' q
    · exact Or.inr (Or.inr (Or.inr (Or.inl
        ⟨p ++ [s], List.prefix_refl _, h, (Nat.zero_add _).symm⟩)))
    · rw [climb_concat, climb_concat] at h
      by_cases hpair : pair (climb H e p) s = pair (climb H f q) s'
      · by_cases hcollision : Collision H (pairs H e p) (pairs H f q)
        · exact Or.inl hcollision.concat
        · exact Or.inr (meets_of_pair_eq hpair fun hclimb => (ih hclimb).resolve_left hcollision)
      · refine Or.inl ⟨_, ?_, _, ?_, hpair, congrArg Entry.hash h⟩ <;> simp [pairs_concat]

end TinyEvm.Lib.SumTree
