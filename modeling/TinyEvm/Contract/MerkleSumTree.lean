import TinyEvm.Lib.SumTree
import TinyEvm.Contract.Solidity

/-!
# `MerkleSumTree`

The contract of `merkletree.sol`: `verify` checks that a leaf stands at the range
`[leafStart, leafEnd)` under a root. A proof is a byte string, 41 bytes a step: on
which side the sibling stands, its size and its hash. The loop reads them off by
offset (`verifyLoop`); `steps` cuts the string into them first, and every list of
steps is read back from its string (`steps_encode`).

Sizes are added modulo `2^64` and nothing checks for it. `Fits` says that the
sizes of a proof do not wrap around; then the walk is a climb of `Lib.SumTree`,
and its results are the results here. Without it they fail (`verify_wrapped`).
-/

namespace TinyEvm.MerkleSumTree

open Solidity Lib.BigEndian Lib.SumTree

def readUint64 (data : List UInt8) (offset : Nat) : UInt64 :=
  UInt64.ofNat ((mload data offset).toNat / 256 ^ 24)

def readUint8 (data : List UInt8) (offset : Nat) : UInt8 :=
  UInt8.ofNat ((mload data offset).toNat / 256 ^ 31)

def readBytes32 (data : List UInt8) (offset : Nat) : Bytes32 := mload data offset

/-- A size and a hash as `encodePacked` writes them. -/
def bucket (size : UInt64) (hash : Bytes32) : List UInt8 :=
  encodePacked 8 size.toNat ++ encodePacked 32 hash.toNat

/-- The variables of the loop. -/
structure Walk where
  currSize : UInt64
  currHash : Bytes32
  currStart : UInt64
  currEnd : UInt64

structure Step where
  bucketLeftOrRight : UInt8
  bucketSize : UInt64
  bucketHash : Bytes32
deriving DecidableEq

def readStep (proof : List UInt8) (stepPos : Nat) : Step :=
  ⟨readUint8 proof stepPos, readUint64 proof (stepPos + 1), readBytes32 proof (stepPos + 9)⟩

section

variable (keccak256 : List UInt8 → Bytes32)

def walkStep (w : Walk) (step : Step) : Walk :=
  let w := if step.bucketLeftOrRight = 0 then { w with
      currStart := w.currStart + step.bucketSize
      currHash := keccak256 (bucket step.bucketSize step.bucketHash ++ bucket w.currSize w.currHash) }
    else { w with
      currEnd := w.currEnd - step.bucketSize
      currHash := keccak256 (bucket w.currSize w.currHash ++ bucket step.bucketSize step.bucketHash) }
  { w with currSize := w.currSize + step.bucketSize }

def verifyLoop (proof : List UInt8) (stepPos : Nat) (w : Walk) : Walk :=
  if stepPos < proof.length then
    verifyLoop proof (stepPos + 41) (walkStep keccak256 w (readStep proof stepPos))
  else w
  termination_by proof.length - stepPos
  decreasing_by omega

def verify (proof : List UInt8) (rootHash : Bytes32) (rootSize : UInt64) (leafHash : Bytes32)
    (leafStart leafEnd : UInt64) : Except String Bool := do
  require (proof.length % 41 = 0) "Invalid proof."
  let w := verifyLoop keccak256 proof 0 ⟨leafEnd - leafStart, leafHash, 0, rootSize⟩
  return w.currHash = rootHash ∧ w.currSize = rootSize ∧ w.currStart = leafStart ∧ w.currEnd = leafEnd

end

/-! ## Proofs as lists of steps -/

def encodeStep (step : Step) : List UInt8 :=
  step.bucketLeftOrRight :: bucket step.bucketSize step.bucketHash

def encode (l : List Step) : List UInt8 := l.flatMap encodeStep

def steps (proof : List UInt8) : List Step :=
  (List.range (proof.length / 41)).map fun k => readStep proof (41 * k)

@[simp] theorem bucket_length (size : UInt64) (hash : Bytes32) : (bucket size hash).length = 40 := by
  simp [bucket]

@[simp] theorem encodeStep_length (step : Step) : (encodeStep step).length = 41 := by
  simp [encodeStep]

@[simp] theorem encode_length (l : List Step) : (encode l).length = 41 * l.length := by
  induction l with
  | nil => rfl
  | cons step l ih =>
    rw [encode, List.flatMap_cons, List.length_append, ← encode, ih, encodeStep_length, List.length_cons]
    omega

/-- A step read back where it was written. -/
theorem readStep_append (before after : List UInt8) (step : Step) :
    readStep (before ++ (encodeStep step ++ after)) before.length = step := by
  obtain ⟨direction, size, hash⟩ := step
  have hsize := beNat_field (before ++ [direction]) (encodePacked 32 hash.toNat ++ after) (k := 8)
    (v := size.toNat) size.toNat_lt
  have hhash := beNat_field (before ++ direction :: encodePacked 8 size.toNat) after (k := 32)
    (v := hash.toNat) hash.isLt
  simp only [List.append_assoc, List.length_append, List.length_cons, List.length_nil, Nat.zero_add,
    encodePacked_length, List.cons_append, List.nil_append] at hsize hhash
  unfold readStep
  congr 1
  · unfold readUint8
    rw [mload_div _ _ (show 1 + 31 = 32 from rfl)]
    simp [encodeStep, beNat]
  · unfold readUint64
    rw [mload_div _ _ (show 8 + 24 = 32 from rfl)]
    simp only [encodeStep, bucket, List.cons_append, List.append_assoc]
    rw [hsize]
    simp
  · refine BitVec.eq_of_toNat_eq ?_
    rw [readBytes32, mload_toNat]
    simp only [encodeStep, bucket, List.cons_append, List.append_assoc]
    exact hhash

/-- **A list of steps is read back from its string.** -/
theorem steps_encode (l : List Step) : steps (encode l) = l := by
  refine List.ext_getElem (by simp [steps]) fun k _ hk => ?_
  have hcut : encode l = encode (l.take k) ++ (encodeStep l[k] ++ encode (l.drop (k + 1))) := by
    have hl : l = l.take k ++ l[k] :: l.drop (k + 1) := by simp
    conv_lhs => rw [hl, encode, List.flatMap_append, List.flatMap_cons]
    rfl
  have hread := readStep_append (encode (l.take k)) (encode (l.drop (k + 1))) l[k]
  rw [← hcut, encode_length, List.length_take, Nat.min_eq_left (Nat.le_of_lt hk)] at hread
  simpa [steps] using hread

section

variable {keccak256 : List UInt8 → Bytes32} {proof : List UInt8} {w : Walk} {l : List Step}

/-- **The loop takes the steps one by one.** -/
theorem verifyLoop_eq (h : proof.length % 41 = 0) :
    verifyLoop keccak256 proof 0 w = (steps proof).foldl (walkStep keccak256) w := by
  have hloop : ∀ m j w, j + m = proof.length / 41 →
      verifyLoop keccak256 proof (41 * j) w
        = ((List.range' j m).map fun k => readStep proof (41 * k)).foldl (walkStep keccak256) w := by
    intro m
    induction m with
    | zero =>
      intro j w hj
      rw [verifyLoop, if_neg (by omega)]
      rfl
    | succ m ih =>
      intro j w hj
      rw [verifyLoop, if_pos (by omega), ← Nat.mul_succ, ih (j + 1) _ (by omega)]
      rfl
  rw [steps, List.range_eq_range', ← hloop _ 0 w (Nat.zero_add _)]

/-- **`verify` accepts** what walks to the root and to the range. -/
theorem verify_iff {rootHash leafHash : Bytes32} {rootSize leafStart leafEnd : UInt64} :
    verify keccak256 proof rootHash rootSize leafHash leafStart leafEnd = .ok true ↔
      proof.length % 41 = 0 ∧
      (steps proof).foldl (walkStep keccak256) ⟨leafEnd - leafStart, leafHash, 0, rootSize⟩
        = ⟨rootSize, rootHash, leafStart, leafEnd⟩ := by
  unfold verify
  rw [require_bind_ok]
  refine and_congr_right fun hlen => ?_
  rw [verifyLoop_eq hlen]
  generalize (steps proof).foldl (walkStep keccak256) _ = w
  obtain ⟨size, hash, start, stop⟩ := w
  rw [return_ok]
  rw [eq_comm (a := true), decide_eq_true_iff, Walk.mk.injEq]
  exact and_left_comm

/-! ## The walk as a climb -/

/-- What is hashed for the node above two entries. -/
def nodeText (lr : Entry Bytes32 × Entry Bytes32) : List UInt8 :=
  (encodePacked 8 lr.1.size ++ encodePacked 32 lr.1.hash.toNat) ++
    (encodePacked 8 lr.2.size ++ encodePacked 32 lr.2.hash.toNat)

def nodeHash (keccak256 : List UInt8 → Bytes32) (lr : Entry Bytes32 × Entry Bytes32) : Bytes32 :=
  keccak256 (nodeText lr)

def Walk.entry (w : Walk) : Entry Bytes32 := ⟨w.currSize.toNat, w.currHash⟩

def siblings (l : List Step) : List (Sibling Bytes32) :=
  l.map fun step => ⟨step.bucketLeftOrRight = 0, step.bucketSize.toNat, step.bucketHash⟩

def total (l : List Step) : Nat := (l.map fun step => step.bucketSize.toNat).sum

/-- The sizes of the proof and of its leaf do not wrap around. -/
def Fits (proof : List UInt8) (leafStart leafEnd : UInt64) : Prop :=
  (leafEnd - leafStart).toNat + total (steps proof) < 2 ^ 64

theorem total_eq (l : List Step) : total l = ((siblings l).map fun s => s.entry.size).sum := by
  simp [total, siblings, Function.comp_def]

theorem offset_siblings_le (l : List Step) : offset (siblings l) ≤ total l := by
  induction l with
  | nil => exact Nat.le_refl 0
  | cons step l ih =>
    simp only [siblings, offset, total, List.map_cons, List.sum_cons] at ih ⊢
    split <;> omega

theorem foldl_entry (keccak256 : List UInt8 → Bytes32) (l : List Step) (w : Walk)
    (h : w.currSize.toNat + total l < 2 ^ 64) :
    (l.foldl (walkStep keccak256) w).entry = climb (nodeHash keccak256) w.entry (siblings l) := by
  induction l generalizing w with
  | nil => rfl
  | cons step l ih =>
    have htotal : total (step :: l) = step.bucketSize.toNat + total l := List.sum_cons
    have hsize : (walkStep keccak256 w step).currSize.toNat
        = w.currSize.toNat + step.bucketSize.toNat := by
      have hsum : (walkStep keccak256 w step).currSize = w.currSize + step.bucketSize := by
        unfold walkStep
        split <;> rfl
      rw [hsum, UInt64.toNat_add]
      exact Nat.mod_eq_of_lt (by omega)
    have hup : (walkStep keccak256 w step).entry = up (nodeHash keccak256) w.entry
        ⟨step.bucketLeftOrRight = 0, step.bucketSize.toNat, step.bucketHash⟩ := by
      unfold Walk.entry
      rw [hsize]
      by_cases hleft : step.bucketLeftOrRight = 0
      · simp [walkStep, up, pair, parent, nodeHash, nodeText, bucket, hleft, Nat.add_comm]
      · simp [walkStep, up, pair, parent, nodeHash, nodeText, bucket, hleft]
    rw [List.foldl_cons, ih _ (by omega), hup]
    rfl

theorem foldl_start (keccak256 : List UInt8 → Bytes32) (l : List Step) (w : Walk) :
    (l.foldl (walkStep keccak256) w).currStart
      = w.currStart + UInt64.ofNat (offset (siblings l)) := by
  induction l generalizing w with
  | nil => simp [siblings, offset]
  | cons step l ih =>
    have hoffset : offset (siblings (step :: l))
        = (if step.bucketLeftOrRight = 0 then step.bucketSize.toNat else 0) + offset (siblings l) := by
      simp [siblings, offset]
    rw [List.foldl_cons, ih, hoffset, UInt64.ofNat_add]
    by_cases hleft : step.bucketLeftOrRight = 0
    · simp [walkStep, hleft, UInt64.add_assoc]
    · simp [walkStep, hleft]

/-- What moves the end of the range moves its size the other way, or its start too:
the last comparison of `verify` never decides. -/
theorem foldl_end (keccak256 : List UInt8 → Bytes32) (l : List Step) (w : Walk) :
    (l.foldl (walkStep keccak256) w).currEnd + (l.foldl (walkStep keccak256) w).currSize
      - (l.foldl (walkStep keccak256) w).currStart
    = w.currEnd + w.currSize - w.currStart := by
  induction l generalizing w with
  | nil => rfl
  | cons step l ih =>
    rw [List.foldl_cons, ih]
    unfold walkStep
    split <;> grind

variable {rootHash leafHash leafHash' : Bytes32} {rootSize leafStart leafEnd leafStart' leafEnd' : UInt64}
  {proof' : List UInt8}

/-- Where a range that starts at `o` ends, when nothing wraps around. -/
theorem range_end {n o : Nat} (hsize : (leafEnd - leafStart).toNat + n < 2 ^ 64) (ho : leafStart.toNat = o)
    (hle : o ≤ n) : leafEnd.toNat = o + (leafEnd - leafStart).toNat := by
  have hend : leafEnd = leafStart + (leafEnd - leafStart) := by grind
  conv_lhs => rw [hend]
  rw [UInt64.toNat_add, ho]
  exact Nat.mod_eq_of_lt (by omega)

/-- **What `verify` accepts**, when nothing wraps around: a climb from the leaf to the
root, from where the leaf starts. -/
theorem verify_iff_climb (hfits : Fits proof leafStart leafEnd) :
    verify keccak256 proof rootHash rootSize leafHash leafStart leafEnd = .ok true ↔
      proof.length % 41 = 0 ∧
      climb (nodeHash keccak256) ⟨(leafEnd - leafStart).toNat, leafHash⟩ (siblings (steps proof))
        = ⟨rootSize.toNat, rootHash⟩ ∧
      leafStart.toNat = offset (siblings (steps proof)) := by
  rw [verify_iff]
  refine and_congr_right fun hlen => ?_
  have hentry := foldl_entry keccak256 (steps proof) ⟨leafEnd - leafStart, leafHash, 0, rootSize⟩ hfits
  have hstart := foldl_start keccak256 (steps proof) ⟨leafEnd - leafStart, leafHash, 0, rootSize⟩
  have hend := foldl_end keccak256 (steps proof) ⟨leafEnd - leafStart, leafHash, 0, rootSize⟩
  have hoffset : (UInt64.ofNat (offset (siblings (steps proof)))).toNat
      = offset (siblings (steps proof)) := by
    have hle := offset_siblings_le (steps proof)
    unfold Fits at hfits
    exact UInt64.toNat_ofNat_of_lt' (by show _ < 2 ^ 64; omega)
  generalize (steps proof).foldl (walkStep keccak256) _ = w at hentry hstart hend ⊢
  obtain ⟨size, hash, start, stop⟩ := w
  change (⟨size.toNat, hash⟩ : Entry Bytes32) = climb _ ⟨(leafEnd - leafStart).toNat, leafHash⟩ _ at hentry
  change start = 0 + _ at hstart
  change stop + size - start = rootSize + (leafEnd - leafStart) - 0 at hend
  rw [← hentry, ← hoffset, UInt64.toNat_inj, Walk.mk.injEq, Entry.mk.injEq, UInt64.toNat_inj]
  constructor
  · rintro ⟨rfl, rfl, rfl, rfl⟩
    exact ⟨⟨rfl, rfl⟩, by rw [hstart, UInt64.zero_add]⟩
  · rintro ⟨⟨rfl, rfl⟩, rfl⟩
    rw [UInt64.zero_add] at hstart
    subst hstart
    exact ⟨rfl, rfl, rfl, by grind⟩

end

/-! ## The results -/

/-- A sibling as a step of a proof. -/
def stepOf (s : Sibling Bytes32) : Step :=
  ⟨if s.left then 0 else 1, UInt64.ofNat s.entry.size, s.entry.hash⟩

theorem siblings_stepOf {p : List (Sibling Bytes32)} (h : ∀ s ∈ p, s.entry.size < 2 ^ 64) :
    siblings (p.map stepOf) = p := by
  induction p with
  | nil => rfl
  | cons s p ih =>
    have htail := ih fun s hs => h s (List.mem_cons_of_mem _ hs)
    have hsize : (UInt64.ofNat s.entry.size).toNat = s.entry.size :=
      UInt64.toNat_ofNat_of_lt' (h s List.mem_cons_self)
    obtain ⟨left, size, hash⟩ := s
    unfold siblings at htail ⊢
    rw [List.map_cons, List.map_cons, htail]
    cases left <;> simp [stepOf, hsize]

/-- **A leaf of a tree is accepted at its range**, if the sizes of the tree add up
within 64 bits. -/
theorem verify_complete (keccak256 : List UInt8 → Bytes32) {t : EntryTree Bytes32}
    (ht : (t.entry (nodeHash keccak256)).size < 2 ^ 64) {o : Nat} {e : Entry Bytes32}
    {p : List (Sibling Bytes32)} (h : (o, e, p) ∈ t.opens (nodeHash keccak256) 0) :
    verify keccak256 (encode (p.map stepOf)) (t.entry (nodeHash keccak256)).hash
      (UInt64.ofNat (t.entry (nodeHash keccak256)).size) e.hash (UInt64.ofNat o)
      (UInt64.ofNat (o + e.size)) = .ok true := by
  obtain ⟨hclimb, ho⟩ := opens_climb h
  rw [Nat.zero_add] at ho
  subst ho
  have hsum := climb_size (H := nodeHash keccak256) (e := e) (p := p)
  have hwithin := offset_add_size_le (H := nodeHash keccak256) (e := e) (p := p)
  rw [hclimb] at hsum hwithin
  have hsmall : ∀ s ∈ p, s.entry.size < 2 ^ 64 := by
    intro s hs
    have hle : s.entry.size ≤ (p.map fun s => s.entry.size).sum :=
      List.le_sum_of_mem (List.mem_map.mpr ⟨s, hs, rfl⟩)
    omega
  have hsteps := steps_encode (p.map stepOf)
  have hlen : (encode (p.map stepOf)).length % 41 = 0 := by simp
  generalize encode (p.map stepOf) = proof at hsteps hlen ⊢
  have hsiblings : siblings (steps proof) = p := by rw [hsteps, siblings_stepOf hsmall]
  have hsize : (UInt64.ofNat (offset p + e.size) - UInt64.ofNat (offset p)).toNat = e.size := by
    rw [UInt64.ofNat_add, show ∀ a b : UInt64, a + b - a = b by grind]
    exact UInt64.toNat_ofNat_of_lt' (show e.size < 2 ^ 64 by omega)
  have htotal : total (steps proof) = (p.map fun s => s.entry.size).sum := by
    rw [total_eq, hsiblings]
  refine (verify_iff_climb ?_).mpr ⟨hlen, ?_, ?_⟩
  · unfold Fits
    rw [hsize, htotal]
    omega
  · rw [hsize, hsiblings, hclimb, UInt64.toNat_ofNat_of_lt' ht]
  · rw [hsiblings]
    exact UInt64.toNat_ofNat_of_lt' (show offset p < 2 ^ 64 by omega)

theorem nodeText_inj {a b : Entry Bytes32 × Entry Bytes32} (ha : a.1.size < 2 ^ 64 ∧ a.2.size < 2 ^ 64)
    (hb : b.1.size < 2 ^ 64 ∧ b.2.size < 2 ^ 64) (h : nodeText a = nodeText b) : a = b := by
  obtain ⟨⟨n, x⟩, ⟨m, y⟩⟩ := a
  obtain ⟨⟨n', x'⟩, ⟨m', y'⟩⟩ := b
  simp only [nodeText, List.append_assoc] at h
  obtain ⟨hn, h⟩ := encodePacked_append_inj (k := 8) ha.1 hb.1 h
  obtain ⟨hx, h⟩ := encodePacked_append_inj (k := 32) x.isLt x'.isLt h
  obtain ⟨hm, h⟩ := encodePacked_append_inj (k := 8) ha.2 hb.2 h
  have hy := encodePacked_inj (k := 32) y.isLt y'.isLt h
  simp only at hn hm
  rw [hn, hm, BitVec.eq_of_toNat_eq hx, BitVec.eq_of_toNat_eq hy]

/-- What is claimed of a leaf: that it stands at a range, and why. -/
structure Claim where
  proof : List UInt8
  leafHash : Bytes32
  leafStart : UInt64
  leafEnd : UInt64

namespace Claim

variable (keccak256 : List UInt8 → Bytes32)

def Accepted (rootHash : Bytes32) (rootSize : UInt64) (c : Claim) : Prop :=
  verify keccak256 c.proof rootHash rootSize c.leafHash c.leafStart c.leafEnd = .ok true

/-- The texts hashed when the claim is checked, 80 bytes each. -/
def texts (c : Claim) : List (List UInt8) :=
  (pairs (nodeHash keccak256) ⟨(c.leafEnd - c.leafStart).toNat, c.leafHash⟩
    (siblings (steps c.proof))).map nodeText

/-- One range within the other, whose hash is no leaf's but a node's on the way. -/
def Within (c d : Claim) : Prop :=
  d.leafStart ≤ c.leafStart ∧ c.leafEnd ≤ d.leafEnd ∧ ∃ x ∈ c.texts keccak256, keccak256 x = d.leafHash

/-- The ranges are apart, or it is one leaf, or one of the two is above the other. -/
def Compatible (c d : Claim) : Prop :=
  c.leafEnd ≤ d.leafStart ∨ d.leafEnd ≤ c.leafStart ∨
  (c.leafHash = d.leafHash ∧ c.leafStart = d.leafStart ∧ c.leafEnd = d.leafEnd) ∨
  c.Within keccak256 d ∨ d.Within keccak256 c

/-- Two different texts, one hashed for each claim, with one hash. -/
def Collide (c d : Claim) : Prop :=
  ∃ x ∈ c.texts keccak256, ∃ y ∈ d.texts keccak256, x ≠ y ∧ keccak256 x = keccak256 y

end Claim

/-- **Two leaves under one root do not overlap.** If `verify` accepts both and nothing
wraps around, their ranges are apart, or they are the same leaf at the same range, or
one of them lies within the other and the other is no leaf: its hash is that of a
node on the way. Otherwise two texts that were hashed collide. -/
theorem verify_disjoint {keccak256 : List UInt8 → Bytes32} {rootHash : Bytes32} {rootSize : UInt64}
    {c d : Claim} (hc : c.Accepted keccak256 rootHash rootSize) (hd : d.Accepted keccak256 rootHash rootSize)
    (hcfits : Fits c.proof c.leafStart c.leafEnd) (hdfits : Fits d.proof d.leafStart d.leafEnd) :
    c.Compatible keccak256 d ∨ c.Collide keccak256 d := by
  obtain ⟨proof, leafHash, leafStart, leafEnd⟩ := c
  obtain ⟨proof', leafHash', leafStart', leafEnd'⟩ := d
  obtain ⟨-, hclimb, hstart⟩ := (verify_iff_climb hcfits).mp hc
  obtain ⟨-, hclimb', hstart'⟩ := (verify_iff_climb hdfits).mp hd
  have hend := range_end hcfits hstart (offset_siblings_le _)
  have hend' := range_end hdfits hstart' (offset_siblings_le _)
  have hroot := rootSize.toNat_lt
  simp only [Claim.Compatible, Claim.Within, Claim.Collide, Claim.texts] at hend hend' ⊢
  generalize (leafEnd - leafStart).toNat = n at hclimb hend ⊢
  generalize (leafEnd' - leafStart').toNat = n' at hclimb' hend' ⊢
  generalize siblings (steps proof) = p at hclimb hstart hend ⊢
  generalize siblings (steps proof') = p' at hclimb' hstart' hend' ⊢
  simp only [UInt64.le_iff_toNat_le, ← UInt64.toNat_inj, hstart, hstart', hend, hend', List.mem_map,
    exists_exists_and_eq_and]
  rcases climb_meet (hclimb.trans hclimb'.symm) with hcollision | hbefore | hafter | hpasses | hpasses
  · obtain ⟨a, ha, b, hb, hne, hhash⟩ := hcollision
    have hasize := size_le_of_mem_pairs ha
    have hbsize := size_le_of_mem_pairs hb
    rw [hclimb] at hasize
    rw [hclimb'] at hbsize
    simp only at hasize hbsize
    refine Or.inr ⟨a, ha, b, hb, fun htext => hne ?_, hhash⟩
    exact nodeText_inj ⟨by omega, by omega⟩ ⟨by omega, by omega⟩ htext
  · exact Or.inl (Or.inl hbefore)
  · exact Or.inl (Or.inr (Or.inl hafter))
  · have hrange := hpasses.range
    rcases hpasses.eq_or_hash with ⟨heq, hoffset⟩ | ⟨a, ha, hhash⟩
    · obtain ⟨hn, hhash⟩ := Entry.mk.inj heq
      exact Or.inl (Or.inr (Or.inr (Or.inl ⟨hhash, hoffset, by omega⟩)))
    · exact Or.inl (Or.inr (Or.inr (Or.inr (Or.inl ⟨hrange.1, hrange.2, a, ha, hhash⟩))))
  · have hrange := hpasses.range
    rcases hpasses.eq_or_hash with ⟨heq, hoffset⟩ | ⟨a, ha, hhash⟩
    · obtain ⟨hn, hhash⟩ := Entry.mk.inj heq
      exact Or.inl (Or.inr (Or.inr (Or.inl ⟨hhash.symm, hoffset.symm, by omega⟩)))
    · exact Or.inl (Or.inr (Or.inr (Or.inr (Or.inr ⟨hrange.1, hrange.2, a, ha, hhash⟩))))

/-- The two leaves of a tree of size 20. -/
def fifteenAndFive : EntryTree Bytes32 := .node (.leaf ⟨15, 1⟩) (.leaf ⟨5, 2⟩)

def fifteenClaim : Claim := ⟨encode [⟨1, 5, 2⟩], 1, 0, 15⟩

def fiveClaim : Claim := ⟨encode [⟨0, 15, 1⟩], 2, 15, 20⟩

theorem verify_complete_five :
    verify sumHash fiveClaim.proof (fifteenAndFive.entry (nodeHash sumHash)).hash 20 2 15 20 = .ok true :=
  verify_complete sumHash (t := fifteenAndFive) (o := 15) (e := ⟨5, 2⟩) (p := [⟨true, ⟨15, 1⟩⟩])
    (by decide) (by simp [fifteenAndFive, EntryTree.opens, EntryTree.entry])

theorem verify_disjoint_five :
    fifteenClaim.Compatible sumHash fiveClaim ∨ fifteenClaim.Collide sumHash fiveClaim := by
  have hfits : ∀ step : Step, ∀ n m : UInt64, (m - n).toNat + step.bucketSize.toNat < 2 ^ 64 →
      Fits (encode [step]) n m := by
    intro step n m h
    unfold Fits
    rw [steps_encode]
    exact h
  have hfifteen : fifteenClaim.Accepted sumHash (fifteenAndFive.entry (nodeHash sumHash)).hash 20 :=
    verify_iff.mpr ⟨rfl, by rw [fifteenClaim, steps_encode]; rfl⟩
  have hfive : fiveClaim.Accepted sumHash (fifteenAndFive.entry (nodeHash sumHash)).hash 20 :=
    verify_iff.mpr ⟨rfl, by rw [fiveClaim, steps_encode]; rfl⟩
  exact verify_disjoint hfifteen hfive (hfits _ _ _ (by decide)) (hfits _ _ _ (by decide))

/-- Sizes that wrap around put any two leaves at the same range of one root. -/
theorem verify_wrapped (keccak256 : List UInt8 → Bytes32) (a b c : Bytes32) (n : UInt64) :
    let ab := keccak256 (bucket n a ++ bucket (-n) b)
    let root := keccak256 (bucket 0 ab ++ bucket n c)
    verify keccak256 (encode [⟨1, -n, b⟩, ⟨1, n, c⟩]) root n a 0 n = .ok true ∧
      verify keccak256 (encode [⟨0, 0, ab⟩]) root n c 0 n = .ok true := by
  intro ab root
  have hzero : n + -n = 0 := by grind
  constructor
  · rw [verify_iff, steps_encode]
    refine ⟨by simp, ?_⟩
    simp [walkStep, root, ab, hzero]
  · rw [verify_iff, steps_encode]
    refine ⟨by simp, ?_⟩
    simp [walkStep, root]

end TinyEvm.MerkleSumTree
