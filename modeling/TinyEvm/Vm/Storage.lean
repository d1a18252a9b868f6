import TinyEvm.Lib.Replay
import TinyEvm.Uint256.Arith
import TinyEvm.Vm.Memory

/-!
# Storage

`SSTORE` and `SLOAD` narrow a 256-bit key to its lowest limb and compare that with
`STORAGE_SPACE` by `>`. So a key names the slot of its lowest limb if that is below
64; at 64 the access is one past the array; above, the store is dropped and the load
pushes nothing, both with the status of success. No key is ever rejected.

`evmStorage` is the map on whole keys the EVM asks for, a replay of the stores over
zeros, and the array of the interpreter is the replay of the same stores under their
lowest limbs (`storeAll_ok`). The two agree on a key exactly where the keys in use are
held apart by the array (`storage_iff`).
-/

namespace TinyEvm

open Lib.Buffer Lib.Exec Lib.Replay

/-- The lowest limb of a key, all the interpreter looks at. -/
def Uint256.low (key : Uint256) : Nat := key.lower.lower.toNat

/-- The slot of `STORAGE` a key names. -/
def Uint256.storageSlot (key : Uint256) : Option (Fin storageSpace) :=
  if h : key.low < storageSpace then some ⟨key.low, h⟩ else none

/-- An `SSTORE`: its key and its value. -/
abbrev Store := Uint256 × Uint256

/-- What the map on 256-bit keys holds at `key` after the stores of `p`, from all zeros. -/
def evmStorage (p : List Store) (key : Uint256) : Uint256 :=
  replay (fun x j => x.1.val == j) (fun x _ => x.2) (fun _ => clear256) p key.val

/-- The content of the array after the stores of `p`, by index. -/
def nativeStorage (before : Nat → Uint256) (p : List Store) : Nat → Uint256 :=
  replay (fun x j => x.1.low == j) (fun x _ => x.2) before p

/-! ## The machine -/

/-- Push the operands of each store and decode `SSTORE`; a negative status ends the
sequence with `false`. -/
def storeAll (c : Code) : List Store → VmM Bool
  | [] => return true
  | x :: p => do
    stackPush x.2
    stackPush x.1
    let status ← decodeInstruction 0x55 c
    if status < 0 then return false
    else storeAll c p

/-- Push a key and decode `SLOAD`; `false` if its status is negative. -/
def loadKey (c : Code) (key : Uint256) : VmM Bool := do
  stackPush key
  let status ← decodeInstruction 0x54 c
  return decide (0 ≤ status)

/-- The stores of `p` and a load of `key`; `false` if a status was negative. -/
def storeThenLoad (c : Code) (p : List Store) (key : Uint256) : VmM Bool := do
  let held ← storeAll c p
  if held then loadKey c key else return false

/-- Different keys do not name the same slot. -/
def KeysApart (keys : List Uint256) : Prop :=
  ∀ k ∈ keys, ∀ k' ∈ keys, k ≠ k' → ∀ i, k.storageSlot = some i → k'.storageSlot ≠ some i

/-- **Storage is a map on 256-bit keys**: no access leaves the array, a load after
stores that were all held pushes the value of the map, and no two keys in use share a
slot. -/
def StorageMeets (c : Code) (p : List Store) (key : Uint256) (s : Vm) : Prop :=
  (∃ held s', storeThenLoad c p key s = .ok held s' ∧
    (held = true → s'.sp = s.sp + 1 ∧ s'.slot (s.sp + 1) = evmStorage p key)) ∧
  KeysApart (key :: p.map Prod.fst)

/-- The keys in use are held apart: none is the bound itself, the one that is loaded
is below it, and different ones below it have different lowest limbs. -/
def KeysHeld (p : List Store) (key : Uint256) : Prop :=
  (∀ k ∈ key :: p.map Prod.fst, k.low ≠ storageSpace) ∧ key.low < storageSpace ∧
    ∀ k ∈ key :: p.map Prod.fst, ∀ k' ∈ key :: p.map Prod.fst,
      k.low = k'.low → k.low < storageSpace → k = k'

/-- A machine with all-zero storage and room for two operands. -/
structure StorageStart (s : Vm) : Prop where
  zero : ∀ i, s.storage i = clear256
  sp_nonneg : 0 ≤ s.sp
  room : s.sp ≤ 93

/-! ## One instruction -/

/-- The array after a store; a key above the array changes nothing. -/
def storeSlot (storage : Fin storageSpace → Uint256) (x : Store) : Fin storageSpace → Uint256 :=
  fun i => if x.1.low = i then x.2 else storage i

theorem opSstore_ok {s : Vm} (h : InStack s.sp) (h' : InStack (s.sp - 1))
    (hkey : (s.slot s.sp).low ≠ storageSpace) :
    opSstore s = .ok 0 { s.popped.popped with
      storage := storeSlot s.storage (s.slot s.sp, s.slot (s.sp - 1))
      maxStorageCounter := s.maxStorageCounter + 1
      gasCharge := s.gasCharge + gasTable.sstoreSetGas } := by
  unfold opSstore
  rw [bind_ok (stackPopLow_ok h)]
  simp only
  rw [bind_ok (stackPop_ok (s := s.popped) h'), modify_bind]
  by_cases hgt : (s.slot s.sp).lower.lower.toNat > storageSpace
  -- the store is dropped: no index of the array is the key
  · rw [if_pos hgt]
    have hsame : storeSlot s.storage (s.slot s.sp, s.slot (s.sp - 1)) = s.storage := by
      funext i
      refine if_neg ?_
      have hi := i.isLt
      unfold Uint256.low
      simp only
      omega
    rw [hsame]
    rfl
  · have hlt : (s.slot s.sp).lower.lower.toNat < storageSpace := by
      unfold Uint256.low at hkey
      omega
    have hpoke : poke s.storage ⟨(s.slot s.sp).lower.lower.toNat, hlt⟩ (s.slot (s.sp - 1))
        = storeSlot s.storage (s.slot s.sp, s.slot (s.sp - 1)) := by
      funext i
      unfold poke storeSlot Uint256.low
      simp only [Fin.ext_iff, eq_comm]
    rw [if_neg hgt, dif_pos hlt, ← hpoke]
    rfl

theorem opSstore_fault {s : Vm} (h : InStack s.sp) (h' : InStack (s.sp - 1))
    (hkey : (s.slot s.sp).low = storageSpace) :
    ∃ s', opSstore s = .error (.storage storageSpace) s' := by
  unfold Uint256.low at hkey
  unfold opSstore
  rw [bind_ok (stackPopLow_ok h)]
  rw [bind_ok (stackPop_ok (s := s.popped) h'), modify_bind, if_neg (by omega), dif_neg (by omega),
    hkey]
  exact ⟨_, rfl⟩

/-- An `SSTORE` that returns has found two operands, and a key other than `STORAGE_SPACE`. -/
theorem opSstore_finds {s s' : Vm} {status : Int} (hrun : opSstore s = .ok status s') :
    InStack s.sp ∧ InStack (s.sp - 1) ∧ (s.slot s.sp).low ≠ storageSpace := by
  by_cases hin : InStack s.sp
  · by_cases hin' : InStack (s.sp - 1)
    · refine ⟨hin, hin', ?_⟩
      intro hkey
      obtain ⟨s₁, hfault⟩ := opSstore_fault hin hin' hkey
      rw [hfault] at hrun
      cases hrun
    · unfold opSstore at hrun
      rw [bind_ok (stackPopLow_ok hin)] at hrun
      rw [bind_error (stackPop_fault (s := s.popped) hin')] at hrun
      cases hrun
  · unfold opSstore stackPopLow at hrun
    rw [bind_error (bind_error (stackPop_fault hin) _)] at hrun
    cases hrun

theorem opSload_ok {s : Vm} {i : Fin storageSpace} (h : InStack s.sp)
    (hkey : (s.slot s.sp).low = i) :
    opSload s = .ok 0 (s.popped.pushed (s.storage i)) := by
  unfold Uint256.low at hkey
  have hi := i.isLt
  unfold opSload
  rw [bind_ok (stackPopLow_ok h)]
  rw [get_bind, if_neg (by omega), dif_pos (by omega),
    bind_ok (stackPush_ok _ (Vm.room_popped h))]
  have hindex : (⟨(s.slot s.sp).lower.lower.toNat, by omega⟩ : Fin storageSpace) = i := Fin.ext hkey
  rw [hindex]
  rfl

theorem opSload_skip {s : Vm} (h : InStack s.sp) (hkey : storageSpace < (s.slot s.sp).low) :
    opSload s = .ok 0 s.popped := by
  unfold Uint256.low at hkey
  unfold opSload
  rw [bind_ok (stackPopLow_ok h)]
  rw [get_bind, if_pos hkey]
  rfl

theorem opSload_fault {s : Vm} (h : InStack s.sp) (hkey : (s.slot s.sp).low = storageSpace) :
    ∃ s', opSload s = .error (.storage storageSpace) s' := by
  unfold Uint256.low at hkey
  unfold opSload
  rw [bind_ok (stackPopLow_ok h)]
  rw [get_bind, if_neg (by omega), dif_neg (by omega), hkey]
  exact ⟨_, rfl⟩

/-! ## A sequence of stores -/

theorem storeSlot_eq (storage : Fin storageSpace → Uint256) (x : Store) (i : Fin storageSpace) :
    storeSlot storage x i
      = overwrite (fun x j => x.1.low == j) (fun x _ => x.2) (peek storage clear256) x i := by
  unfold storeSlot overwrite
  rw [peek_of_lt _ _ i.isLt]
  exact if_congr (by rw [beq_iff_eq]) rfl rfl

/-- The replay of the array only looks at the addresses it reads. -/
theorem nativeStorage_congr {before before' : Nat → Uint256} {j : Nat} (h : before j = before' j)
    (p : List Store) : nativeStorage before p j = nativeStorage before' p j := by
  unfold nativeStorage
  rw [replay_eq, replay_eq, h]

/-- One store of the sequence, when its key is not the bound. -/
theorem store_ok {c : Code} {s : Vm} (x : Store) (h0 : 0 ≤ s.sp) (h : s.sp ≤ 93)
    (hkey : x.1.low ≠ storageSpace) (p : List Store) :
    ∃ s', storeAll c (x :: p) s = storeAll c p s' ∧ s'.sp = s.sp ∧
      s'.storage = storeSlot s.storage x := by
  obtain ⟨htop, hsecond, hk, hv⟩ := operands (s := s) x.2 x.1 h0 h
  have hrun : decodeInstruction 0x55 c ((s.pushed x.2).pushed x.1) = _ :=
    opSstore_ok htop hsecond (by rw [hk]; exact hkey)
  rw [hk, hv] at hrun
  refine ⟨_, (pushTwo_ok x.2 x.1 h0 h _).trans (bind_ok hrun _), ?_, rfl⟩
  show s.sp + 1 + 1 - 1 - 1 = s.sp
  omega

/-- A store whose key is the bound leaves the array. -/
theorem store_fault {c : Code} {s : Vm} (x : Store) (h0 : 0 ≤ s.sp) (h : s.sp ≤ 93)
    (hkey : x.1.low = storageSpace) (p : List Store) :
    ∃ s', storeAll c (x :: p) s = .error (.storage storageSpace) s' := by
  obtain ⟨htop, hsecond, hk, -⟩ := operands (s := s) x.2 x.1 h0 h
  obtain ⟨s', hfault⟩ := opSstore_fault htop hsecond (by rw [hk]; exact hkey)
  have hrun : decodeInstruction 0x55 c ((s.pushed x.2).pushed x.1) = _ := hfault
  exact ⟨s', (pushTwo_ok x.2 x.1 h0 h _).trans (bind_error hrun _)⟩

/-- **Stores replay under their lowest limbs.** No store is rejected. -/
theorem storeAll_ok {c : Code} : ∀ (p : List Store) {s : Vm}, 0 ≤ s.sp → s.sp ≤ 93 →
    (∀ x ∈ p, x.1.low ≠ storageSpace) →
    ∃ s', storeAll c p s = .ok true s' ∧ s'.sp = s.sp ∧
      ∀ i : Fin storageSpace, s'.storage i = nativeStorage (peek s.storage clear256) p i := by
  intro p
  induction p with
  | nil =>
    intro s _ _ _
    exact ⟨s, rfl, rfl, fun i => (peek_of_lt _ _ i.isLt).symm⟩
  | cons x p ih =>
    intro s h0 h hkeys
    obtain ⟨s₁, hfirst, hsp₁, hstorage₁⟩ :=
      store_ok (c := c) x h0 h (hkeys x List.mem_cons_self) p
    obtain ⟨s', hrest, hsp', hstorage'⟩ := ih (s := s₁) (by omega) (by omega)
      fun y hy => hkeys y (List.mem_cons_of_mem x hy)
    refine ⟨s', hfirst.trans hrest, by omega, ?_⟩
    intro i
    rw [hstorage' i]
    refine nativeStorage_congr ?_ p
    rw [peek_of_lt _ _ i.isLt, hstorage₁]
    exact storeSlot_eq s.storage x i

/-- A sequence that returns has no store at the bound. -/
theorem storeAll_keys {c : Code} : ∀ (p : List Store) {s : Vm}, 0 ≤ s.sp → s.sp ≤ 93 →
    ∀ {held : Bool} {s' : Vm}, storeAll c p s = .ok held s' → ∀ x ∈ p, x.1.low ≠ storageSpace := by
  intro p
  induction p with
  | nil =>
    intro s _ _ held s' _ x hx
    cases hx
  | cons x p ih =>
    intro s h0 h held s' hrun
    have hkey : x.1.low ≠ storageSpace := by
      intro hbound
      obtain ⟨s₁, hfault⟩ := store_fault (c := c) x h0 h hbound p
      rw [hfault] at hrun
      cases hrun
    obtain ⟨s₁, hfirst, hsp₁, -⟩ := store_ok (c := c) x h0 h hkey p
    rw [hfirst] at hrun
    intro y hy
    rcases List.mem_cons.mp hy with rfl | hrest
    · exact hkey
    · exact ih (s := s₁) (by omega) (by omega) hrun y hrest

/-! ## The load -/

theorem top_pushed {s : Vm} (w : Uint256) (hin : InStack (s.sp + 1)) :
    (s.pushed w).slot (s.pushed w).sp = w :=
  Vm.slot_pushed_same w hin rfl

theorem loadKey_ok {c : Code} {s : Vm} {k : Uint256} {i : Fin storageSpace}
    (hin : InStack (s.sp + 1)) (hkey : k.low = i) :
    ∃ s', loadKey c k s = .ok true s' ∧ s'.sp = s.sp + 1 ∧ s'.slot (s.sp + 1) = s.storage i := by
  have hrun : decodeInstruction 0x54 c (s.pushed k) = _ :=
    opSload_ok (i := i) hin (by rw [top_pushed k hin]; exact hkey)
  refine ⟨_, (bind_ok (stackPush_ok k hin) _).trans (bind_ok hrun _), ?_, ?_⟩
  · show s.sp + 1 - 1 + 1 = s.sp + 1
    omega
  · refine Vm.slot_pushed_same _ hin ?_
    show s.sp + 1 = s.sp + 1 - 1 + 1
    omega

/-- A key above the array pushes nothing. -/
theorem loadKey_skip {c : Code} {s : Vm} {key : Uint256} (hin : InStack (s.sp + 1))
    (hkey : storageSpace < key.low) : ∃ s', loadKey c key s = .ok true s' ∧ s'.sp = s.sp := by
  have hrun : decodeInstruction 0x54 c (s.pushed key) = _ :=
    opSload_skip hin (by rw [top_pushed key hin]; exact hkey)
  refine ⟨_, (bind_ok (stackPush_ok key hin) _).trans (bind_ok hrun _), ?_⟩
  show s.sp + 1 - 1 = s.sp
  omega

theorem loadKey_fault {c : Code} {s : Vm} {key : Uint256} (hin : InStack (s.sp + 1))
    (hkey : key.low = storageSpace) :
    ∃ s', loadKey c key s = .error (.storage storageSpace) s' := by
  obtain ⟨s', hfault⟩ := opSload_fault (s := s.pushed key) hin (by rw [top_pushed key hin]; exact hkey)
  have hrun : decodeInstruction 0x54 c (s.pushed key) = _ := hfault
  exact ⟨s', (bind_ok (stackPush_ok key hin) _).trans (bind_error hrun _)⟩

/-! ## The map and the array -/

/-- Where the keys in use are held apart, the map and the array agree on a key. -/
theorem evmStorage_eq {p : List Store} {key : Uint256}
    (hlow : ∀ x ∈ p, x.1.low = key.low → x.1 = key) :
    nativeStorage (fun _ => clear256) p key.low = evmStorage p key := by
  have hfilter : lastWriter (fun (x : Store) j => x.1.low == j) p key.low
      = lastWriter (fun (x : Store) j => x.1.val == j) p key.val := by
    unfold lastWriter
    refine congrArg List.getLast? (List.filter_congr ?_)
    intro x hx
    rw [Bool.eq_iff_iff, beq_iff_eq, beq_iff_eq]
    refine ⟨fun h => congrArg Uint256.val (hlow x hx h), fun h => ?_⟩
    exact congrArg Uint256.low (Uint256.val_inj h)
  unfold nativeStorage evmStorage
  rw [replay_eq, replay_eq, hfilter]

theorem keysApart_iff {keys : List Uint256} : KeysApart keys ↔
    ∀ k ∈ keys, ∀ k' ∈ keys, k.low = k'.low → k.low < storageSpace → k = k' := by
  refine ⟨?_, ?_⟩
  · intro hapart k hk k' hk' hlow hlt
    by_contra hne
    have hslot : k.storageSlot = some ⟨k.low, hlt⟩ := dif_pos hlt
    refine hapart k hk k' hk' hne _ hslot ?_
    unfold Uint256.storageSlot
    rw [dif_pos (hlow ▸ hlt)]
    exact congrArg some (Fin.ext hlow.symm)
  · intro hheld k hk k' hk' hne i hi hi'
    unfold Uint256.storageSlot at hi hi'
    split at hi
    next hlt =>
      split at hi'
      next hlt' =>
        have hlow : k.low = i := congrArg Fin.val (Option.some.inj hi)
        have hlow' : k'.low = i := congrArg Fin.val (Option.some.inj hi')
        exact hne (hheld k hk k' hk' (hlow.trans hlow'.symm) hlt)
      next => cases hi'
    next => cases hi

theorem storageMeets_of_held {c : Code} {p : List Store} {key : Uint256} {s : Vm}
    (hs : StorageStart s) (hheld : KeysHeld p key) : StorageMeets c p key s := by
  obtain ⟨hbound, hlt, hapart⟩ := hheld
  have h0 := hs.sp_nonneg
  have hroom := hs.room
  refine ⟨?_, keysApart_iff.mpr hapart⟩
  obtain ⟨s₁, hstores, hsp₁, hstorage₁⟩ := storeAll_ok (c := c) p h0 hroom
    fun x hx => hbound x.1 (List.mem_cons_of_mem key (List.mem_map_of_mem hx))
  obtain ⟨s', hload, hsp', hslot'⟩ := loadKey_ok (c := c) (s := s₁) (i := ⟨key.low, hlt⟩)
    (inStack_of_le (by omega) (by omega)) rfl
  refine ⟨true, s', (bind_ok hstores _).trans hload, fun _ => ⟨by omega, ?_⟩⟩
  rw [hsp₁, hstorage₁] at hslot'
  rw [hslot']
  refine (nativeStorage_congr ?_ p).trans (evmStorage_eq ?_)
  · exact (peek_of_lt _ _ hlt).trans (hs.zero _)
  · intro x hx hlow
    exact hapart x.1 (List.mem_cons_of_mem key (List.mem_map_of_mem hx)) key List.mem_cons_self hlow
      (hlow ▸ hlt)

theorem held_of_storageMeets {c : Code} {p : List Store} {key : Uint256} {s : Vm}
    (hs : StorageStart s) (hmeets : StorageMeets c p key s) : KeysHeld p key := by
  obtain ⟨⟨held, s', hrun, hpushed⟩, hapart⟩ := hmeets
  have h0 := hs.sp_nonneg
  have hroom := hs.room
  obtain ⟨ok, s₁, hstores, hload⟩ := bind_eq_ok.mp hrun
  have hkeys := storeAll_keys p h0 hroom hstores
  -- no store is rejected, so the load takes place
  obtain ⟨s₂, hstores', hsp₂, -⟩ := storeAll_ok (c := c) p h0 hroom hkeys
  rw [hstores] at hstores'
  cases hstores'
  have hin : InStack (s₁.sp + 1) := inStack_of_le (by omega) (by omega)
  have hload' : loadKey c key s₁ = .ok held s' := hload
  have hlt : key.low < storageSpace := by
    rcases Nat.lt_trichotomy key.low storageSpace with hlt | heq | hgt
    · exact hlt
    · obtain ⟨s₃, hfault⟩ := loadKey_fault (c := c) hin heq
      rw [hfault] at hload'
      cases hload'
    · obtain ⟨s₃, hskip, hsp₃⟩ := loadKey_skip (c := c) hin hgt
      rw [hskip] at hload'
      cases hload'
      have hsp' := (hpushed rfl).1
      omega
  refine ⟨?_, hlt, keysApart_iff.mp hapart⟩
  intro k hk
  rcases List.mem_cons.mp hk with rfl | hrest
  · omega
  · obtain ⟨x, hx, rfl⟩ := List.mem_map.mp hrest
    exact hkeys x hx

/-- **Storage.** From all-zero storage the machine is a map on 256-bit keys exactly
where the keys in use are held apart. -/
theorem storage_iff {c : Code} {p : List Store} {key : Uint256} {s : Vm} (hs : StorageStart s) :
    StorageMeets c p key s ↔ KeysHeld p key :=
  ⟨held_of_storageMeets hs, storageMeets_of_held hs⟩

theorem storageStart_zeroed : StorageStart Vm.zeroed := ⟨fun _ => rfl, by decide, by decide⟩

/-- A store to key 3 and a load of key 3. -/
theorem storage_iff_three :
    StorageMeets ⟨[0x00], by decide⟩ [(lowWord 3, lowWord 7)] (lowWord 3) Vm.zeroed := by
  refine (storage_iff storageStart_zeroed).mpr ⟨?_, by decide, ?_⟩
  · intro k hk
    obtain rfl : k = lowWord 3 := by simpa using hk
    decide
  · intro k hk k' hk' _ _
    have hk₁ : k = lowWord 3 := by simpa using hk
    have hk₂ : k' = lowWord 3 := by simpa using hk'
    rw [hk₁, hk₂]

/-- A store of 7 to `2^64 + 3`. -/
def farStore : List Store := [(⟨clear128, ⟨1, 3⟩⟩, lowWord 7)]

/-- It is read back under key 3, where the map holds zero. -/
theorem storage_aliases :
    (∃ s', storeThenLoad ⟨[0x00], by decide⟩ farStore (lowWord 3) Vm.zeroed = .ok true s' ∧
      s'.slot 1 = lowWord 7) ∧ evmStorage farStore (lowWord 3) = clear256 ∧
    ¬StorageMeets ⟨[0x00], by decide⟩ farStore (lowWord 3) Vm.zeroed := by
  have hrun : ∃ s', storeThenLoad ⟨[0x00], by decide⟩ farStore (lowWord 3) Vm.zeroed = .ok true s' ∧
      s'.slot 1 = lowWord 7 := by
    obtain ⟨s₁, hstores, hsp₁, hstorage₁⟩ := storeAll_ok (c := ⟨[0x00], by decide⟩) farStore
      (s := Vm.zeroed) (by decide) (by decide) (by decide)
    have hsp₁ : s₁.sp = 0 := hsp₁
    obtain ⟨s', hload, -, hslot⟩ := loadKey_ok (c := ⟨[0x00], by decide⟩) (s := s₁) (k := lowWord 3)
      (i := 3) (by rw [hsp₁]; decide) (by decide)
    rw [hsp₁] at hslot
    refine ⟨s', (bind_ok hstores _).trans hload, hslot.trans ((hstorage₁ 3).trans ?_)⟩
    decide
  have hzero : evmStorage farStore (lowWord 3) = clear256 := by decide
  refine ⟨hrun, hzero, ?_⟩
  intro hmeets
  obtain ⟨s₁, hrun₁, hslot₁⟩ := hrun
  obtain ⟨⟨held, s', hrun', hpushed⟩, -⟩ := hmeets
  rw [hrun₁] at hrun'
  cases hrun'
  have hslot := (hpushed rfl).2
  rw [hzero] at hslot
  have hslot := hslot₁.symm.trans hslot
  exact absurd hslot (by decide)

end TinyEvm
