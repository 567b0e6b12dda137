import Emuriscv.PhysicalMemory
import Emuriscv.Exception

/-! What the walker of `memory.c` guarantees below M mode with Sv32 enabled: the address it
computes, the entries it accepts and the permissions it ignores. The reference is the walk
on the 34-bit bus of the architecture. -/
namespace Emuriscv

/-- The walk on page tables that the memory map resolves to RAM. -/
def architecturalWalk (s : State) (virtualAddress : Word) : Sv32.Outcome :=
  Sv32.walk 34 (pteAt s) virtualAddress 1 (rootPpn s)

/-- The walk on physical memory, without reference to the lookup of the code. -/
def referenceWalk (s : State) (virtualAddress : Word) : Sv32.Outcome :=
  Sv32.walk 34 (physWord s) virtualAddress 1 (rootPpn s)

/-- The walk with every entry address cut to the 32 bits of `pte_addr`. -/
def busWalk (s : State) (virtualAddress : Word) : Sv32.Outcome :=
  Sv32.walk 32 (pteAt s) virtualAddress 1 (rootPpn s)

theorem pteAt_below {s : State} (address : Nat) (entry : Word) (h : pteAt s address = some entry) :
    address < 2 ^ 32 := by
  unfold pteAt at h
  split at h
  next small => exact small
  next => contradiction

theorem busWalk_eq (s : State) (virtualAddress : Word)
    (mapped : ∀ l a, architecturalWalk s virtualAddress ≠ .unmapped l a) :
    busWalk s virtualAddress = architecturalWalk s virtualAddress :=
  Sv32.walk_narrow (by decide) pteAt_below 1 (rootPpn s) mapped

/-- Is an address translated through page tables at all? -/
def Walks (s : State) : Prop := s.privilege ≠ privM ∧ getMemoryMode s ≠ satpModeBare

theorem translateAddress_direct {s : State} (direct : ¬Walks s) (virtualAddress : Word)
    (accessType : AccessType) :
    translateAddress s virtualAddress accessType = .ok ⟨translateOk, some virtualAddress, s⟩ := by
  rw [Walks,not_and_or,not_not,not_not] at direct
  rw [translateAddress]
  rcases direct with machine | bare
  · exact if_pos machine
  · rw [if_pos bare]
    exact ite_self _

theorem translateAddress_walks {s : State} (walks : Walks s) (virtualAddress : Word)
    (accessType : AccessType) :
    translateAddress s virtualAddress accessType =
      walkResult s virtualAddress accessType (busWalk s virtualAddress) := by
  rw [translateAddress,if_neg walks.1,if_neg walks.2,if_pos (memoryMode_sv32 walks.2),
    rootAddress_eq]
  exact translateLevels_eq s virtualAddress accessType 1 (rootPpn s)

theorem Paged.walks {s : State} (paged : Paged s) : Walks s := by
  constructor
  · rcases paged.privilege with h | h <;> rw [h] <;> decide
  · rw [paged.memoryMode]
    decide

/-- All the ways in which a translation returns. -/
theorem translateAddress_ok {s : State}
    (h : translateAddress s virtualAddress accessType = .ok t) :
    (¬Walks s ∧ t = ⟨translateOk, some virtualAddress, s⟩) ∨
    (Walks s ∧ (busWalk s virtualAddress).MeetsInvalid ∧ t = ⟨pageFault,none,s⟩) ∨
    (Walks s ∧ (busWalk s virtualAddress).Dangling ∧ t = ⟨translateOk,none,s⟩) ∨
    ∃ level address entry, Walks s ∧ busWalk s virtualAddress = .leaf level address entry ∧
      t = ⟨translateOk, some (leafPhysical level entry virtualAddress),
        markEntry s address entry accessType⟩ := by
  by_cases walks : Walks s
  · rw [translateAddress_walks walks] at h
    cases outcome : busWalk s virtualAddress with
    | unmapped level address =>
      rw [outcome] at h
      contradiction
    | invalid level address entry =>
      rw [outcome] at h
      exact Or.inr (Or.inl ⟨walks, ⟨level,address,entry,rfl⟩, (Except.ok.inj h).symm⟩)
    | dangling address entry =>
      rw [outcome] at h
      exact Or.inr (Or.inr (Or.inl ⟨walks, ⟨address,entry,rfl⟩, (Except.ok.inj h).symm⟩))
    | leaf level address entry =>
      rw [outcome] at h
      exact Or.inr (Or.inr (Or.inr ⟨level, address, entry, walks, rfl, (Except.ok.inj h).symm⟩))
  · rw [translateAddress_direct walks] at h
    exact Or.inl ⟨walks, (Except.ok.inj h).symm⟩

/-- A fault leaves the state as it was. -/
theorem translateAddress_fault {s : State}
    (h : translateAddress s virtualAddress accessType = .ok t) (fault : t.result = pageFault) :
    t.state = s := by
  rcases translateAddress_ok h with ⟨_,rfl⟩ | ⟨_,_,rfl⟩ | ⟨_,_,rfl⟩ | ⟨_,_,_,_,_,rfl⟩
  · rfl
  · rfl
  · rfl
  · contradiction

theorem translateAddress_leaf {s : State} (paged : Paged s) (accessType : AccessType)
    (walk : busWalk s virtualAddress = .leaf level address entry) :
    translateAddress s virtualAddress accessType =
      .ok ⟨translateOk, some (leafPhysical level entry virtualAddress),
        markEntry s address entry accessType⟩ := by
  rw [translateAddress_walks paged.walks,walk]
  rfl

/-- Page tables in RAM: the walk of the architecture decides the result. -/
theorem translateAddress_mapped {s : State} (paged : Paged s) (virtualAddress : Word)
    (accessType : AccessType) (mapped : ∀ l a, architecturalWalk s virtualAddress ≠ .unmapped l a) :
    translateAddress s virtualAddress accessType =
      walkResult s virtualAddress accessType (architecturalWalk s virtualAddress) := by
  rw [translateAddress_walks paged.walks,busWalk_eq s virtualAddress mapped]

/-- On separate ranges a leaf of the reference is the leaf that the code uses. -/
theorem busWalk_reference {s : State} (separate : Separate s.memoryMap)
    (reference : referenceWalk s virtualAddress = .leaf level address entry) :
    busWalk s virtualAddress = .leaf level address entry := by
  have same : architecturalWalk s virtualAddress = referenceWalk s virtualAddress := by
    rw [architecturalWalk,referenceWalk,pteAt_eq_physWord separate]
  rw [busWalk_eq,same,reference]
  intro l a
  rw [same,reference]
  exact Sv32.Outcome.noConfusion

/-- A malformed walk is refused, and a success has assigned `*physical_address`. -/
def RefusesMalformed (s : State) (virtualAddress : Word) (accessType : AccessType) : Prop :=
  ((architecturalWalk s virtualAddress).Malformed →
    ∃ t, translateAddress s virtualAddress accessType = .ok t ∧ t.result = pageFault) ∧
  ∀ t, translateAddress s virtualAddress accessType = .ok t → t.result = translateOk →
    t.physicalAddress ≠ none

/-- Two of the malformed shapes are accepted: a pointer at the last level leaves the loop
with the success code, and the alignment of a superpage is never tested. -/
theorem refusesMalformed_iff {s : State} (paged : Paged s) (virtualAddress : Word)
    (accessType : AccessType) (mapped : ∀ l a, architecturalWalk s virtualAddress ≠ .unmapped l a) :
    RefusesMalformed s virtualAddress accessType ↔
      ¬(architecturalWalk s virtualAddress).Dangling ∧
      ¬(architecturalWalk s virtualAddress).Misaligned := by
  unfold RefusesMalformed
  rw [translateAddress_mapped paged virtualAddress accessType mapped]
  cases outcome : architecturalWalk s virtualAddress with
  | unmapped level address => exact absurd outcome (mapped level address)
  | invalid level address entry =>
    simp [walkResult,Sv32.Outcome.Dangling,Sv32.Outcome.Misaligned,pageFault,translateOk]
  | dangling address entry =>
    simp [walkResult,Sv32.Outcome.Dangling,pageFault,translateOk]
  | leaf level address entry =>
    simp [walkResult,Sv32.Outcome.Malformed,Sv32.Outcome.MeetsInvalid,Sv32.Outcome.Dangling,
      Sv32.Outcome.Misaligned,pageFault,translateOk]

theorem guest_paged (below : privilege = privS ∨ privilege = privU) (words : List Word) :
    Paged (guest privilege words) := by
  refine ⟨below,?_⟩
  have satp : readCsr (guest privilege words) csrSatp = 0x80080000 := by simp [readCsr,guest]
  rw [satp]
  decide

/-- A root table that is its own last-level table. -/
def selfPointer : State := guest privS [0x20000001]

theorem selfPointer_paged : Paged selfPointer := guest_paged (Or.inl rfl) _

theorem selfPointer_walk : architecturalWalk selfPointer 0 = .dangling 0x80000000 0x20000001 := by
  decide

theorem selfPointer_mapped (l a : Nat) : architecturalWalk selfPointer 0 ≠ .unmapped l a := by
  rw [selfPointer_walk]
  exact Sv32.Outcome.noConfusion

theorem refusesMalformed_selfPointer :
    RefusesMalformed selfPointer 0 .load ↔
      ¬(architecturalWalk selfPointer 0).Dangling ∧
      ¬(architecturalWalk selfPointer 0).Misaligned :=
  refusesMalformed_iff selfPointer_paged 0 .load selfPointer_mapped

/-- The walk of a self-pointing root succeeds without an address. -/
theorem selfPointer_accepted :
    Paged selfPointer ∧ (∀ l a, architecturalWalk selfPointer 0 ≠ .unmapped l a) ∧
      (architecturalWalk selfPointer 0).Malformed ∧ ¬RefusesMalformed selfPointer 0 .load := by
  refine ⟨selfPointer_paged, selfPointer_mapped, Or.inr (Or.inl ⟨_,_,selfPointer_walk⟩), ?_⟩
  rintro ⟨_,assigned⟩
  refine assigned ⟨translateOk,none,selfPointer⟩ ?_ rfl rfl
  rw [translateAddress_mapped selfPointer_paged 0 .load selfPointer_mapped,selfPointer_walk]
  rfl

theorem and_not_of_and_eq_zero {a b : Word} (h : a &&& b = 0) : a &&& ~~~b = a := by
  apply BitVec.eq_of_getLsbD_eq
  intro i bound
  have bit : (a &&& b).getLsbD i = false := by
    rw [h]
    exact BitVec.getLsbD_zero
  rw [BitVec.getLsbD_and] at bit
  rw [BitVec.getLsbD_and,BitVec.getLsbD_not,decide_eq_true bound]
  cases low : a.getLsbD i with
  | false => rfl
  | true =>
    rw [low,Bool.true_and] at bit
    rw [bit]
    rfl

theorem vaddrMask_toNat {level : Nat} (top : level ≤ 1) :
    (((1 : Word) <<< (pageShift + 10 * level)) - 1).toNat = 2 ^ (12 + 10 * level) - 1 := by
  interval_cases level <;> rfl

/-- An aligned leaf below `2 ^ 32` yields its page and the offset, without truncation. -/
theorem leafPhysical_toNat {level : Nat} (top : level ≤ 1) (entry virtualAddress : Word)
    (aligned : Sv32.Pte.ppn entry % 2 ^ (10 * level) = 0) (low : Sv32.Pte.ppn entry < 2 ^ 20) :
    (leafPhysical level entry virtualAddress).toNat =
      Sv32.Pte.ppn entry * 2 ^ 12 + Sv32.pageOffset virtualAddress level := by
  obtain ⟨q,page⟩ := Nat.dvd_of_mod_eq_zero aligned
  have base : Sv32.Pte.ppn entry * 2 ^ 12 = 2 ^ (12 + 10 * level) * q := by
    rw [page,Nat.pow_add]
    ac_rfl
  have table : ((entry >>> 10) <<< pageShift).toNat = 2 ^ (12 + 10 * level) * q := by
    rw [nextTable,BitVec.toNat_ofNat,base,Nat.mod_eq_of_lt]
    omega
  have offset : (virtualAddress &&& (((1 : Word) <<< (pageShift + 10 * level)) - 1)).toNat =
      Sv32.pageOffset virtualAddress level := by
    rw [BitVec.toNat_and,vaddrMask_toNat top,Nat.and_two_pow_sub_one_eq_mod]
    rfl
  have cleared : (entry >>> 10) <<< pageShift &&& (((1 : Word) <<< (pageShift + 10 * level)) - 1) = 0 := by
    apply BitVec.eq_of_toNat_eq
    rw [BitVec.toNat_and,vaddrMask_toNat top,Nat.and_two_pow_sub_one_eq_mod,table,Nat.mul_mod_right]
    rfl
  have small : Sv32.pageOffset virtualAddress level < 2 ^ (12 + 10 * level) :=
    Nat.mod_lt _ (Nat.two_pow_pos _)
  simp only [leafPhysical]
  rw [and_not_of_and_eq_zero cleared,BitVec.or_comm,BitVec.toNat_or,offset,table,base,
    Nat.two_pow_add_eq_or_of_lt small]

/-- A well-formed leaf below `2 ^ 32` gives the address of the architecture. -/
theorem translateAddress_reference {s : State} (paged : Paged s) (separate : Separate s.memoryMap)
    (virtualAddress : Word) (accessType : AccessType)
    (reference : referenceWalk s virtualAddress = .leaf level address entry)
    (aligned : Sv32.Pte.ppn entry % 2 ^ (10 * level) = 0) (low : Sv32.Pte.ppn entry < 2 ^ 20) :
    ∃ t physical, translateAddress s virtualAddress accessType = .ok t ∧ t.result = translateOk ∧
      t.physicalAddress = some physical ∧
      physical.toNat = Sv32.Pte.ppn entry * 2 ^ 12 + Sv32.pageOffset virtualAddress level := by
  have walk := busWalk_reference separate reference
  have top := (Sv32.walk_leaf_read 1 (rootPpn s) walk).2.2.1
  exact ⟨_, leafPhysical level entry virtualAddress, translateAddress_leaf paged accessType walk,
    rfl, rfl, leafPhysical_toNat top entry virtualAddress aligned low⟩

theorem guest_separate (privilege : Word) (words : List Word) :
    Separate (guest privilege words).memoryMap := by
  refine ⟨?_, List.pairwise_singleton _ _⟩
  intro range member
  obtain rfl := List.mem_singleton.mp member
  decide

/-- The first 4 MiB map to the start of RAM, for every access in S mode. -/
def superpageEntry : Word := 0x200000cf

theorem translateAddress_superpage :
    ∃ t physical, translateAddress (guest privS [superpageEntry]) 0x1234 .load = .ok t ∧
      t.result = translateOk ∧ t.physicalAddress = some physical ∧
      physical.toNat = Sv32.Pte.ppn superpageEntry * 2 ^ 12 + Sv32.pageOffset 0x1234 1 :=
  translateAddress_reference (guest_paged (Or.inl rfl) _) (guest_separate _ _) 0x1234 .load
    (show _ = Sv32.Outcome.leaf 1 0x80000000 superpageEntry by decide) (by decide) (by decide)

/-- Does the leaf allow the access, with the modifiers that `mstatus` holds? -/
def leafPermits (s : State) (accessType : AccessType) (entry : Word) : Bool :=
  Sv32.Pte.permits entry accessType.toSv32 (s.privilege = privU)
    (readCsr s csrMstatus &&& mstatusSum ≠ 0) (readCsr s csrMstatus &&& mstatusMxr ≠ 0)

/-- Success comes from a leaf that permits the access, and anything else is a fault. -/
def EnforcesPermissions (s : State) (virtualAddress : Word) (accessType : AccessType) : Prop :=
  (∀ t, translateAddress s virtualAddress accessType = .ok t → t.result = translateOk →
    ∃ level address entry, busWalk s virtualAddress = .leaf level address entry ∧
      leafPermits s accessType entry = true) ∧
  ((∀ level address entry, busWalk s virtualAddress = .leaf level address entry →
      leafPermits s accessType entry = false) →
    ∃ t, translateAddress s virtualAddress accessType = .ok t ∧ t.result = pageFault)

/-- A readable page that nobody may write. -/
def readOnlyPage : State := guest privS [0x20000003]

theorem readOnlyPage_walk : busWalk readOnlyPage 0 = .leaf 1 0x80000000 0x20000003 := by decide

/-- A store to it is translated all the same. -/
theorem readOnlyPage_store : Paged readOnlyPage ∧ ¬EnforcesPermissions readOnlyPage 0 .store := by
  have paged : Paged readOnlyPage := guest_paged (Or.inl rfl) _
  refine ⟨paged,?_⟩
  rintro ⟨allowed,_⟩
  obtain ⟨_,_,_,leaf,permits⟩ :=
    allowed _ (translateAddress_leaf paged .store readOnlyPage_walk) rfl
  rw [readOnlyPage_walk] at leaf
  obtain ⟨rfl,rfl,rfl⟩ := Sv32.Outcome.leaf.inj leaf
  revert permits
  decide

/-- The part of a translation that its caller receives. -/
def Translation.answer (t : Translation) : Int × Option Word := (t.result, t.physicalAddress)

theorem walkResult_answer (s : State) (virtualAddress : Word) (accessType : AccessType)
    (outcome : Sv32.Outcome) (s' : State) (accessType' : AccessType)
    (map : s'.memoryMap = s.memoryMap) :
    (walkResult s' virtualAddress accessType' outcome).map Translation.answer =
      (walkResult s virtualAddress accessType outcome).map Translation.answer := by
  cases outcome with
  | unmapped level address => simp only [walkResult,map]
  | invalid level address entry => rfl
  | dangling address entry => rfl
  | leaf level address entry => rfl

/-- Every leaf is accepted and every invalid entry refused; which of the two it is, and
the address, depend on the page tables alone. -/
def IgnoresPermissions (s : State) (virtualAddress : Word) (accessType : AccessType) : Prop :=
  (∀ level address entry, busWalk s virtualAddress = .leaf level address entry →
    ∃ t, translateAddress s virtualAddress accessType = .ok t ∧ t.result = translateOk ∧
      t.physicalAddress = some (leafPhysical level entry virtualAddress)) ∧
  ((busWalk s virtualAddress).MeetsInvalid →
    ∃ t, translateAddress s virtualAddress accessType = .ok t ∧ t.result = pageFault) ∧
  (∀ t physical, translateAddress s virtualAddress accessType = .ok t → t.result = translateOk →
    t.physicalAddress = some physical →
    ∃ level address entry, busWalk s virtualAddress = .leaf level address entry) ∧
  ∀ s' accessType', Paged s' → s'.memoryMap = s.memoryMap → s'.ram = s.ram →
    readCsr s' csrSatp = readCsr s csrSatp →
    (translateAddress s' virtualAddress accessType').map Translation.answer =
      (translateAddress s virtualAddress accessType).map Translation.answer

theorem busWalk_congr {s s' : State} (map : s'.memoryMap = s.memoryMap) (ram : s'.ram = s.ram)
    (satp : readCsr s' csrSatp = readCsr s csrSatp) : busWalk s' = busWalk s := by
  have tables : pteAt s' = pteAt s := by
    funext address
    simp only [pteAt,map,deref_congr ram]
  funext virtualAddress
  rw [busWalk,busWalk,tables,rootPpn,rootPpn,satp]

theorem translateAddress_ignores_permissions {s : State} (paged : Paged s) (virtualAddress : Word)
    (accessType : AccessType) : IgnoresPermissions s virtualAddress accessType := by
  refine ⟨?_,?_,?_,?_⟩
  · intro level address entry leaf
    exact ⟨_, translateAddress_leaf paged accessType leaf, rfl, rfl⟩
  · rintro ⟨level,address,entry,invalid⟩
    refine ⟨⟨pageFault,none,s⟩, ?_, rfl⟩
    rw [translateAddress_walks paged.walks,invalid]
    rfl
  · intro t physical translated ok assigned
    rcases translateAddress_ok translated with
      ⟨direct,_⟩ | ⟨_,_,rfl⟩ | ⟨_,_,rfl⟩ | ⟨level,address,entry,_,leaf,_⟩
    · exact absurd paged.walks direct
    · contradiction
    · contradiction
    · exact ⟨level,address,entry,leaf⟩
  · intro s' accessType' paged' map ram satp
    rw [translateAddress_walks paged'.walks,translateAddress_walks paged.walks,busWalk_congr map ram satp]
    exact walkResult_answer s virtualAddress accessType _ s' accessType' map

theorem translateAddress_readOnly : IgnoresPermissions readOnlyPage 0 .store :=
  translateAddress_ignores_permissions (guest_paged (Or.inl rfl) _) 0 .store

end Emuriscv
