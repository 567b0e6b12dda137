import Emuriscv.PageWalk
import Emuriscv.Decode

/-! Accessed and dirty flags. The walker writes into the page tables that it reads, but
only into the leaf where its walk ends, which no pointer of the same walk can be. -/
namespace Emuriscv

/-- Words found at different aligned addresses do not overlap. -/
theorem wordLocation_apart {map : MemoryMap} {a b : Nat} {p q : WordPtr}
    (first : wordLocation map (BitVec.ofNat 32 a) = some p)
    (second : wordLocation map (BitVec.ofNat 32 b) = some q) (apart : b ≠ a)
    (smallA : a < 2 ^ 32) (smallB : b < 2 ^ 32) (alignedA : a % 4 = 0) (alignedB : b % 4 = 0)
    (same : q.buffer = p.buffer) : q.offset + 4 ≤ p.offset ∨ p.offset + 4 ≤ q.offset := by
  obtain ⟨rangeA,foundA,_,rfl,_⟩ := wordLocation_some first
  obtain ⟨rangeB,foundB,_,rfl,_⟩ := wordLocation_some second
  have entryA := (getPhysMemRange_spec foundA).1
  have entryB := (getPhysMemRange_spec foundB).1
  have index : rangeB.index = rangeA.index := same
  have entries : rangeB.entry = rangeA.entry := by
    rw [index,entryA] at entryB
    exact (Option.some.inj entryB).symm
  have bound := rangeA.entry.address.isLt
  simp only [entries,BitVec.toNat_sub,BitVec.toNat_ofNat]
  omega

/-- A leaf of the walk is a located, aligned word of the page tables. -/
theorem busWalk_leaf_located {s : State} (leaf : busWalk s virtualAddress = .leaf level address entry) :
    address < 2 ^ 32 ∧ address % 4 = 0 ∧
      ∃ p, wordLocation s.memoryMap (BitVec.ofNat 32 address) = some p ∧ deref s p = entry := by
  obtain ⟨read,_,_,table,place⟩ := Sv32.walk_leaf_read 1 (rootPpn s) leaf
  have small := pteAt_below address entry read
  refine ⟨small, by rw [place]; exact Sv32.entryAddress_aligned (by decide) level table, ?_⟩
  rw [pteAt,if_pos small] at read
  exact Option.map_eq_some_iff.mp read

theorem markEntry_located {s : State}
    (located : wordLocation s.memoryMap (BitVec.ofNat 32 address) = some p) :
    markEntry s address entry accessType = putWord s p (Sv32.Pte.mark entry accessType.toSv32) := by
  simp only [markEntry,located]

/-- An entry that already carries the flags is left as it is. -/
theorem markEntry_twice {s : State}
    (located : wordLocation s.memoryMap (BitVec.ofNat 32 address) = some p) :
    markEntry (markEntry s address entry accessType) address
        (Sv32.Pte.mark entry accessType.toSv32) accessType =
      markEntry s address entry accessType := by
  have marked : markEntry s address entry accessType =
      putWord s p (Sv32.Pte.mark entry accessType.toSv32) := markEntry_located located
  have found : wordLocation (putWord s p (Sv32.Pte.mark entry accessType.toSv32)).memoryMap
      (BitVec.ofNat 32 address) = some p := by
    rw [putWord_memoryMap,located]
  have word := putWord_deref (putWord s p (Sv32.Pte.mark entry accessType.toSv32)) p
  rw [deref_putWord] at word
  rw [marked,markEntry_located found,Sv32.mark_mark,word]

theorem pteAt_putWord_self {s : State} (located : wordLocation s.memoryMap (BitVec.ofNat 32 address) = some p)
    (small : address < 2 ^ 32) (value : Word) :
    pteAt (putWord s p value) address = some value := by
  rw [pteAt,if_pos small,putWord_memoryMap,located,Option.map_some,deref_putWord]

theorem pteAt_putWord_other {s : State} (located : wordLocation s.memoryMap (BitVec.ofNat 32 a) = some p)
    (smallA : a < 2 ^ 32) (alignedA : a % 4 = 0) (alignedB : b % 4 = 0) (apart : b ≠ a) (value : Word) :
    pteAt (putWord s p value) b = pteAt s b := by
  unfold pteAt
  rw [putWord_memoryMap]
  split
  next smallB =>
    cases other : wordLocation s.memoryMap (BitVec.ofNat 32 b) with
    | none => rfl
    | some q =>
      have words := deref_putWord_other s p q value
        (wordLocation_apart located other apart smallA smallB alignedA alignedB)
      rw [Option.map_some,Option.map_some,words]
  next => rfl

theorem rootPpn_putWord (s : State) (p : WordPtr) (value : Word) :
    rootPpn (putWord s p value) = rootPpn s := by
  rw [rootPpn,rootPpn,readCsr,readCsr,putWord_csr]

/-- The word that a walk has marked cannot be a pointer on its path: the next walk with
any access type passes the same tables and ends at the marked entry. -/
theorem busWalk_markEntry {s : State} (leaf : busWalk s virtualAddress = .leaf level address entry)
    (accessType : AccessType) :
    busWalk (markEntry s address entry accessType) virtualAddress =
      .leaf level address (Sv32.Pte.mark entry accessType.toSv32) := by
  obtain ⟨small,aligned,p,located,_⟩ := busWalk_leaf_located leaf
  have kind := (Sv32.walk_leaf_read 1 (rootPpn s) leaf).2.1
  rw [markEntry_located located,busWalk,rootPpn_putWord]
  refine Sv32.walk_rewrite_leaf 1 (rootPpn s) leaf ?_ ?_ ?_
  · intro l t apart
    exact pteAt_putWord_other located small aligned
      (Sv32.entryAddress_aligned (by decide) l t) apart _
  · exact pteAt_putWord_self located small _
  · rw [Sv32.mark_kind,kind]

theorem Paged.markEntry {s : State} (paged : Paged s) (address : Nat) (entry : Word)
    (accessType : AccessType) : Paged (markEntry s address entry accessType) := by
  unfold Emuriscv.markEntry
  split
  next => exact paged
  next p _ =>
    refine ⟨?_,?_⟩
    · rw [putWord_privilege]
      exact paged.privilege
    · rw [readCsr,putWord_csr]
      exact paged.mode

theorem leafPhysical_mark (level : Nat) (entry virtualAddress : Word) (access : Sv32.Access) :
    leafPhysical level (Sv32.Pte.mark entry access) virtualAddress =
      leafPhysical level entry virtualAddress := by
  simp only [leafPhysical,nextTable,Sv32.mark_ppn]

/-- Only RAM may differ. -/
def RamOnly (s t : State) : Prop := t = { s with ram := t.ram }

theorem RamOnly.refl (s : State) : RamOnly s s := rfl

theorem RamOnly.trans {s t u : State} (first : RamOnly s t) (second : RamOnly t u) :
    RamOnly s u := by
  rw [RamOnly,second,first]

/-- In RAM, only the four bytes at `p` may differ, and in them only the two flag bits. -/
structure FlagBitsOnly (p : WordPtr) (s t : State) : Prop where
  outside : ∀ buffer offset, ¬(buffer = p.buffer ∧ p.offset ≤ offset ∧ offset < p.offset + 4) →
    t.ram buffer offset = s.ram buffer offset
  bits : ∀ i, i ≠ 6 → i ≠ 7 → (deref t p).getLsbD i = (deref s p).getLsbD i

/-- Only the flag bits of one entry may differ, in the whole state. -/
structure OnlyEntryFlags (p : WordPtr) (s t : State) : Prop where
  ramOnly : RamOnly s t
  flags : FlagBitsOnly p s t

theorem onlyEntryFlags_mark (s : State) (p : WordPtr) (access : Sv32.Access) :
    OnlyEntryFlags p s (putWord s p (Sv32.Pte.mark (deref s p) access)) := by
  refine ⟨putWord_eq .., ?_, ?_⟩
  · intro buffer offset outside
    rw [putWord_ram,if_neg outside]
  · intro i h6 h7
    rw [deref_putWord]
    exact Sv32.mark_frame (deref s p) access i h6 h7

/-- The bits of a flags byte that an access may set. -/
def AccessType.Flags (accessType : AccessType) (i : Nat) : Prop :=
  i = 6 ∨ (i = 7 ∧ accessType = .store)

/-- Every byte keeps the bits that the access does not set. -/
def FlagsOnly (accessType : AccessType) (s t : State) : Prop :=
  ∀ buffer offset i, ¬accessType.Flags i →
    (t.ram buffer offset).getLsbD i = (s.ram buffer offset).getLsbD i

theorem mark_bit (entry : Word) (accessType : AccessType) (i : Nat) (kept : ¬accessType.Flags i) :
    (Sv32.Pte.mark entry accessType.toSv32).getLsbD i = entry.getLsbD i := by
  have h6 : i ≠ 6 := fun here => kept (Or.inl here)
  cases accessType with
  | load => exact Sv32.mark_frame_clean entry .read (by decide) i h6
  | fetch => exact Sv32.mark_frame_clean entry .execute (by decide) i h6
  | store => exact Sv32.mark_frame entry .write i h6 fun here => kept (Or.inr ⟨here,rfl⟩)

theorem markEntry_flagsOnly {s : State} (leaf : busWalk s virtualAddress = .leaf level address entry)
    (accessType : AccessType) : FlagsOnly accessType s (markEntry s address entry accessType) := by
  obtain ⟨_,_,p,located,held⟩ := busWalk_leaf_located leaf
  intro buffer offset i kept
  rw [markEntry_located located,putWord_ram]
  split
  next inside =>
    obtain ⟨rfl,low,high⟩ := inside
    rw [show offset = p.offset + (offset - p.offset) by omega,← byteOf_deref s p _ (by omega),held,
      Nat.add_sub_cancel_left]
    simp only [byteOf,BitVec.getLsbD_setWidth,BitVec.getLsbD_ushiftRight]
    by_cases first : offset - p.offset = 0
    · rw [first,Nat.mul_zero,Nat.zero_add,mark_bit entry accessType i kept]
    · by_cases bound : i < 8
      · rw [Sv32.mark_frame entry _ _ (by omega) (by omega)]
      · simp [bound]
  next => rfl

theorem translateAddress_flagsOnly {s : State}
    (h : translateAddress s virtualAddress accessType = .ok t) : FlagsOnly accessType s t.state := by
  rcases translateAddress_ok h with
    ⟨_,rfl⟩ | ⟨_,_,rfl⟩ | ⟨_,_,rfl⟩ | ⟨level,address,entry,_,leaf,rfl⟩
  · exact fun _ _ _ _ => rfl
  · exact fun _ _ _ _ => rfl
  · exact fun _ _ _ _ => rfl
  · exact markEntry_flagsOnly leaf accessType

/-- Words keep the bits that are flags in none of their bytes. -/
theorem FlagsOnly.deref {s t : State} (flags : FlagsOnly accessType s t) (p : WordPtr) (i : Nat)
    (kept : ¬accessType.Flags (i % 8)) : (deref t p).getLsbD i = (deref s p).getLsbD i := by
  by_cases bound : i < 32
  · rw [deref_bit t p i bound,deref_bit s p i bound,flags _ _ _ kept]
  · rw [BitVec.getLsbD_of_ge _ _ (by omega),BitVec.getLsbD_of_ge _ _ (by omega)]

/-- The accessed flag is bit 6 of a byte, and `rd` is bits 7 to 11 of the word. -/
theorem getRd_flags {s t : State} (flags : FlagsOnly .load s t) (p : WordPtr) :
    getRd (deref t p) = getRd (deref s p) := by
  apply getRd_congr
  intro i low high
  apply flags.deref
  rintro (six | ⟨_,store⟩)
  · omega
  · contradiction

theorem markEntry_ramOnly (s : State) (address : Nat) (entry : Word) (accessType : AccessType) :
    RamOnly s (markEntry s address entry accessType) := by
  unfold markEntry
  split
  next => exact .refl s
  next => exact putWord_eq ..

theorem RamOnly.walks {s t : State} (only : RamOnly s t) : Walks t ↔ Walks s := by
  rw [only]
  rfl

/-- The entry that an access has marked is marked for a store as it would have been at once. -/
theorem markEntry_store {s : State}
    (located : wordLocation s.memoryMap (BitVec.ofNat 32 address) = some p) :
    markEntry (markEntry s address entry accessType) address
        (Sv32.Pte.mark entry accessType.toSv32) .store = markEntry s address entry .store := by
  have marked : markEntry s address entry accessType =
      putWord s p (Sv32.Pte.mark entry accessType.toSv32) := markEntry_located located
  have found : wordLocation (putWord s p (Sv32.Pte.mark entry accessType.toSv32)).memoryMap
      (BitVec.ofNat 32 address) = some p := by
    rw [putWord_memoryMap,located]
  have again : Sv32.Pte.mark (Sv32.Pte.mark entry accessType.toSv32) AccessType.store.toSv32 =
      Sv32.Pte.mark entry AccessType.store.toSv32 := Sv32.mark_mark_write ..
  rw [marked,markEntry_located found,markEntry_located located,putWord_putWord,again]

/-- After any access that reaches an address, a store to it is translated as at first. -/
theorem translateAddress_store {s : State}
    (h : translateAddress s virtualAddress accessType = .ok loaded)
    (assigned : loaded.physicalAddress = some physicalAddress) :
    ∃ marked, translateAddress s virtualAddress .store = .ok marked ∧
      marked.physicalAddress = some physicalAddress ∧
      translateAddress loaded.state virtualAddress .store = .ok marked := by
  rcases translateAddress_ok h with
    ⟨direct,rfl⟩ | ⟨_,_,rfl⟩ | ⟨_,_,rfl⟩ | ⟨level,address,entry,walks,leaf,rfl⟩
  · exact ⟨_, translateAddress_direct direct virtualAddress .store, assigned,
      translateAddress_direct direct virtualAddress .store⟩
  · contradiction
  · contradiction
  · obtain ⟨_,_,p,located,_⟩ := busWalk_leaf_located leaf
    have walks' := (markEntry_ramOnly s address entry accessType).walks.mpr walks
    refine ⟨⟨translateOk, some (leafPhysical level entry virtualAddress),
      markEntry s address entry .store⟩, ?_, assigned, ?_⟩
    · rw [translateAddress_walks walks,leaf]
      rfl
    · rw [translateAddress_walks walks',busWalk_markEntry leaf]
      dsimp only [walkResult]
      rw [leafPhysical_mark,markEntry_store located]

/-- A leaf is flagged in memory, nothing else changes, and a repeated translation finds the
same address and changes nothing; a fault changes nothing at all. -/
def MaintainsFlags (s : State) (virtualAddress : Word) (accessType : AccessType) : Prop :=
  (∀ level address entry, referenceWalk s virtualAddress = .leaf level address entry →
    ∃ p t, ramWord s.memoryMap address = some p ∧
      translateAddress s virtualAddress accessType = .ok t ∧ t.result = translateOk ∧
      Sv32.Pte.accessed (deref t.state p) = true ∧
      (accessType = .store → Sv32.Pte.dirty (deref t.state p) = true) ∧
      OnlyEntryFlags p s t.state ∧
      translateAddress t.state virtualAddress accessType = .ok t) ∧
  ∀ t, translateAddress s virtualAddress accessType = .ok t → t.result = pageFault → t.state = s

theorem translateAddress_flags {s : State} (paged : Paged s) (separate : Separate s.memoryMap)
    (virtualAddress : Word) (accessType : AccessType) :
    MaintainsFlags s virtualAddress accessType := by
  constructor
  · intro level address entry reference
    have walk := busWalk_reference separate reference
    obtain ⟨small,_,p,located,held⟩ := busWalk_leaf_located walk
    have marked : markEntry s address entry accessType =
        putWord s p (Sv32.Pte.mark entry accessType.toSv32) := markEntry_located located
    refine ⟨p, _, ?_, translateAddress_leaf paged accessType walk, rfl, ?_, ?_, ?_, ?_⟩
    · rw [ramWord_eq separate small,located]
    · rw [marked,deref_putWord]
      exact Sv32.mark_accessed entry _
    · rintro rfl
      rw [marked,deref_putWord]
      exact Sv32.mark_dirty entry
    · rw [marked,← held]
      exact onlyEntryFlags_mark s p _
    · rw [translateAddress_leaf (paged.markEntry address entry accessType) accessType
        (busWalk_markEntry walk accessType),leafPhysical_mark,markEntry_twice located]
  · intro t translated fault
    exact translateAddress_fault translated fault

theorem translateAddress_unflagged : MaintainsFlags (guest privU [0x2000001f]) 0x1234 .store :=
  translateAddress_flags (guest_paged (Or.inr rfl) _) (guest_separate _ _) 0x1234 .store

end Emuriscv
