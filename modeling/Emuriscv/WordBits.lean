import Emuriscv.AtomicStep
import Emuriscv.Served

/-! What an access does to the single bits of a word in RAM: a translation sets flags in the leaf
where its walk ends, and a store puts 32 bits wherever they overlap. -/
namespace Emuriscv

/-- Bit `i` of the word at `p` is bit `j` of the word at `q`. -/
def SameBit (p : WordPtr) (i : Nat) (q : WordPtr) (j : Nat) : Prop :=
  q.buffer = p.buffer ∧ 8 * p.offset + i = 8 * q.offset + j

theorem SameBit.position {p q : WordPtr} (first : SameBit p i q j) (second : SameBit p i q k) :
    j = k := by
  have := first.2
  have := second.2
  omega

theorem putWord_bit (s : State) (p q : WordPtr) (value : Word) (i : Nat) (bound : i < 32) :
    (∀ j, j < 32 → SameBit p i q j → (deref (putWord s q value) p).getLsbD i = value.getLsbD j) ∧
    ((∀ j, j < 32 → ¬SameBit p i q j) →
      (deref (putWord s q value) p).getLsbD i = (deref s p).getLsbD i) := by
  have moved := deref_bit (putWord s q value) p i bound
  rw [putWord_ram] at moved
  constructor
  · rintro j inside ⟨buffer,place⟩
    have here : p.buffer = q.buffer ∧ q.offset ≤ p.offset + i / 8 ∧ p.offset + i / 8 < q.offset + 4 :=
      ⟨buffer.symm, by omega, by omega⟩
    have index : 8 * (p.offset + i / 8 - q.offset) + i % 8 = j := by omega
    rw [moved,if_pos here,byteOf,BitVec.getLsbD_setWidth,BitVec.getLsbD_ushiftRight,index]
    simp [show i % 8 < 8 by omega]
  · intro apart
    have other : ¬(p.buffer = q.buffer ∧ q.offset ≤ p.offset + i / 8 ∧
        p.offset + i / 8 < q.offset + 4) := by
      rintro ⟨buffer,low,high⟩
      exact apart (8 * p.offset + i - 8 * q.offset) (by omega) ⟨buffer.symm, by omega⟩
    rw [moved,if_neg other,deref_bit s p i bound]

instance (s : State) : Decidable (Walks s) := inferInstanceAs (Decidable (_ ∧ _))

/-- The page-table entry that a translation flags. -/
def leafLocation (s : State) (virtualAddress : Word) : Option WordPtr :=
  if Walks s then
    match busWalk s virtualAddress with
    | .leaf _ address _ => wordLocation s.memoryMap (BitVec.ofNat 32 address)
    | _ => none
  else none

/-- A translation has a flag that it sets at bit `i` of the word at `p`. -/
def Flagged (s : State) (virtualAddress : Word) (accessType : AccessType) (p : WordPtr) (i : Nat) :
    Prop :=
  ∃ q j, leafLocation s virtualAddress = some q ∧ accessType.Flags j ∧ SameBit p i q j

theorem AccessType.Flags.small {accessType : AccessType} (flag : accessType.Flags i) : i < 32 := by
  rcases flag with rfl | ⟨rfl,_⟩
  · decide
  · decide

theorem mark_bit_iff (entry : Word) (accessType : AccessType) (i : Nat) :
    (Sv32.Pte.mark entry accessType.toSv32).getLsbD i = true ↔
      entry.getLsbD i = true ∨ accessType.Flags i := by
  by_cases flag : accessType.Flags i
  · refine iff_of_true ?_ (Or.inr flag)
    rcases flag with rfl | ⟨rfl,rfl⟩
    · exact Sv32.mark_accessed entry _
    · exact Sv32.mark_dirty entry
  · rw [mark_bit entry accessType i flag,or_iff_left flag]

theorem translateAddress_bit {s : State} (h : translateAddress s virtualAddress accessType = .ok t)
    (p : WordPtr) (i : Nat) (bound : i < 32) :
    (deref t.state p).getLsbD i = true ↔
      (deref s p).getLsbD i = true ∨ Flagged s virtualAddress accessType p i := by
  -- without a leaf nothing is flagged and nothing is stored
  have quiet (none : leafLocation s virtualAddress = none) :
      (deref s p).getLsbD i = true ↔
        (deref s p).getLsbD i = true ∨ Flagged s virtualAddress accessType p i := by
    refine (or_iff_left ?_).symm
    rintro ⟨q,_,leaf,_⟩
    rw [none] at leaf
    contradiction
  rcases translateAddress_ok h with ⟨direct,rfl⟩ | ⟨_,⟨_,_,_,invalid⟩,rfl⟩ | ⟨_,⟨_,_,dangling⟩,rfl⟩ |
    ⟨level,address,entry,walks,leaf,rfl⟩
  · exact quiet (if_neg direct)
  · exact quiet (by simp [leafLocation,invalid])
  · exact quiet (by simp [leafLocation,dangling])
  · obtain ⟨_,_,q,located,held⟩ := busWalk_leaf_located leaf
    have found : leafLocation s virtualAddress = some q := by
      rw [leafLocation,if_pos walks,leaf]
      exact located
    have flagged : Flagged s virtualAddress accessType p i ↔
        ∃ j, accessType.Flags j ∧ SameBit p i q j := by
      simp [Flagged,found]
    rw [markEntry_located located,flagged]
    obtain ⟨inside,outside⟩ := putWord_bit s p q (Sv32.Pte.mark entry accessType.toSv32) i bound
    by_cases overlaps : ∃ j, j < 32 ∧ SameBit p i q j
    · obtain ⟨j,small,same⟩ := overlaps
      have old : (deref s p).getLsbD i = entry.getLsbD j := by
        have kept := (putWord_bit s p q (deref s q) i bound).1 j small same
        rwa [putWord_deref,held] at kept
      rw [inside j small same,mark_bit_iff,old]
      refine or_congr_right ⟨fun flag => ⟨j,flag,same⟩, ?_⟩
      rintro ⟨k,flag,same'⟩
      have position : k = j := same'.position same
      rwa [← position]
    · have apart (j : Nat) (small : j < 32) : ¬SameBit p i q j := fun same => overlaps ⟨j,small,same⟩
      rw [outside apart]
      refine (or_iff_left ?_).symm
      rintro ⟨j,flag,same⟩
      exact apart j flag.small same

/-- A load or a fetch flags the accessed bit only. -/
theorem Flagged.six {s : State} (flagged : Flagged s virtualAddress accessType p i)
    (notStore : accessType ≠ .store) : i % 8 = 6 := by
  obtain ⟨q,j,_,six | ⟨_,store⟩,_,place⟩ := flagged
  · omega
  · contradiction

/-- The word of RAM that a store to an address reaches. -/
def storeLocation (s : State) (virtualAddress : Word) : Option WordPtr :=
  match translateAddress s virtualAddress .store with
  | .ok t => t.physicalAddress.bind (wordLocation s.memoryMap)
  | .error _ => none

/-- Bit `i` of the word at `p` after `value` has been stored: the bit of `value` that lies there,
and elsewhere the old bit, unless it is a flag of the translation. -/
def StoredBit (s : State) (virtualAddress value : Word) (p : WordPtr) (i : Nat) : Prop :=
  (∃ q j, storeLocation s virtualAddress = some q ∧ j < 32 ∧ SameBit p i q j ∧
    value.getLsbD j = true) ∨
  (¬∃ q j, storeLocation s virtualAddress = some q ∧ j < 32 ∧ SameBit p i q j) ∧
    ((deref s p).getLsbD i = true ∨ Flagged s virtualAddress .store p i)

/-- What a store has done once its translation is made. -/
def Stored (marked : State) (location : Option WordPtr) (value : Word) (t : State) : Prop :=
  match location with
  | some q => t.ram = (putWord marked q value).ram
  | none => t.ram = marked.ram

theorem storedBit_iff {s t : State} {marked : Translation}
    (translated : translateAddress s virtualAddress .store = .ok marked)
    (stored : Stored marked.state (marked.physicalAddress.bind (wordLocation s.memoryMap)) value t)
    (p : WordPtr) (i : Nat) (bound : i < 32) :
    (deref t p).getLsbD i = true ↔ StoredBit s virtualAddress value p i := by
  have location : storeLocation s virtualAddress =
      marked.physicalAddress.bind (wordLocation s.memoryMap) := by
    rw [storeLocation,translated]
  have before := translateAddress_bit translated p i bound
  rw [← location] at stored
  unfold StoredBit
  cases found : storeLocation s virtualAddress with
  | none =>
    rw [found] at stored
    rw [deref_congr stored,before]
    simp
  | some q =>
    rw [found] at stored
    rw [deref_congr stored]
    obtain ⟨inside,outside⟩ := putWord_bit marked.state p q value i bound
    by_cases overlaps : ∃ j, j < 32 ∧ SameBit p i q j
    · obtain ⟨j,small,same⟩ := overlaps
      rw [inside j small same]
      constructor
      · intro bit
        exact Or.inl ⟨q,j,rfl,small,same,bit⟩
      · rintro (⟨q',k,here,_,same',bit⟩ | ⟨apart,_⟩)
        · obtain rfl := Option.some.inj here
          rwa [same.position same']
        · exact absurd ⟨q,j,rfl,small,same⟩ apart
    · rw [outside fun j small same => overlaps ⟨j,small,same⟩,before]
      constructor
      · intro bit
        refine Or.inr ⟨?_,bit⟩
        rintro ⟨q',k,here,small,same⟩
        obtain rfl := Option.some.inj here
        exact overlaps ⟨k,small,same⟩
      · rintro (⟨q',k,here,small,same,_⟩ | ⟨_,bit⟩)
        · obtain rfl := Option.some.inj here
          exact absurd ⟨k,small,same⟩ overlaps
        · exact bit

/-- A translation that faults has no leaf. -/
theorem leafLocation_fault {s : State} (faults : PageFaults s address accessType) :
    leafLocation s address = none := by
  obtain ⟨walks,_,_,_,invalid⟩ := (pageFaults_iff ..).mp faults
  simp [leafLocation,walks,invalid]

theorem storeLocation_fault {s : State} (faults : PageFaults s address .store) :
    storeLocation s address = none := by
  obtain ⟨walks,_,_,_,invalid⟩ := (pageFaults_iff ..).mp faults
  rw [storeLocation,translateAddress_walks walks,invalid]
  rfl

theorem readCommon_bit {s u : State} (read : readCommon s address sizeLog2 = .ok (old,u))
    (p : WordPtr) (i : Nat) (bound : i < 32) : (deref u p).getLsbD i = true ↔
      (deref s p).getLsbD i = true ∨ Flagged s address .load p i := by
  by_cases faults : PageFaults s address .load
  · rw [readCommon_fault faults] at read
    obtain ⟨_,rfl⟩ := Prod.mk.inj (Except.ok.inj read)
    have same : deref (pendFault s address .load) p = deref s p := rfl
    simp [same,Flagged,leafLocation_fault faults]
  · obtain ⟨translation,translated,rfl⟩ := readCommon_translated read faults
    exact translateAddress_bit translated p i bound

section Writes

variable [Platform] {s t : State} {address value : Word}

theorem writeWord_stored (h : writeWord s address value = .ok t) (quiet : ¬PageFaults s address .store) :
    ∃ marked, translateAddress s address .store = .ok marked ∧
      Stored marked.state (marked.physicalAddress.bind (wordLocation s.memoryMap)) value t := by
  obtain ⟨l,looked,rest⟩ := bind_eq_ok.mp h
  rw [if_neg (getMemoryTarget_status looked quiet)] at rest
  obtain ⟨marked,physicalAddress,translated,assigned,state,target⟩ := getMemoryTarget_ok looked quiet
  refine ⟨marked,translated,?_⟩
  rw [assigned]
  change Stored _ (wordLocation s.memoryMap physicalAddress) _ _
  cases located : wordLocation s.memoryMap physicalAddress with
  | some q =>
    obtain rfl := Except.ok.inj ((writeWord_located translated assigned located value).symm.trans h)
    exact rfl
  | none =>
    have map : marked.state.memoryMap = s.memoryMap := by rw [translateAddress_ramOnly translated]
    rw [getMemoryTargetPhysical,map] at target
    cases found : getPhysMemRange s.memoryMap physicalAddress with
    | none =>
      rw [found] at target
      rw [show l.target = ⟨none,none⟩ from congrArg Prod.snd target] at rest
      contradiction
    | some range =>
      rw [found] at target
      rw [show l.target = _ from congrArg Prod.snd target,state] at rest
      dsimp only [MemoryTarget.pointer] at rest
      rw [pure_eq_ok,ok_bind] at rest
      cases ram : range.entry.isRam with
      | false =>
        rw [if_neg (by simp [ram])] at rest
        exact (callWrite_frame rest).ram
      | true =>
        -- a word that is not in the range in one piece is stored past its end
        rw [if_pos ram,RangePtr.physMemPtr,if_pos ram] at rest
        have inside := (writeCommonRam_returns_iff _ _ _ _ (Nat.le_refl 2)).mp ⟨t,rest⟩
        rw [State.bufferSize,map] at inside
        have size := bufferSize_eq (getPhysMemRange_spec found).1
        rw [State.bufferSize] at size
        rw [size] at inside
        simp only [wordLocation,found,ram,true_and] at located
        rw [if_pos (by omega)] at located
        contradiction

omit [Platform] in
theorem storedBit_fault (faults : PageFaults s address .store) (same : t.ram = s.ram) (p : WordPtr)
    (i : Nat) : (deref t p).getLsbD i = true ↔ StoredBit s address value p i := by
  rw [deref_congr same]
  simp [StoredBit,Flagged,storeLocation_fault faults,leafLocation_fault faults]

theorem writeWord_bit (h : writeWord s address value = .ok t) (p : WordPtr) (i : Nat)
    (bound : i < 32) : (deref t p).getLsbD i = true ↔ StoredBit s address value p i := by
  by_cases faults : PageFaults s address .store
  · obtain rfl := Except.ok.inj ((writeCommon_fault faults value sizeWord).symm.trans h)
    exact storedBit_fault faults rfl p i
  · obtain ⟨marked,translated,stored⟩ := writeWord_stored h faults
    exact storedBit_iff translated stored p i bound

/-- A store after a load of its own address is the store alone. -/
theorem updateWord_bit {u : State} (read : readWord s address = .ok (old,u))
    (h : writeWord u address value = .ok t) (p : WordPtr) (i : Nat) (bound : i < 32) :
    (deref t p).getLsbD i = true ↔ StoredBit s address value p i := by
  by_cases faults : PageFaults s address .load
  · rw [readWord,readCommon_fault faults] at read
    obtain ⟨_,rfl⟩ := Prod.mk.inj (Except.ok.inj read)
    have again : PageFaults s address .store := by rwa [pageFaults_iff,← pageFaults_iff s address .load]
    have second : PageFaults (pendFault s address .load) address .store := by
      rwa [(pendFault_tables ..).pageFaults]
    obtain rfl := Except.ok.inj ((writeCommon_fault second value sizeWord).symm.trans h)
    exact storedBit_fault again rfl p i
  · have again := (readCommon_quiet read faults).2 .store
    have only := (readCommon_quiet read faults).1
    have map : u.memoryMap = s.memoryMap := by rw [only]
    obtain ⟨l,looked,_⟩ := bind_eq_ok.mp read
    obtain ⟨translation,physicalAddress,translated,assigned,_⟩ := getMemoryTarget_ok looked faults
    obtain ⟨translation',translated',rfl⟩ := readCommon_translated read faults
    obtain rfl := Except.ok.inj (translated.symm.trans translated')
    obtain ⟨marked,stores,_,second⟩ := translateAddress_store translated assigned
    obtain ⟨marked',stores',stored⟩ := writeWord_stored h again
    obtain rfl := Except.ok.inj (second.symm.trans stores')
    rw [map] at stored
    exact storedBit_iff stores stored p i bound

end Writes

end Emuriscv
