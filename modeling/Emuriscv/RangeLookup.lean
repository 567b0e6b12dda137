import Emuriscv.MatchChain
import Emuriscv.PhysicalMemory

/-! The lookup of a physical address in a table of disjoint ranges, some of which may end at the
top of the address space. There `address + size` is zero in 32 bits, and the range is not found. -/
namespace Emuriscv

/-- The comparison in `get_phys_mem_range`, in 32-bit arithmetic. -/
def MemoryRange.Answers (range : MemoryRange) (paddr : Word) : Prop :=
  range.address ≤ paddr ∧ paddr < range.address + range.size

instance (range : MemoryRange) (paddr : Word) : Decidable (range.Answers paddr) :=
  inferInstanceAs (Decidable (_ ∧ _))

def MemoryRange.limit (range : MemoryRange) : Nat := range.address.toNat + range.size.toNat

/-- A table of ranges that fit into the 32-bit address space and do not meet. -/
structure LaidOut (map : MemoryMap) : Prop where
  nonempty : ∀ range ∈ map, 0 < range.size.toNat
  within : ∀ range ∈ map, range.limit ≤ 2 ^ 32
  disjoint : map.Pairwise fun range other => ∀ address, range.Covers address → ¬other.Covers address

theorem Separate.laidOut {map : MemoryMap} (separate : Separate map)
    (nonempty : ∀ range ∈ map, 0 < range.size.toNat) : LaidOut map :=
  ⟨nonempty, fun range member => Nat.le_of_lt (separate.below range member), separate.disjoint⟩

theorem MemoryRange.Answers.covers {range : MemoryRange} {paddr : Word}
    (answers : range.Answers paddr) : range.Covers paddr.toNat := by
  obtain ⟨low,high⟩ := answers
  rw [BitVec.lt_def,BitVec.toNat_add] at high
  exact ⟨low, Nat.lt_of_lt_of_le high (Nat.mod_le _ _)⟩

/-- The sum wraps for a range that ends at the top, and then no address is below it. -/
theorem answers_iff {range : MemoryRange} (within : range.limit ≤ 2 ^ 32) (paddr : Word) :
    range.Answers paddr ↔ range.Covers paddr.toNat ∧ range.limit ≠ 2 ^ 32 := by
  rcases Nat.lt_or_eq_of_le within with below | top
  · have test := lookup_test paddr.isLt below
    rw [BitVec.ofNat_toNat,BitVec.setWidth_eq] at test
    exact test.trans (and_iff_left (Nat.ne_of_lt below)).symm
  · refine iff_of_false ?_ fun both => both.2 top
    rintro ⟨_,high⟩
    have wraps : (range.address + range.size).toNat = 0 := by
      rw [BitVec.toNat_add,show range.address.toNat + range.size.toNat = 2 ^ 32 from top]
      rfl
    rw [BitVec.lt_def,wraps] at high
    exact Nat.not_lt_zero _ high

theorem getPhysMemRangeFrom_find? (paddr : Word) (i : Nat) (map : List MemoryRange) :
    getPhysMemRangeFrom paddr i map =
      ((map.zipIdx i).find? fun entry => entry.1.Answers paddr).map fun entry =>
        ⟨entry.2,entry.1⟩ := by
  induction map generalizing i with
  | nil => rfl
  | cons range rest ih =>
    rw [getPhysMemRangeFrom,List.zipIdx_cons,List.find?_cons,ih (i + 1)]
    by_cases answers : range.Answers paddr
    · simp only [answers,decide_true,Option.map_some]
      exact if_pos answers
    · simp only [answers,decide_false]
      exact if_neg answers

/-- At most one entry of the table answers, so the order of the entries is no matter. -/
theorem LaidOut.exclusive {map : MemoryMap} (laidOut : LaidOut map) (paddr : Word) :
    (map.zipIdx 0).Pairwise fun entry other =>
      ¬(decide (entry.1.Answers paddr) ∧ decide (other.1.Answers paddr)) := by
  have disjoint := laidOut.disjoint
  rw [← List.zipIdx_map_fst 0 map,List.pairwise_map] at disjoint
  refine disjoint.imp fun {entry other} apart both => ?_
  exact apart _ (of_decide_eq_true both.1).covers (of_decide_eq_true both.2).covers

theorem LaidOut.getPhysMemRange_iff {map : MemoryMap} (laidOut : LaidOut map) (paddr : Word) :
    getPhysMemRange map paddr = some ⟨i,range⟩ ↔ map[i]? = some range ∧ range.Answers paddr := by
  rw [getPhysMemRange,getPhysMemRangeFrom_find?,Option.map_eq_some_iff]
  constructor
  · rintro ⟨entry,found,⟨⟩⟩
    obtain ⟨member,answers⟩ :=
      (MatchChain.find?_eq_some_iff (laidOut.exclusive paddr)).mp found
    exact ⟨List.mem_zipIdx_iff_getElem?.mp member, of_decide_eq_true answers⟩
  · rintro ⟨entry,answers⟩
    have member : (range,i) ∈ map.zipIdx 0 := List.mem_zipIdx_iff_getElem?.mpr entry
    exact ⟨(range,i), (MatchChain.find?_eq_some_iff (laidOut.exclusive paddr)).mpr
      ⟨member, decide_eq_true answers⟩, rfl⟩

theorem LaidOut.index_unique {map : MemoryMap} (laidOut : LaidOut map) {i j : Nat}
    (first : map[i]? = some range) (second : map[j]? = some other) {address : Nat}
    (covers : range.Covers address) (covers' : other.Covers address) : j = i := by
  obtain ⟨boundI,rfl⟩ := List.getElem?_eq_some_iff.mp first
  obtain ⟨boundJ,rfl⟩ := List.getElem?_eq_some_iff.mp second
  have disjoint := List.pairwise_iff_getElem.mp laidOut.disjoint
  rcases Nat.lt_trichotomy i j with before | rfl | after
  · exact absurd covers' (disjoint i j boundI boundJ before address covers)
  · rfl
  · exact absurd covers (disjoint j i boundJ boundI after address covers')

/-- The target of an address holds the range and the distance from its base, which is less than
its size and fits into the 32 bits that a device callback takes. -/
def HandsOn (s : State) (paddr : Word) (range : RangePtr) : Prop :=
  ∃ ptr, getMemoryTargetPhysical s paddr = (translateOk, ⟨some range, some ptr⟩) ∧
    ptr.base = range.physMemPtr ∧
    range.entry.address.toNat + ptr.offset = paddr.toNat ∧
    ptr.offset < range.entry.size.toNat ∧
    (BitVec.ofNat 32 ptr.offset).toNat = ptr.offset

/-- The lookup of an address is right: it returns the one range that covers the address, or
nothing if there is none, and the offset in that range is handed on. -/
structure LooksUp (s : State) (paddr : Word) : Prop where
  covered : ∀ i range, s.memoryMap[i]? = some range → range.Covers paddr.toNat →
    getPhysMemRange s.memoryMap paddr = some ⟨i,range⟩ ∧
      ∀ (j : Nat) other, s.memoryMap[j]? = some other → other.Covers paddr.toNat → j = i
  uncovered : (∀ range ∈ s.memoryMap, ¬range.Covers paddr.toNat) →
    getPhysMemRange s.memoryMap paddr = none
  handed : ∀ range, getPhysMemRange s.memoryMap paddr = some range → HandsOn s paddr range

theorem getPhysMemRange_handed {s : State} {paddr : Word} {range : RangePtr}
    (found : getPhysMemRange s.memoryMap paddr = some range) : HandsOn s paddr range := by
  obtain ⟨low,high⟩ := getPhysMemRange_covers found
  have offset : (paddr - range.entry.address).toNat =
      paddr.toNat - range.entry.address.toNat := BitVec.toNat_sub_of_le low
  refine ⟨⟨range.physMemPtr, (paddr - range.entry.address).toNat⟩, ?_, rfl, ?_, ?_, ?_⟩
  · rw [getMemoryTargetPhysical,found]
  · dsimp only
    omega
  · dsimp only
    omega
  · rw [BitVec.ofNat_toNat,BitVec.setWidth_eq]

/-- On disjoint ranges the lookup is right exactly where no range ends at the top of the address
space around the address. -/
theorem looksUp_iff {s : State} (laidOut : LaidOut s.memoryMap) (paddr : Word) :
    LooksUp s paddr ↔
      ∀ range ∈ s.memoryMap, range.Covers paddr.toNat → range.limit ≠ 2 ^ 32 := by
  constructor
  · intro looksUp range member covers
    obtain ⟨i,entry⟩ := List.mem_iff_getElem?.mp member
    have found := (looksUp.covered i range entry covers).1
    have answers := ((laidOut.getPhysMemRange_iff paddr).mp found).2
    exact ((answers_iff (laidOut.within range member) paddr).mp answers).2
  · intro below
    refine ⟨?_, ?_, fun range => getPhysMemRange_handed⟩
    · intro i range entry covers
      have member := List.mem_of_getElem? entry
      have answers : range.Answers paddr :=
        (answers_iff (laidOut.within range member) paddr).mpr ⟨covers, below range member covers⟩
      refine ⟨(laidOut.getPhysMemRange_iff paddr).mpr ⟨entry,answers⟩, ?_⟩
      intro j other entry' covers'
      exact laidOut.index_unique entry entry' covers covers'
    · intro uncovered
      cases found : getPhysMemRange s.memoryMap paddr with
      | none => rfl
      | some range =>
        have member := List.mem_of_getElem? (getPhysMemRange_spec found).1
        exact absurd (getPhysMemRange_covers found) (uncovered range.entry member)

/-- The guest RAM and one page that ends with the address space. -/
def withTopPage : State := { guest 3 [] with
  memoryMap := [⟨0x80000000,0x10000,true,none,none⟩, ⟨0xfffff000,0x1000,true,none,none⟩] }

theorem withTopPage_member {range : MemoryRange} (member : range ∈ withTopPage.memoryMap) :
    range = ⟨0x80000000,0x10000,true,none,none⟩ ∨ range = ⟨0xfffff000,0x1000,true,none,none⟩ := by
  simpa [withTopPage] using member

theorem withTopPage_laidOut : LaidOut withTopPage.memoryMap := by
  refine ⟨?_,?_,List.pairwise_pair.mpr ?_⟩
  · intro range member
    rcases withTopPage_member member with rfl | rfl <;> decide
  · intro range member
    rcases withTopPage_member member with rfl | rfl <;> decide
  · rintro address ⟨_,high⟩ ⟨low,_⟩
    exact absurd (Nat.lt_of_le_of_lt low high) (by decide)

theorem looksUp_ram : LooksUp withTopPage 0x8000ffff := by
  refine (looksUp_iff withTopPage_laidOut _).mpr ?_
  intro range member covers
  rcases withTopPage_member member with rfl | rfl
  · decide
  · exact absurd covers.1 (by decide)

/-- The page covers its first address, and the lookup does not find it. -/
theorem withTopPage_unfound : LaidOut withTopPage.memoryMap ∧
    (∃ range ∈ withTopPage.memoryMap, range.Covers 0xfffff000) ∧
    getPhysMemRange withTopPage.memoryMap 0xfffff000 = none ∧ ¬LooksUp withTopPage 0xfffff000 := by
  have covers : MemoryRange.Covers ⟨0xfffff000,0x1000,true,none,none⟩ 0xfffff000 :=
    ⟨by decide, by decide⟩
  refine ⟨withTopPage_laidOut, ⟨_, List.mem_cons_of_mem _ List.mem_cons_self, covers⟩, by decide, ?_⟩
  intro looksUp
  have found := (looksUp.covered 1 _ rfl covers).1
  exact absurd found (by decide)

end Emuriscv
