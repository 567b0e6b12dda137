import Emuriscv.Translation

/-! The physical address space that a memory map describes, in natural numbers: which
range covers an address and which RAM range holds a whole word. On a map of separate
ranges the 32-bit lookup of the code finds exactly these. -/
namespace Emuriscv

def MemoryRange.Covers (range : MemoryRange) (address : Nat) : Prop :=
  range.address.toNat ≤ address ∧ address < range.address.toNat + range.size.toNat

/-- All ranges end below `2 ^ 32` and no address lies in two of them. -/
structure Separate (map : MemoryMap) : Prop where
  below : ∀ range ∈ map, range.address.toNat + range.size.toNat < 2 ^ 32
  disjoint : map.Pairwise fun range other => ∀ address, range.Covers address → ¬other.Covers address

theorem Separate.tail (separate : Separate (range :: rest)) : Separate rest :=
  ⟨fun other member => separate.below other (List.mem_cons_of_mem _ member),
    (List.pairwise_cons.mp separate.disjoint).2⟩

/-- The RAM range, if any, that holds all four bytes of the word at an address. -/
def ramWordFrom (address i : Nat) : List MemoryRange → Option WordPtr
  | [] => none
  | range :: rest =>
    if range.isRam ∧ range.address.toNat ≤ address ∧
        address + 4 ≤ range.address.toNat + range.size.toNat then
      some ⟨i, address - range.address.toNat⟩
    else ramWordFrom address (i + 1) rest

def ramWord (map : MemoryMap) (address : Nat) : Option WordPtr := ramWordFrom address 0 map

/-- Physical memory read by whole words. -/
def physWord (s : State) (address : Nat) : Option Word :=
  (ramWord s.memoryMap address).map (deref s)

theorem ramWordFrom_none (address i : Nat) (map : List MemoryRange)
    (uncovered : ∀ range ∈ map, ¬range.Covers address) : ramWordFrom address i map = none := by
  induction map generalizing i with
  | nil => rfl
  | cons range rest ih =>
    have head := uncovered range List.mem_cons_self
    have outside : ¬(range.isRam ∧ range.address.toNat ≤ address ∧
        address + 4 ≤ range.address.toNat + range.size.toNat) := by
      rintro ⟨_,low,high⟩
      exact head ⟨low, by omega⟩
    rw [ramWordFrom,if_neg outside]
    exact ih _ fun other member => uncovered other (List.mem_cons_of_mem _ member)

/-- Where the sum does not wrap, the comparison of the lookup is membership. -/
theorem lookup_test {range : MemoryRange} {address : Nat} (small : address < 2 ^ 32)
    (below : range.address.toNat + range.size.toNat < 2 ^ 32) :
    (range.address ≤ BitVec.ofNat 32 address ∧
      BitVec.ofNat 32 address < range.address + range.size) ↔ range.Covers address := by
  have whole : address % 2 ^ 32 = address := Nat.mod_eq_of_lt small
  have sum : (range.address.toNat + range.size.toNat) % 2 ^ 32 =
      range.address.toNat + range.size.toNat := Nat.mod_eq_of_lt below
  rw [BitVec.le_def,BitVec.lt_def,BitVec.toNat_add,BitVec.toNat_ofNat,whole,sum]
  rfl

/-- Whatever the map, a successful lookup names a range that covers the address. -/
theorem getPhysMemRange_covers {map : MemoryMap} {address : Word}
    (h : getPhysMemRange map address = some range) : range.entry.Covers address.toNat := by
  obtain ⟨_,low,high⟩ := getPhysMemRange_spec h
  refine ⟨low,?_⟩
  rw [BitVec.lt_def,BitVec.toNat_add] at high
  exact Nat.lt_of_lt_of_le high (Nat.mod_le _ _)

theorem offset_toNat {address : Nat} (small : address < 2 ^ 32) {base : Word}
    (low : base.toNat ≤ address) : (BitVec.ofNat 32 address - base).toNat = address - base.toNat := by
  have whole : (BitVec.ofNat 32 address).toNat = address := by
    rw [BitVec.toNat_ofNat,Nat.mod_eq_of_lt small]
  rw [BitVec.toNat_sub_of_le,whole]
  rwa [BitVec.le_def,whole]

theorem ramWordFrom_eq (address i : Nat) (map : List MemoryRange) (separate : Separate map)
    (small : address < 2 ^ 32) :
    ramWordFrom address i map =
      match getPhysMemRangeFrom (BitVec.ofNat 32 address) i map with
      | none => none
      | some range =>
        if range.entry.isRam ∧ (BitVec.ofNat 32 address - range.entry.address).toNat + 3 <
            range.entry.size.toNat then
          some ⟨range.index, (BitVec.ofNat 32 address - range.entry.address).toNat⟩
        else none := by
  induction map generalizing i with
  | nil => rfl
  | cons range rest ih =>
    have test := lookup_test small (separate.below range List.mem_cons_self)
    unfold ramWordFrom getPhysMemRangeFrom
    by_cases covers : range.Covers address
    · have others : ramWordFrom address (i + 1) rest = none :=
        ramWordFrom_none _ _ _ fun other member =>
          (List.pairwise_cons.mp separate.disjoint).1 other member address covers
      have low := covers.1
      have same : address + 4 ≤ range.address.toNat + range.size.toNat ↔
          address - range.address.toNat + 3 < range.size.toNat := by omega
      simp only [test.mpr covers,and_self,if_true,others,offset_toNat small low,low,true_and,same]
    · rw [if_neg (fun inside => covers (test.mp inside)),if_neg]
      · exact ih (i + 1) separate.tail
      · rintro ⟨_,low,high⟩
        exact covers ⟨low, by omega⟩

theorem ramWord_eq {map : MemoryMap} (separate : Separate map) {address : Nat}
    (small : address < 2 ^ 32) : ramWord map address = wordLocation map (BitVec.ofNat 32 address) :=
  ramWordFrom_eq address 0 map separate small

/-- On separate ranges the walker reads physical memory. -/
theorem pteAt_eq_physWord {s : State} (separate : Separate s.memoryMap) : pteAt s = physWord s := by
  funext address
  unfold pteAt physWord
  split
  next small => rw [ramWord_eq separate small]
  next large =>
    rw [ramWord,ramWordFrom_none]
    · rfl
    · intro range member covers
      have := separate.below range member
      have := covers.2
      omega

theorem Separate.apart {map : MemoryMap} (separate : Separate map) {i j : Nat}
    (first : map[i]? = some range) (second : map[j]? = some other) (different : i ≠ j)
    {address : Nat} (covers : range.Covers address) : ¬other.Covers address := by
  obtain ⟨boundI,rfl⟩ := List.getElem?_eq_some_iff.mp first
  obtain ⟨boundJ,rfl⟩ := List.getElem?_eq_some_iff.mp second
  have disjoint := List.pairwise_iff_getElem.mp separate.disjoint
  rcases Nat.lt_or_gt_of_ne different with before | after
  · exact disjoint i j boundI boundJ before address covers
  · exact fun other => disjoint j i boundJ boundI after address other covers

theorem getPhysMemRangeFrom_none {paddr : Word} {i : Nat} {map : List MemoryRange}
    (missing : getPhysMemRangeFrom paddr i map = none) (member : range ∈ map) :
    ¬(range.address ≤ paddr ∧ paddr < range.address + range.size) := by
  induction map generalizing i with
  | nil => contradiction
  | cons head rest ih =>
    rw [getPhysMemRangeFrom] at missing
    split at missing
    next => contradiction
    next outside =>
      rcases List.mem_cons.mp member with rfl | later
      · exact outside
      · exact ih missing later

/-- On separate ranges the lookup finds the range that covers the address. -/
theorem getPhysMemRange_of_covers {map : MemoryMap} (separate : Separate map) {address : Word}
    (found : map[i]? = some range) (covers : range.Covers address.toNat) :
    getPhysMemRange map address = some ⟨i,range⟩ := by
  have member := List.mem_of_getElem? found
  cases looked : getPhysMemRange map address with
  | none =>
    have test := lookup_test address.isLt (separate.below range member)
    rw [BitVec.ofNat_toNat,BitVec.setWidth_eq] at test
    exact absurd (test.mpr covers) (getPhysMemRangeFrom_none looked member)
  | some other =>
    have entry := (getPhysMemRange_spec looked).1
    have covered := getPhysMemRange_covers looked
    have index : other.index = i := by
      by_contra different
      exact separate.apart entry found different covered covers
    rw [index,found,Option.some.injEq] at entry
    rw [entry,← index]

end Emuriscv
