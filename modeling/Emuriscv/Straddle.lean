import Emuriscv.WideAccess

/-! When the bytes of a wide access are one block, in terms of the page tables. For an access
whose bytes lie in no entry that its own walks read, they are: if each address is mapped to the
next byte, and a second leaf, if there is one, has its flags already. -/
namespace Emuriscv

/-- The byte of a RAM buffer at a physical address. -/
def ByteAt (map : MemoryMap) (physicalAddress : Word) (buffer offset : Nat) : Prop :=
  ∃ range, getPhysMemRange map physicalAddress = some range ∧ range.entry.isRam = true ∧
    range.index = buffer ∧ (physicalAddress - range.entry.address).toNat = offset

theorem lands_iff {s : State} (paged : Paged s) :
    Lands s address accessType t buffer offset ↔
      ∃ level x entry, busWalk s address = .leaf level x entry ∧ t = markEntry s x entry accessType ∧
        ByteAt s.memoryMap (leafPhysical level entry address) buffer offset := by
  constructor
  · rintro ⟨range,place,⟨translation,physicalAddress,translated,assigned,rfl,found,rfl⟩,ram,rfl,rfl⟩
    rcases translateAddress_ok translated with
      ⟨direct,_⟩ | ⟨_,_,rfl⟩ | ⟨_,_,rfl⟩ | ⟨level,x,entry,_,leaf,rfl⟩
    · exact absurd paged.walks direct
    · contradiction
    · contradiction
    · obtain rfl := Option.some.inj assigned
      exact ⟨level, x, entry, leaf, rfl, range, found, ram, rfl, rfl⟩
  · rintro ⟨level,x,entry,leaf,rfl,range,found,ram,rfl,rfl⟩
    exact ⟨range, _, ⟨_, _, translateAddress_leaf paged accessType leaf, rfl, rfl, found, rfl⟩, ram,
      rfl, rfl⟩

/-- The state of a landing is that of the leaf. -/
theorem Lands.marked {s t : State} (paged : Paged s) (lands : Lands s address accessType t buffer offset)
    (leaf : busWalk s address = .leaf level x entry) : t = markEntry s x entry accessType := by
  obtain ⟨_,_,_,leaf',rfl,_⟩ := (lands_iff paged).mp lands
  rw [leaf] at leaf'
  obtain ⟨rfl,rfl,rfl⟩ := Sv32.Outcome.leaf.inj leaf'
  rfl

theorem RamOnly.paged {s t : State} (only : RamOnly s t) (paged : Paged s) : Paged t := by
  rw [only]
  exact ⟨paged.privilege,paged.mode⟩

/-- The word lies outside the block. -/
def WordPtr.Clear (q : WordPtr) (buffer offset width : Nat) : Prop :=
  q.buffer = buffer → q.offset + 4 ≤ offset ∨ offset + width ≤ q.offset

theorem AgreeOutside.deref {s t : State} (agree : AgreeOutside buffer offset width s t)
    {q : WordPtr} (clear : q.Clear buffer offset width) : deref t q = deref s q := by
  apply word_ext
  intro k bound
  rw [byteOf_deref t q k bound,byteOf_deref s q k bound]
  apply agree
  rintro ⟨same,low,high⟩
  have := clear same
  omega

/-- No byte of the access lies in an entry that a walk for one of its addresses reads. -/
def Apart (s : State) (address : Word) (width buffer offset : Nat) : Prop :=
  ∀ k, k < width → ∀ x q,
    Sv32.Visits 32 (pteAt s) (address + BitVec.ofNat 32 k) 1 (rootPpn s) x →
    wordLocation s.memoryMap (BitVec.ofNat 32 x) = some q → q.Clear buffer offset width

theorem pteAt_some {s : State} (read : pteAt s x = some e) :
    x < 2 ^ 32 ∧ ∃ q, wordLocation s.memoryMap (BitVec.ofNat 32 x) = some q ∧ deref s q = e := by
  have small := pteAt_below x e read
  rw [pteAt,if_pos small] at read
  exact ⟨small, Option.map_eq_some_iff.mp read⟩

/-- Marking one leaf changes the word of that leaf only. -/
theorem deref_markEntry {s : State} (leaf : busWalk s address = .leaf level x₀ entry)
    (accessType : AccessType) (small : x < 2 ^ 32) (aligned : x % 4 = 0)
    (located : wordLocation s.memoryMap (BitVec.ofNat 32 x) = some q) :
    deref (markEntry s x₀ entry accessType) q =
      if x = x₀ then Sv32.Pte.mark (deref s q) accessType.toSv32 else deref s q := by
  obtain ⟨small₀,aligned₀,p,located₀,held⟩ := busWalk_leaf_located leaf
  rw [markEntry_located located₀]
  by_cases same : x = x₀
  · subst same
    obtain rfl := Option.some.inj (located.symm.trans located₀)
    rw [if_pos rfl,deref_putWord,held]
  · rw [if_neg same]
    exact deref_putWord_other s p q _
      (wordLocation_apart located₀ located same small₀ small aligned₀ aligned)

/-- A leaf outside a block is marked without touching the block. -/
theorem markEntry_block {s : State} (accessType : AccessType)
    (located : wordLocation s.memoryMap (BitVec.ofNat 32 x) = some q)
    (clear : q.Clear buffer offset width) (low : offset ≤ j) (high : j < offset + width) :
    (markEntry s x entry accessType).ram buffer j = s.ram buffer j := by
  rw [markEntry_located located,putWord_ram,if_neg]
  rintro ⟨same,above,below⟩
  have := clear same.symm
  omega

section Walks

variable {s t : State} {address : Word} {width buffer offset : Nat}

/-- An entry as it is, or with a write recorded in it, as the walk takes it. -/
theorem marked_entry {value entry : Word} {marked : Prop} [Decidable marked]
    (same : value = if marked then Sv32.Pte.mark entry .write else entry) :
    Sv32.Pte.kind value = Sv32.Pte.kind entry ∧ Sv32.Pte.ppn value = Sv32.Pte.ppn entry ∧
      ∀ level virtualAddress,
        leafPhysical level value virtualAddress = leafPhysical level entry virtualAddress := by
  rw [same]
  split
  next =>
    exact ⟨Sv32.mark_kind .., Sv32.mark_ppn .., fun level virtualAddress => leafPhysical_mark ..⟩
  next => exact ⟨rfl, rfl, fun _ _ => rfl⟩

/-- A walk of the access, taken while the block is being written: it passes the same entries,
and only the leaf of the first address has changed, by its flags. -/
theorem busWalk_during (apart : Apart s address width buffer offset)
    (first : busWalk s address = .leaf level₀ x₀ entry₀)
    (only : RamOnly s t) (agree : AgreeOutside buffer offset width (markEntry s x₀ entry₀ .store) t)
    (bound : k < width) (leaf : busWalk s (address + BitVec.ofNat 32 k) = .leaf level x entry) :
    ∃ q, wordLocation s.memoryMap (BitVec.ofNat 32 x) = some q ∧ q.Clear buffer offset width ∧
      deref t q = (if x = x₀ then Sv32.Pte.mark entry .write else entry) ∧
      busWalk t (address + BitVec.ofNat 32 k) = .leaf level x (deref t q) := by
  have map : t.memoryMap = s.memoryMap := by rw [only]
  have root : rootPpn t = rootPpn s := by
    rw [only]
    rfl
  -- what the tables hold now, at every entry that the walk reads
  have now (y : Nat) (e : Word)
      (visits : Sv32.Visits 32 (pteAt s) (address + BitVec.ofNat 32 k) 1 (rootPpn s) y)
      (read : pteAt s y = some e) : ∃ q, wordLocation s.memoryMap (BitVec.ofNat 32 y) = some q ∧
        q.Clear buffer offset width ∧ pteAt t y = some (deref t q) ∧
        deref t q = if y = x₀ then Sv32.Pte.mark e .write else e := by
    obtain ⟨small,q,located,held⟩ := pteAt_some read
    have clear := apart k bound y q visits located
    have aligned := Sv32.visits_aligned (by decide) 1 (rootPpn s) visits
    refine ⟨q, located, clear, ?_, ?_⟩
    · rw [pteAt,if_pos small,map,located,Option.map_some]
    · rw [agree.deref clear,deref_markEntry first .store small aligned located,held]
      rfl
  have kept (y : Nat) (e : Word)
      (visits : Sv32.Visits 32 (pteAt s) (address + BitVec.ofNat 32 k) 1 (rootPpn s) y)
      (read : pteAt s y = some e) : ∃ e', pteAt t y = some e' ∧ Sv32.Pte.kind e' = Sv32.Pte.kind e ∧
        Sv32.Pte.ppn e' = Sv32.Pte.ppn e := by
    obtain ⟨p,_,_,held,value⟩ := now y e visits read
    obtain ⟨kind,ppn,_⟩ := marked_entry value
    exact ⟨_, held, kind, ppn⟩
  have visits := Sv32.walk_leaf_visits 1 (rootPpn s) leaf
  have read := (Sv32.walk_leaf_read 1 (rootPpn s) leaf).1
  obtain ⟨q,located,clear,held,value⟩ := now x entry visits read
  obtain ⟨entry',read',walked⟩ := Sv32.walk_follow 1 (rootPpn s) leaf kept
  rw [held] at read'
  obtain rfl := Option.some.inj read'
  refine ⟨q, located, clear, value, ?_⟩
  rw [busWalk,root,walked]

/-- In the block and out of the first leaf's reach, a byte store keeps the agreement. -/
theorem AgreeOutside.storeInside {u : State} (agree : AgreeOutside buffer offset width u t)
    (bound : k < width) (byte : Byte) :
    AgreeOutside buffer offset width u (storeAt t buffer (offset + k) [byte]) := by
  intro i j outside
  rw [storeAt_outside]
  · exact agree i j outside
  · rintro ⟨same,low,high⟩
    rw [List.length_singleton] at high
    exact outside ⟨same, by omega, by omega⟩

theorem next_address (k : Nat) :
    address + BitVec.ofNat 32 k + 1 = address + BitVec.ofNat 32 (k + 1) := by
  rw [BitVec.add_assoc]
  congr 1
  apply BitVec.eq_of_toNat_eq
  simp

/-- Each address of the access is mapped to the next byte, and a leaf other than the first one
has its flags. -/
structure Adjoining (s : State) (address : Word) (width buffer offset : Nat) : Prop where
  lands : ∀ k, k < width → ∃ t, Lands s (address + BitVec.ofNat 32 k) .load t buffer (offset + k)
  flagged : ∀ k, k < width → ∀ level x entry,
    busWalk s (address + BitVec.ofNat 32 k) = .leaf level x entry →
    (∃ level₀ entry₀, busWalk s address = .leaf level₀ x entry₀) ∨
      Sv32.Pte.accessed entry = true ∧ Sv32.Pte.dirty entry = true

theorem Adjoining.follows (paged : Paged s) (apart : Apart s address width buffer offset)
    (first : busWalk s address = .leaf level₀ x₀ entry₀)
    (adjoining : Adjoining s address width buffer offset) (whole : k + rest = width)
    (only : RamOnly s t) (agree : AgreeOutside buffer offset width (markEntry s x₀ entry₀ .store) t) :
    Follows t (address + BitVec.ofNat 32 k) buffer (offset + k) rest := by
  induction rest generalizing k t with
  | zero => trivial
  | succ rest ih =>
    have bound : k < width := by omega
    obtain ⟨_,landed⟩ := adjoining.lands k bound
    obtain ⟨level,x,entry,leaf,_,byteAt⟩ := (lands_iff paged).mp landed
    obtain ⟨q,located,clear,value,walked⟩ := busWalk_during apart first only agree bound leaf
    have map : t.memoryMap = s.memoryMap := by rw [only]
    obtain ⟨_,_,physical⟩ := marked_entry value
    -- both flags are there: by the walk of the first address, or from the start
    have flags : Sv32.Pte.mark (deref t q) .write = deref t q := by
      rw [value]
      split
      next => exact Sv32.mark_mark ..
      next other =>
        rcases adjoining.flagged k bound level x entry leaf with ⟨_,_,same⟩ | set
        · rw [first] at same
          obtain ⟨_,here,_⟩ := Sv32.Outcome.leaf.inj same
          exact absurd here.symm other
        · exact (Sv32.mark_write_eq_iff entry).mpr set
    have quiet : markEntry t x (deref t q) .store = t := by
      have located' : wordLocation t.memoryMap (BitVec.ofNat 32 x) = some q := by rw [map,located]
      have same : Sv32.Pte.mark (deref t q) AccessType.store.toSv32 = deref t q := flags
      rw [markEntry_located located',same,putWord_deref]
    have lands : Lands t (address + BitVec.ofNat 32 k) .store t buffer (offset + k) := by
      apply (lands_iff (only.paged paged)).mpr
      refine ⟨level, x, deref t q, walked, quiet.symm, ?_⟩
      rw [map,physical]
      exact byteAt
    refine ⟨t, lands, fun _ _ _ => rfl, fun byte => ?_⟩
    rw [next_address,Nat.add_assoc]
    exact ih (by omega) (only.trans (storeAt_ramOnly ..)) (agree.storeInside bound byte)

/-- What the block says of the page tables, address by address. -/
theorem Follows.adjoins (paged : Paged s) (apart : Apart s address width buffer offset)
    (first : busWalk s address = .leaf level₀ x₀ entry₀)
    (landed : ∀ k, k < width → ∃ t i j, Lands s (address + BitVec.ofNat 32 k) .load t i j)
    (whole : k + rest = width) (only : RamOnly s t)
    (agree : AgreeOutside buffer offset width (markEntry s x₀ entry₀ .store) t)
    (follows : Follows t (address + BitVec.ofNat 32 k) buffer (offset + k) rest)
    (start : k ≤ n) (bound : n < width) :
    (∃ u, Lands s (address + BitVec.ofNat 32 n) .load u buffer (offset + n)) ∧
      ∀ level x entry, busWalk s (address + BitVec.ofNat 32 n) = .leaf level x entry →
        x = x₀ ∨ Sv32.Pte.accessed entry = true ∧ Sv32.Pte.dirty entry = true := by
  induction rest generalizing k t with
  | zero => omega
  | succ rest ih =>
    have here : k < width := by omega
    obtain ⟨u,lands,quiet,next⟩ := follows
    obtain ⟨_,_,_,static⟩ := landed k here
    obtain ⟨level,x,entry,leaf,_⟩ := (lands_iff paged).mp static
    obtain ⟨q,located,clear,value,walked⟩ := busWalk_during apart first only agree here leaf
    have map : t.memoryMap = s.memoryMap := by rw [only]
    obtain ⟨_,_,_,walked',marked,byteAt⟩ := (lands_iff (only.paged paged)).mp lands
    rw [walked] at walked'
    obtain ⟨rfl,rfl,rfl⟩ := Sv32.Outcome.leaf.inj walked'
    by_cases last : n = k
    · subst last
      constructor
      · refine ⟨_, (lands_iff paged).mpr ⟨level, x, entry, leaf, rfl, ?_⟩⟩
        obtain ⟨_,_,physical⟩ := marked_entry value
        rwa [map,physical] at byteAt
      · intro level' x' entry' leaf'
        rw [leaf] at leaf'
        obtain ⟨rfl,rfl,rfl⟩ := Sv32.Outcome.leaf.inj leaf'
        by_cases same : x = x₀
        · exact Or.inl same
        · -- the entry is outside of what is left of the block, so its marking was idle
          have clear' : q.Clear buffer (offset + n) (rest + 1) := by
            intro inside
            have := clear inside
            omega
          have located' : wordLocation t.memoryMap (BitVec.ofNat 32 x) = some q := by rw [map,located]
          have idle := quiet.deref clear'
          rw [marked,markEntry_located located',deref_putWord,value,if_neg same] at idle
          exact Or.inr ((Sv32.mark_write_eq_iff entry).mp idle)
    · have only' : RamOnly s (storeAt u buffer (offset + k) [0]) :=
        (only.trans lands.ramOnly).trans (storeAt_ramOnly ..)
      have agree' : AgreeOutside buffer offset width (markEntry s x₀ entry₀ .store) u := by
        intro i j outside
        rw [quiet i j fun inside => outside ⟨inside.1, by omega, by omega⟩]
        exact agree i j outside
      have follows' := next 0
      rw [next_address,Nat.add_assoc] at follows'
      exact ih (by omega) only' (agree'.storeInside here 0) follows' (by omega)

end Walks

section Law

variable {wide : Wide} {s : State} {address : Word}

/-- Marking a leaf of the access does not reach its block. -/
theorem Apart.marked_block (apart : Apart s address width buffer offset) (k : Nat) (bound : k < width)
    (leaf : busWalk s (address + BitVec.ofNat 32 k) = .leaf level x entry) (j : Nat) (inside : j < width) :
    (markEntry s x entry .load).ram buffer (offset + j) = s.ram buffer (offset + j) := by
  obtain ⟨_,_,q,located,_⟩ := busWalk_leaf_located leaf
  have clear := apart k bound x q (Sv32.walk_leaf_visits 1 (rootPpn s) leaf) located
  exact markEntry_block .load located clear (by omega) (by omega)

/-- The first byte of the block, stored after its leaf is marked. -/
theorem firstStore (x : Nat) (entry : Word) (buffer offset : Nat) (byte : Byte) :
    RamOnly s (storeAt (markEntry s x entry .store) buffer (offset + 0) [byte]) ∧
      AgreeOutside buffer offset wide.bytes (markEntry s x entry .store)
        (storeAt (markEntry s x entry .store) buffer (offset + 0) [byte]) :=
  ⟨(markEntry_ramOnly ..).trans (storeAt_ramOnly ..),
    AgreeOutside.storeInside (fun _ _ _ => rfl) wide.bytes_pos byte⟩

theorem OneBlock.adjoining (block : OneBlock wide s address) (paged : Paged s)
    (landed : ∀ k, k < wide.bytes → ∃ t i j, Lands s (address + BitVec.ofNat 32 k) .load t i j)
    (lands : Lands s address .load t buffer offset)
    (apart : Apart s address wide.bytes buffer offset) :
    Adjoining s address wide.bytes buffer offset := by
  have start : address + BitVec.ofNat 32 0 = address := BitVec.add_zero address
  obtain ⟨level₀,x₀,entry₀,first,rfl,_⟩ := (lands_iff paged).mp lands
  obtain ⟨_,u,_,_,loaded,marked,_,_,follows⟩ := block
  obtain ⟨_,rfl,rfl⟩ := lands.unique loaded
  obtain rfl := marked.marked paged first
  have whole : 1 + (wide.bytes - 1) = wide.bytes := by
    have := wide.bytes_pos
    omega
  obtain ⟨only,agree⟩ := firstStore x₀ entry₀ _ _ 0
  have each (k : Nat) (later : 1 ≤ k) (bound : k < wide.bytes) :=
    (follows 0).adjoins paged apart first landed whole only agree later bound
  constructor
  · intro k bound
    by_cases zero : k = 0
    · subst zero
      rw [start]
      exact ⟨_,lands⟩
    · exact (each k (by omega) bound).1
  · intro k bound level x entry leaf
    by_cases zero : k = 0
    · subst zero
      rw [start] at leaf
      exact Or.inl ⟨level,entry,leaf⟩
    · rcases (each k (by omega) bound).2 level x entry leaf with rfl | set
      · exact Or.inl ⟨level₀,entry₀,first⟩
      · exact Or.inr set

theorem Adjoining.oneBlock (adjoining : Adjoining s address wide.bytes buffer offset)
    (paged : Paged s) (lands : Lands s address .load t buffer offset)
    (apart : Apart s address wide.bytes buffer offset) : OneBlock wide s address := by
  obtain ⟨rest,bytes⟩ := Nat.exists_eq_succ_of_ne_zero wide.bytes_pos.ne'
  have start : address + BitVec.ofNat 32 0 = address := BitVec.add_zero address
  have second : address + 1 = address + BitVec.ofNat 32 1 := rfl
  obtain ⟨level₀,x₀,entry₀,first,rfl,_⟩ := (lands_iff paged).mp lands
  have marked : Lands s address .store (markEntry s x₀ entry₀ .store) buffer offset := by
    obtain ⟨u,marked⟩ := lands.store
    obtain rfl := marked.marked paged first
    exact marked
  have fits : offset + wide.bytes ≤ s.bufferSize buffer := by
    obtain ⟨v,last⟩ := adjoining.lands rest (by omega)
    have inside := last.inside
    rw [last.bufferSize] at inside
    omega
  refine ⟨_, _, buffer, offset, lands, marked, fits, ?_, ?_⟩
  · intro k bound
    obtain ⟨v,landing⟩ := adjoining.lands k bound
    refine ⟨v, buffer, offset + k, landing, ?_⟩
    obtain ⟨level,x,entry,leaf,rfl,_⟩ := (lands_iff paged).mp landing
    rw [apart.marked_block k bound leaf k bound]
    rw [← start] at first
    rw [apart.marked_block 0 wide.bytes_pos first k bound]
  · intro byte
    obtain ⟨only,agree⟩ := firstStore x₀ entry₀ buffer offset byte
    rw [second]
    exact adjoining.follows paged apart first (by omega) only agree

/-- For an access apart from the entries that translate it, one block means adjoining pages. -/
theorem oneBlock_iff (paged : Paged s)
    (landed : ∀ k, k < wide.bytes → ∃ t i j, Lands s (address + BitVec.ofNat 32 k) .load t i j)
    (lands : Lands s address .load t buffer offset)
    (apart : Apart s address wide.bytes buffer offset) :
    OneBlock wide s address ↔ Adjoining s address wide.bytes buffer offset :=
  ⟨fun block => block.adjoining paged landed lands apart,
    fun adjoining => adjoining.oneBlock paged lands apart⟩

end Law

theorem vpn_next {address : Word} {k : Nat} (page : address.toNat % 2 ^ 12 + k < 2 ^ 12) (level : Nat) :
    Sv32.vpn (address + BitVec.ofNat 32 k) level = Sv32.vpn address level := by
  have whole := address.isLt
  have sum : (address + BitVec.ofNat 32 k).toNat = address.toNat + k := by
    rw [BitVec.toNat_add,BitVec.toNat_ofNat]
    omega
  have frame : (address.toNat + k) / 2 ^ 12 = address.toNat / 2 ^ 12 := by omega
  rw [Sv32.vpn,Sv32.vpn,sum,Nat.pow_add,← Nat.div_div_eq_div_mul,← Nat.div_div_eq_div_mul,frame]

/-- Inside a page the physical address moves with the virtual one. -/
theorem leafPhysical_next {level k : Nat} (top : level ≤ 1) {address : Word} (entry : Word)
    (page : address.toNat % 2 ^ 12 + k < 2 ^ 12) :
    leafPhysical level entry (address + BitVec.ofNat 32 k) =
      leafPhysical level entry address + BitVec.ofNat 32 k := by
  have whole := address.isLt
  let mask : Word := ((1 : Word) <<< (pageShift + 10 * level)) - 1
  have number : mask.toNat = 2 ^ (12 + 10 * level) - 1 := vaddrMask_toNat top
  have split (va : Word) : leafPhysical level entry va =
      (va &&& mask) + (((entry >>> 10) <<< pageShift) &&& ~~~mask) := by
    rw [BitVec.add_eq_or_of_and_eq_zero]
    · rfl
    · apply BitVec.eq_of_getLsbD_eq
      intro i _
      simp only [BitVec.getLsbD_and,BitVec.getLsbD_not,BitVec.getLsbD_zero]
      cases mask.getLsbD i <;> simp
  have low : (address + BitVec.ofNat 32 k) &&& mask = (address &&& mask) + BitVec.ofNat 32 k := by
    apply BitVec.eq_of_toNat_eq
    rw [BitVec.toNat_and,BitVec.toNat_add,BitVec.toNat_add,BitVec.toNat_and,number,
      Nat.and_two_pow_sub_one_eq_mod,Nat.and_two_pow_sub_one_eq_mod,BitVec.toNat_ofNat]
    interval_cases level <;> omega
  rw [split,split,low,BitVec.add_assoc,BitVec.add_assoc,BitVec.add_comm (BitVec.ofNat 32 k)]

/-- An access inside one page is made of adjoining bytes as soon as the buffer holds them all. -/
theorem adjoining_of_page {s : State} {address : Word} (paged : Paged s)
    (separate : Separate s.memoryMap) (lands : Lands s address .load t buffer offset)
    (page : address.toNat % 2 ^ 12 + width ≤ 2 ^ 12)
    (fits : offset + width ≤ s.bufferSize buffer) : Adjoining s address width buffer offset := by
  obtain ⟨level,x,entry,leaf,_,range,found,ram,rfl,rfl⟩ := (lands_iff paged).mp lands
  have top := (Sv32.walk_leaf_read 1 (rootPpn s) leaf).2.2.1
  have walk (k : Nat) (bound : k < width) :
      busWalk s (address + BitVec.ofNat 32 k) = .leaf level x entry := by
    rw [← leaf]
    exact Sv32.walk_vpn 1 (rootPpn s) fun l _ => vpn_next (by omega) l
  constructor
  · intro k bound
    have spec := getPhysMemRange_spec found
    have covers := getPhysMemRange_covers found
    have low : range.entry.address.toNat ≤ (leafPhysical level entry address).toNat := covers.1
    rw [BitVec.toNat_sub_of_le low,bufferSize_eq spec.1] at fits
    have below := separate.below range.entry (List.mem_of_getElem? spec.1)
    have sum : (leafPhysical level entry address + BitVec.ofNat 32 k).toNat =
        (leafPhysical level entry address).toNat + k := by
      rw [BitVec.toNat_add,BitVec.toNat_ofNat]
      omega
    have covers' : range.entry.Covers (leafPhysical level entry address + BitVec.ofNat 32 k).toNat := by
      rw [sum]
      exact ⟨by omega, by omega⟩
    have next := getPhysMemRange_of_covers separate spec.1 covers'
    refine ⟨_, (lands_iff paged).mpr ⟨level, x, entry, walk k bound, rfl, range, ?_, ram, rfl, ?_⟩⟩
    · rw [leafPhysical_next top entry (by omega),next]
    · have low' : range.entry.address.toNat ≤
          (leafPhysical level entry address + BitVec.ofNat 32 k).toNat := by omega
      rw [leafPhysical_next top entry (by omega),BitVec.toNat_sub_of_le low',
        BitVec.toNat_sub_of_le low,sum]
      omega
  · intro k bound level' x' entry' leaf'
    rw [walk k bound] at leaf'
    obtain ⟨rfl,rfl,rfl⟩ := Sv32.Outcome.leaf.inj leaf'
    exact Or.inl ⟨level,entry,leaf⟩

section Access

variable [Platform] {wide : Wide} {s : State} {address : Word}

/-- Inside one page, the wide access agrees with the byte accesses. -/
theorem agrees_of_page (paged : Paged s) (separate : Separate s.memoryMap)
    (lands : Lands s address .load t buffer offset)
    (apart : Apart s address wide.bytes buffer offset)
    (page : address.toNat % 2 ^ 12 + wide.bytes ≤ 2 ^ 12)
    (fits : offset + wide.bytes ≤ s.bufferSize buffer) : Agrees wide s address := by
  have adjoining := adjoining_of_page paged separate lands page fits
  have landed : ∀ k, k < wide.bytes → ∃ t i j, Lands s (address + BitVec.ofNat 32 k) .load t i j := by
    intro k bound
    obtain ⟨u,landing⟩ := adjoining.lands k bound
    exact ⟨u, buffer, offset + k, landing⟩
  exact (agrees_iff landed).mpr ((oneBlock_iff paged landed lands apart).mpr adjoining)

/-- A wide access agrees with the byte accesses if and only if its bytes are one block; apart
from the entries that translate it, if and only if its pages adjoin. -/
theorem wideAccess_agrees_iff (paged : Paged s)
    (landed : ∀ k, k < wide.bytes → ∃ t i j, Lands s (address + BitVec.ofNat 32 k) .load t i j) :
    (Agrees wide s address ↔ OneBlock wide s address) ∧
    ∀ t buffer offset, Lands s address .load t buffer offset →
      Apart s address wide.bytes buffer offset →
      (OneBlock wide s address ↔ Adjoining s address wide.bytes buffer offset) :=
  ⟨agrees_iff landed, fun _ _ _ lands apart => oneBlock_iff paged landed lands apart⟩

end Access

/-- The pages from 0x1000 and 0x2000 on are mapped by the second and the third entry of a root
table that is its own last-level table; the first page has frame 0x80002, and the first byte of
frame 0x80005 is set. -/
def twoPages (second : Word) : State :=
  storeAt (guest privS [0x20000001,0x200008cf,second]) 0 0x5000 [1]

theorem twoPages_paged (second : Word) : Paged (twoPages second) :=
  (storeAt_ramOnly ..).paged (guest_paged (Or.inl rfl) _)

theorem twoPages_lands {second address : Word} (x : Nat) (entry : Word) {offset : Nat}
    (leaf : busWalk (twoPages second) address = .leaf 0 x entry)
    (found : getPhysMemRange (twoPages second).memoryMap (leafPhysical 0 entry address) =
      some ⟨0,⟨0x80000000, 0x10000, true, none, none⟩⟩)
    (place : (leafPhysical 0 entry address - 0x80000000).toNat = offset) :
    Lands (twoPages second) address .load (markEntry (twoPages second) x entry .load) 0 offset :=
  (lands_iff (twoPages_paged second)).mpr ⟨0, x, entry, leaf, rfl, _, found, rfl, rfl, place⟩

/-- The word at 0x1ffe, with neighbouring frames and all flags set. -/
theorem wideAccess_agrees_neighbours : @Agrees clearingPlatform .word (twoPages 0x20000ccf) 0x1ffe := by
  let _ : Platform := clearingPlatform
  have each : ∀ k, k < Wide.word.bytes → ∃ x entry,
      busWalk (twoPages 0x20000ccf) (0x1ffe + BitVec.ofNat 32 k) = .leaf 0 x entry ∧
      (Sv32.Pte.accessed entry = true ∧ Sv32.Pte.dirty entry = true) ∧
      Lands (twoPages 0x20000ccf) (0x1ffe + BitVec.ofNat 32 k) .load
        (markEntry (twoPages 0x20000ccf) x entry .load) 0 (0x2ffe + k) := by
    intro k bound
    change k < 4 at bound
    interval_cases k
    · exact ⟨0x80000004, 0x200008cf, by decide, by decide, twoPages_lands _ _ (by decide) (by decide) rfl⟩
    · exact ⟨0x80000004, 0x200008cf, by decide, by decide, twoPages_lands _ _ (by decide) (by decide) rfl⟩
    · exact ⟨0x80000008, 0x20000ccf, by decide, by decide, twoPages_lands _ _ (by decide) (by decide) rfl⟩
    · exact ⟨0x80000008, 0x20000ccf, by decide, by decide, twoPages_lands _ _ (by decide) (by decide) rfl⟩
  have landed (k : Nat) (bound : k < Wide.word.bytes) : ∃ t i j,
      Lands (twoPages 0x20000ccf) (0x1ffe + BitVec.ofNat 32 k) .load t i j := by
    obtain ⟨_,_,_,_,lands⟩ := each k bound
    exact ⟨_,_,_,lands⟩
  have adjoining : Adjoining (twoPages 0x20000ccf) 0x1ffe Wide.word.bytes 0 0x2ffe := by
    constructor
    · intro k bound
      obtain ⟨_,_,_,_,lands⟩ := each k bound
      exact ⟨_,lands⟩
    · intro k bound level x entry leaf
      obtain ⟨_,_,leaf',flags,_⟩ := each k bound
      rw [leaf] at leaf'
      obtain ⟨_,_,rfl⟩ := Sv32.Outcome.leaf.inj leaf'
      exact Or.inr flags
  -- all entries that are read are the first three words of RAM
  have apart : Apart (twoPages 0x20000ccf) 0x1ffe Wide.word.bytes 0 0x2ffe := by
    have low : ∀ k : Fin 4, ∀ level : Fin 2, (wordLocation (twoPages 0x20000ccf).memoryMap
        (BitVec.ofNat 32 (Sv32.entryAddress 32 (0x1ffe + BitVec.ofNat 32 k) level 0x80000))).all
          (fun q => decide (q.offset ≤ 8)) = true := by decide
    have root : rootPpn (twoPages 0x20000ccf) = 0x80000 := by decide
    have pointer : ∀ k : Fin 4, pteAt (twoPages 0x20000ccf)
        (Sv32.entryAddress 32 (0x1ffe + BitVec.ofNat 32 k) 1 0x80000) = some 0x20000001 := by decide
    intro k bound x q visits located _
    have near (level : Fin 2) (place : x = Sv32.entryAddress 32 (0x1ffe + BitVec.ofNat 32 k) level 0x80000) :
        q.offset + 4 ≤ 0x2ffe := by
      have bounded := low ⟨k,bound⟩ level
      dsimp only at bounded
      rw [← place,located] at bounded
      have := of_decide_eq_true bounded
      omega
    rw [root] at visits
    rcases visits with place | ⟨e,read,_,place⟩
    · exact Or.inl (near 1 place)
    · have entry := pointer ⟨k,bound⟩
      dsimp only at entry
      rw [entry] at read
      obtain rfl := Option.some.inj read
      exact Or.inl (near 0 place)
  have law := wideAccess_agrees_iff (twoPages_paged 0x20000ccf) landed
  obtain ⟨_,_,_,_,loaded⟩ := each 0 Wide.word.bytes_pos
  exact law.1.mpr ((law.2 _ 0 0x2ffe loaded apart).mpr adjoining)

/-- With unrelated frames the word read takes its upper half from the wrong frame. -/
theorem twoPages_disagrees : Paged (twoPages 0x200014cf) ∧
    (∀ k, k < Wide.word.bytes → ∃ t i j,
      Lands (twoPages 0x200014cf) (0x1ffe + BitVec.ofNat 32 k) .load t i j) ∧
    ¬@Agrees clearingPlatform .word (twoPages 0x200014cf) 0x1ffe := by
  have first : Lands (twoPages 0x200014cf) 0x1ffe .load
      (markEntry (twoPages 0x200014cf) 0x80000004 0x200008cf .load) 0 0x2ffe :=
    twoPages_lands _ _ (by decide) (by decide) rfl
  have third : Lands (twoPages 0x200014cf) (0x1ffe + BitVec.ofNat 32 2) .load
      (markEntry (twoPages 0x200014cf) 0x80000008 0x200014cf .load) 0 0x5000 :=
    twoPages_lands _ _ (by decide) (by decide) rfl
  refine ⟨twoPages_paged _, ?_, ?_⟩
  · intro k bound
    change k < 4 at bound
    interval_cases k
    · exact ⟨_,_,_,first⟩
    · exact ⟨_, _, 0x2fff, twoPages_lands 0x80000004 0x200008cf (by decide) (by decide) rfl⟩
    · exact ⟨_,_,_,third⟩
    · exact ⟨_, _, 0x5001, twoPages_lands 0x80000008 0x200014cf (by decide) (by decide) rfl⟩
  · let _ : Platform := clearingPlatform
    intro agrees
    have same := agrees.readBlock first (show 0x2ffe + 4 ≤ 0x10000 by decide) 2 (by decide) third
    revert same
    decide

end Emuriscv
