import Emuriscv.Reset
import Emuriscv.StepMoves
import Emuriscv.StringDump

/-! What page tables protect. As long as a guest stays below M mode on the same tables, and these
map no page onto themselves, it changes the memory that they map, the flags in their entries and
nothing else. -/
namespace Emuriscv

open LabelledRun

/-- The physical address that the page tables give a virtual one. -/
def mapped (s : State) (virtualAddress : Word) : Option Word :=
  match busWalk s virtualAddress with
  | .leaf level _ entry => some (leafPhysical level entry virtualAddress)
  | _ => none

/-- The word is an entry that the walk of the address looks at. -/
def EntryOf (s : State) (virtualAddress : Word) (p : WordPtr) : Prop :=
  ∃ address, Sv32.Visits 32 (pteAt s) virtualAddress 1 (rootPpn s) address ∧
    address < 2 ^ 32 ∧ wordLocation s.memoryMap (BitVec.ofNat 32 address) = some p

def TableEntry (s : State) (p : WordPtr) : Prop := ∃ virtualAddress, EntryOf s virtualAddress p

/-- The byte at `j` in buffer `i` is one of the word. -/
def WordPtr.Has (p : WordPtr) (i j : Nat) : Prop := i = p.buffer ∧ p.offset ≤ j ∧ j < p.offset + 4

/-- A store is not split at the end of its page, so it reaches up to three bytes behind it. -/
def Reachable (s : State) (i j : Nat) : Prop :=
  ∃ virtualAddress physicalAddress range, mapped s virtualAddress = some physicalAddress ∧
    getPhysMemRange s.memoryMap physicalAddress = some range ∧ range.entry.isRam = true ∧
    WordPtr.Has ⟨range.index,(physicalAddress - range.entry.address).toNat⟩ i j

def MapsDevice (s : State) : Prop :=
  ∃ virtualAddress physicalAddress range, mapped s virtualAddress = some physicalAddress ∧
    getPhysMemRange s.memoryMap physicalAddress = some range ∧ range.entry.isRam = false

/-- No entry is in reach of the stores that the tables allow. -/
def TablesGuarded (s : State) : Prop := ∀ p i j, TableEntry s p → p.Has i j → ¬Reachable s i j

/-- What is left of a state by a guest on its page tables. -/
structure Confined (s t : State) : Prop where
  map : t.memoryMap = s.memoryMap
  tables : ∀ p, TableEntry s p → Sv32.Pte.mark (deref t p) .write = Sv32.Pte.mark (deref s p) .write
  ram : ∀ i j, ¬Reachable s i j → (∀ p, TableEntry s p → ¬p.Has i j) → t.ram i j = s.ram i j
  devices : ¬MapsDevice s → t.vm = s.vm ∧ t.uart = s.uart ∧ t.console = s.console

/-- Addresses are translated, and by the tables of the other state. -/
structure Translates (s t : State) : Prop where
  walks : Walks t
  satp : readCsr t csrSatp = readCsr s csrSatp

theorem Confined.refl (s : State) : Confined s s :=
  ⟨rfl, fun _ _ => rfl, fun _ _ _ _ => rfl, fun _ => ⟨rfl,rfl,rfl⟩⟩

section Alike

variable {s t : State}

/-- Where the entries of a walk differ in their flags only, so do the walks. -/
theorem busWalk_marked (map : t.memoryMap = s.memoryMap) (satp : readCsr t csrSatp = readCsr s csrSatp)
    (tables : ∀ p, EntryOf s a p →
      Sv32.Pte.mark (deref t p) .write = Sv32.Pte.mark (deref s p) .write) :
    (busWalk t a).map (Sv32.Pte.mark · .write) = (busWalk s a).map (Sv32.Pte.mark · .write) := by
  have root : rootPpn t = rootPpn s := by rw [rootPpn,rootPpn,satp]
  rw [busWalk,busWalk,root]
  refine Sv32.walk_map_visits (fun e => Sv32.mark_kind e .write) (fun e => Sv32.mark_ppn e .write) 1 _ ?_
  intro x visits
  unfold pteAt
  split
  next small =>
    rw [map]
    cases located : wordLocation s.memoryMap (BitVec.ofNat 32 x) with
    | none => rfl
    | some p =>
      rw [Option.map_some,Option.map_some,Option.map_some,Option.map_some,
        tables p ⟨x, visits, small, located⟩]
  next => rfl

/-- A leaf is met where it was, and leads where it led. -/
theorem leaf_marked
    (walks : (busWalk t a).map (Sv32.Pte.mark · .write) = (busWalk s a).map (Sv32.Pte.mark · .write))
    (here : busWalk t a = .leaf level address entry) :
    ∃ entry', busWalk s a = .leaf level address entry' ∧
      leafPhysical level entry' a = leafPhysical level entry a := by
  rw [here,Sv32.Outcome.map] at walks
  cases there : busWalk s a <;> rw [there] at walks <;>
    simp only [Sv32.Outcome.map,reduceCtorEq,Sv32.Outcome.leaf.injEq] at walks
  obtain ⟨rfl,rfl,alike⟩ := walks
  refine ⟨_, rfl, ?_⟩
  rw [← leafPhysical_mark level _ a .write,← alike,leafPhysical_mark]

theorem EntryOf.of_leaf (leaf : busWalk s a = .leaf level address entry)
    (located : wordLocation s.memoryMap (BitVec.ofNat 32 address) = some p) : EntryOf s a p := by
  obtain ⟨small,_⟩ := busWalk_leaf_located leaf
  exact ⟨address, Sv32.walk_leaf_visits 1 _ leaf, small, located⟩

end Alike

section Confined

variable {s t u : State}

theorem Confined.leaf (confined : Confined s t) (satp : readCsr t csrSatp = readCsr s csrSatp)
    (here : Emuriscv.busWalk t a = .leaf level address entry) :
    ∃ entry', Emuriscv.busWalk s a = .leaf level address entry' ∧
      leafPhysical level entry' a = leafPhysical level entry a :=
  leaf_marked (busWalk_marked confined.map satp fun p entry => confined.tables p ⟨a,entry⟩) here

theorem Confined.tableEntry (confined : Confined s t) (satp : readCsr t csrSatp = readCsr s csrSatp)
    (here : Emuriscv.busWalk t a = .leaf level address entry)
    (located : wordLocation t.memoryMap (BitVec.ofNat 32 address) = some p) : TableEntry s p := by
  obtain ⟨entry',there,_⟩ := confined.leaf satp here
  rw [confined.map] at located
  exact ⟨a, .of_leaf there located⟩

theorem Confined.mapped (confined : Confined s t) (satp : readCsr t csrSatp = readCsr s csrSatp)
    (here : Emuriscv.busWalk t a = .leaf level address entry) :
    mapped s a = some (leafPhysical level entry a) := by
  obtain ⟨entry',there,same⟩ := confined.leaf satp here
  rw [Emuriscv.mapped,there,← same]

theorem deref_of_bytes {p : WordPtr} (same : ∀ i j, p.Has i j → t.ram i j = s.ram i j) :
    deref t p = deref s p := by
  apply word_ext
  intro k bound
  rw [byteOf_deref _ _ _ bound,byteOf_deref _ _ _ bound]
  exact same _ _ ⟨rfl, by omega, by omega⟩

/-- Entries at different addresses share no byte. -/
theorem EntryOf.apart {p q : WordPtr} (first : EntryOf s a p) (second : EntryOf s b q) :
    q = p ∨ ∀ i j, p.Has i j → ¬q.Has i j := by
  obtain ⟨x,visits,small,located⟩ := first
  obtain ⟨y,visits',small',located'⟩ := second
  by_cases same : y = x
  · subst same
    exact Or.inl (Option.some.inj (located'.symm.trans located))
  · refine Or.inr ?_
    rintro i j ⟨rfl,low,high⟩ ⟨buffer,low',high'⟩
    have := wordLocation_apart located located' same small small'
      (Sv32.visits_aligned (by decide) _ _ visits) (Sv32.visits_aligned (by decide) _ _ visits')
      buffer.symm
    omega

theorem Confined.translated (confined : Confined s t) (translates : Translates s t)
    (h : translateAddress t a accessType = .ok translation) : Confined s translation.state := by
  rcases translateAddress_ok h with
    ⟨_,rfl⟩ | ⟨_,_,rfl⟩ | ⟨_,_,rfl⟩ | ⟨level,address,entry,_,leaf,rfl⟩
  · exact confined
  · exact confined
  · exact confined
  · obtain ⟨_,_,p,located,held⟩ := busWalk_leaf_located leaf
    have isEntry := confined.tableEntry translates.satp leaf located
    obtain ⟨_,entryOf⟩ := isEntry
    have marked : markEntry t address entry accessType =
        putWord t p (Sv32.Pte.mark entry accessType.toSv32) := markEntry_located located
    dsimp only
    rw [marked]
    refine ⟨(putWord_memoryMap ..).trans confined.map, ?_, ?_, ?_⟩
    · intro q other
      obtain ⟨_,otherOf⟩ := other
      rcases entryOf.apart otherOf with rfl | apart
      · rw [deref_putWord,Sv32.mark_mark_write,← held]
        exact confined.tables q ⟨_,otherOf⟩
      · have same : deref (putWord t p (Sv32.Pte.mark entry accessType.toSv32)) q = deref t q := by
          apply deref_of_bytes
          intro i j has
          exact (putWord_ram ..).trans (if_neg fun inside => apart i j inside has)
        rw [same]
        exact confined.tables q ⟨_,otherOf⟩
    · intro i j unreachable outside
      exact ((putWord_ram ..).trans (if_neg (outside p ⟨_,entryOf⟩))).trans
        (confined.ram i j unreachable outside)
    · intro none
      rw [putWord_eq]
      exact confined.devices none

theorem Resolves.mapped {range : RangePtr} (confined : Confined s t) (translates : Translates s t)
    (resolves : Resolves t a accessType u range offset) :
    ∃ physicalAddress, mapped s a = some physicalAddress ∧
      getPhysMemRange s.memoryMap physicalAddress = some range ∧
      offset = physicalAddress - range.entry.address := by
  obtain ⟨translation,physicalAddress,translated,assigned,_,found,place⟩ := resolves.translated
  rw [confined.map] at found
  rcases translateAddress_ok translated with
    ⟨direct,_⟩ | ⟨_,_,rfl⟩ | ⟨_,_,rfl⟩ | ⟨level,address,entry,_,leaf,rfl⟩
  · exact absurd translates.walks direct
  · contradiction
  · contradiction
  · obtain rfl := Option.some.inj assigned
    exact ⟨_, confined.mapped translates.satp leaf, found, place⟩

theorem Confined.resolved {range : RangePtr} (confined : Confined s t) (translates : Translates s t)
    (resolves : Resolves t a accessType u range offset) : Confined s u := by
  obtain ⟨_,_,translated,_,rfl,_⟩ := resolves.translated
  exact confined.translated translates translated

theorem writeCommonRam_outside {buffer offset i j : Nat} (size : sizeLog2 ≤ 2)
    (ran : writeCommonRam s ⟨some buffer,offset⟩ value sizeLog2 = .ok t)
    (outside : ¬WordPtr.Has ⟨buffer,offset⟩ i j) : t.ram i j = s.ram i j := by
  have inside := (writeCommonRam_returns_iff s buffer offset value size).mp ⟨t,ran⟩
  rw [writeCommonRam_bytes s buffer offset value size inside] at ran
  obtain rfl := Except.ok.inj ran
  apply storeAt_outside
  rintro ⟨same,low,high⟩
  rw [FlatMemory.toBytes_length] at high
  have small : 2 ^ sizeLog2 ≤ 2 ^ 2 := Nat.pow_le_pow_right (by decide) size
  exact outside ⟨same, low, Nat.lt_of_lt_of_le high (Nat.add_le_add_left small offset)⟩

/-- The step lemma, for one move. -/
theorem Move.confined [Platform] (guarded : TablesGuarded s) (confined : Confined s t)
    (translates : Translates s t) (move : Move t u) : Confined s u := by
  cases move with
  | hart only =>
    rw [only]
    exact ⟨confined.map, confined.tables, confined.ram, confined.devices⟩
  | translated translated => exact confined.translated translates translated
  | @stored a v range offset sizeLog2 value _ resolves ram size ran =>
    obtain ⟨physicalAddress,leads,found,rfl⟩ := resolves.mapped confined translates
    have before := confined.resolved translates resolves
    have only := writeCommonRam_ramOnly ran
    have reach (i j : Nat) (unreachable : ¬Reachable s i j) : u.ram i j = v.ram i j := by
      refine writeCommonRam_outside size ran fun has => unreachable ?_
      exact ⟨a, physicalAddress, range, leads, found, ram, has⟩
    refine ⟨?_, ?_, ?_, ?_⟩
    · rw [only]
      exact before.map
    · intro p isEntry
      rw [deref_of_bytes fun i j has => reach i j (guarded p i j isEntry has)]
      exact before.tables p isEntry
    · intro i j unreachable outside
      rw [reach i j unreachable]
      exact before.ram i j unreachable outside
    · intro none
      rw [only]
      exact before.devices none
  | @device a v range offset value _ resolves device ran =>
    obtain ⟨physicalAddress,leads,found,_⟩ := resolves.mapped confined translates
    have before := confined.resolved translates resolves
    have frame := callWrite_frame ran
    have map : u.memoryMap = v.memoryMap := by rw [frame.rest]
    refine ⟨map.trans before.map, ?_, ?_, ?_⟩
    · intro p isEntry
      rw [deref_congr frame.ram]
      exact before.tables p isEntry
    · intro i j unreachable outside
      rw [frame.ram]
      exact before.ram i j unreachable outside
    · intro none
      exact absurd ⟨a, physicalAddress, range, leads, found, device⟩ none

theorem KeepsSetting.translates (kept : KeepsSetting t u) (translates : Translates s t) :
    Translates s u := by
  have satp : readCsr u csrSatp = readCsr t csrSatp := kept.csr csrSatp (by decide)
  refine ⟨?_, satp.trans translates.satp⟩
  rw [Walks,kept.privilege,getMemoryMode,satp]
  exact translates.walks

theorem Settles.confined (settles : Settles t u) (confined : Confined s t) : Confined s u := by
  rw [settles]
  exact ⟨confined.map, confined.tables, confined.ram, confined.devices⟩

end Confined

/-- A user program in the Linux machine that stores to its own page. Every entry of the root table
maps the 4 MiB behind the first 4 MiB of RAM. -/
def isolatedMachine : State :=
  { guest privU [] with
    memoryMap := linuxMemoryMap
    ram := fun _ j => byteOf (if j < 0x1000 then 0x2010001f else 0x10502023) (j % 4)
    x := fun r => if r = 5 then 7 else 0 }

theorem isolatedMachine_pteAt (a : Word) :
    pteAt isolatedMachine (Sv32.entryAddress 32 a 1 0x80000) = some 0x2010001f := by
  have index : Sv32.vpn a 1 < 1024 := Nat.mod_lt _ (by decide)
  have place : Sv32.entryAddress 32 a 1 0x80000 = 0x80000000 + 4 * Sv32.vpn a 1 := by
    unfold Sv32.entryAddress
    omega
  have located : wordLocation isolatedMachine.memoryMap
      (BitVec.ofNat 32 (0x80000000 + 4 * Sv32.vpn a 1)) = some ⟨0, 4 * Sv32.vpn a 1⟩ :=
    wordLocation_ram _ (by omega)
  rw [place,pteAt,if_pos (by omega),located,Option.map_some]
  refine congrArg some (deref_bytes _ _ fun k bound => ?_)
  have low : 4 * Sv32.vpn a 1 + k < 0x1000 := by omega
  have byte : (4 * Sv32.vpn a 1 + k) % 4 = k := by omega
  simp only [isolatedMachine,low,byte,if_true]

theorem isolatedMachine_walk (a : Word) :
    busWalk isolatedMachine a = .leaf 1 (Sv32.entryAddress 32 a 1 0x80000) 0x2010001f := by
  change Sv32.walk 32 (pteAt isolatedMachine) a 1 0x80000 = _
  rw [Sv32.walk,Sv32.visit_leaf (isolatedMachine_pteAt a) (by decide)]

theorem isolatedMachine_entry (entry : EntryOf isolatedMachine a p) :
    p.buffer = 0 ∧ p.offset + 4 ≤ 0x1000 := by
  obtain ⟨x,visits,small,located⟩ := entry
  have place : x = Sv32.entryAddress 32 a 1 0x80000 := by
    rcases visits with place | ⟨e,read,pointer,_⟩
    · exact place
    · rw [show rootPpn isolatedMachine = 0x80000 from rfl,isolatedMachine_pteAt] at read
      rw [← Option.some.inj read] at pointer
      exact absurd pointer (by decide)
  have index : Sv32.vpn a 1 < 1024 := Nat.mod_lt _ (by decide)
  have entry : x = 0x80000000 + 4 * Sv32.vpn a 1 := by
    rw [place]
    unfold Sv32.entryAddress
    omega
  rw [entry] at located
  obtain rfl := Option.some.inj ((wordLocation_ram _ (by omega)).symm.trans located)
  refine ⟨rfl, ?_⟩
  dsimp only
  omega

theorem isolatedMachine_leaf (a : Word) :
    (leafPhysical 1 0x2010001f a).toNat = 0x80400000 + a.toNat % 0x400000 := by
  rw [leafPhysical_toNat (by decide) _ _ (by decide) (by decide)]
  have ppn : Sv32.Pte.ppn 0x2010001f = 0x80400 := by decide
  have offset : Sv32.pageOffset a 1 = a.toNat % 0x400000 := rfl
  omega

end Emuriscv
