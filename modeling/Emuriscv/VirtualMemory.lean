import Emuriscv.HartRefinement
import Emuriscv.PageIsolation
import Emuriscv.Straddle

/-! Programs under page tables. Pages that no two addresses share, and that hold none of the
entries on the way to them, are a flat memory of virtual addresses: the flags that each access
leaves in the entries do not show. -/
namespace Emuriscv

open LabelledRun

/-- The tables of the state lead from the address to a byte of RAM. -/
def Maps (s : State) (a : Word) (buffer offset : Nat) : Prop :=
  ∃ level x entry, busWalk s a = .leaf level x entry ∧
    ByteAt s.memoryMap (leafPhysical level entry a) buffer offset

/-- The addresses that a program uses: no two are mapped to the same byte, and none is mapped to
an entry of their tables. -/
structure OwnPages (s : State) (used : Word → Prop) : Prop where
  separate : Separate s.memoryMap
  paged : Paged s
  apart : ∀ a b i j, used a → used b → Maps s a i j → Maps s b i j → a = b
  guarded : ∀ a b p i j, used a → used b → EntryOf s a p → p.Has i j → ¬Maps s b i j

/-- An access of the program, which the emulator does not split at the end of a page. -/
structure WithinPage (s : State) (used : Word → Prop) (a : Word) (width : Nat) : Prop where
  page : a.toNat % 2 ^ 12 + width ≤ 2 ^ 12
  mapped : ∃ buffer offset, Maps s a buffer offset ∧ offset + width ≤ s.bufferSize buffer
  used : ∀ k < width, used (a + BitVec.ofNat 32 k)

/-- The pages in use hold the flat memory; other RAM, but for flags, is as in the first state. -/
structure ShowsPages (s : State) (used : Word → Prop) (t : State) (m : FlatMemory.Memory) : Prop where
  map : t.memoryMap = s.memoryMap
  paged : Paged t
  satp : readCsr t csrSatp = readCsr s csrSatp
  tables : ∀ a p, used a → EntryOf s a p →
    Sv32.Pte.mark (deref t p) .write = Sv32.Pte.mark (deref s p) .write
  bytes : ∀ a i j, used a → Maps s a i j → t.ram i j = m a.toNat
  rest : ∀ i j, (∀ a, used a → ¬Maps s a i j) → (∀ a p, used a → EntryOf s a p → ¬p.Has i j) →
    t.ram i j = s.ram i j

/-- The address space of a program in its own pages. -/
def AddressSpace.paged (s : State) (used : Word → Prop) : AddressSpace where
  shows := ShowsPages s used
  inside := WithinPage s used
  holds a p := WithinPage s used a 4 ∧ Maps s a p.buffer p.offset

section Pages

variable {s t u : State} {used : Word → Prop} {a : Word}

theorem Maps.lands (maps : Maps s a buffer offset) (paged : Paged s) :
    ∃ u, Lands s a .load u buffer offset := by
  obtain ⟨level,x,entry,leaf,byte⟩ := maps
  exact ⟨_, (lands_iff paged).mpr ⟨level, x, entry, leaf, rfl, byte⟩⟩

theorem Maps.unique (maps : Maps s a i j) (maps' : Maps s a i' j') : i' = i ∧ j' = j := by
  obtain ⟨level,x,entry,leaf,range,found,_,rfl,rfl⟩ := maps
  obtain ⟨level',x',entry',leaf',range',found',_,rfl,rfl⟩ := maps'
  rw [leaf] at leaf'
  obtain ⟨rfl,rfl,rfl⟩ := Sv32.Outcome.leaf.inj leaf'
  rw [found] at found'
  obtain rfl := Option.some.inj found'
  exact ⟨rfl,rfl⟩

theorem WithinPage.sum (within : WithinPage s used a width) (bound : k < width) :
    (a + BitVec.ofNat 32 k).toNat = a.toNat + k := by
  have page := within.page
  have whole := a.isLt
  rw [BitVec.toNat_add,BitVec.toNat_ofNat]
  omega

/-- The bytes of an access follow one another in one buffer. -/
theorem WithinPage.block (within : WithinPage s used a width) (own : OwnPages s used) :
    ∃ buffer offset, Maps s a buffer offset ∧ offset + width ≤ s.bufferSize buffer ∧
      ∀ k < width, Maps s (a + BitVec.ofNat 32 k) buffer (offset + k) := by
  obtain ⟨buffer,offset,maps,fits⟩ := within.mapped
  obtain ⟨u,lands⟩ := maps.lands own.paged
  have adjoining := adjoining_of_page own.paged own.separate lands within.page fits
  refine ⟨buffer, offset, maps, fits, fun k bound => ?_⟩
  obtain ⟨_,landsNext⟩ := adjoining.lands k bound
  obtain ⟨level,x,entry,leaf,_,byte⟩ := (lands_iff own.paged).mp landsNext
  exact ⟨level, x, entry, leaf, byte⟩

theorem ShowsPages.congr (shown : ShowsPages s used t m) (alike : AddressSpace.Alike t u) :
    ShowsPages s used u m where
  map := alike.map.trans shown.map
  paged := ⟨alike.privilege ▸ shown.paged.privilege, alike.satp ▸ shown.paged.mode⟩
  satp := alike.satp.trans shown.satp
  tables := by
    intro a p uses entry
    rw [deref_congr alike.ram]
    exact shown.tables a p uses entry
  bytes := by
    rw [alike.ram]
    exact shown.bytes
  rest := by
    rw [alike.ram]
    exact shown.rest

/-- The walk to an address in use ends where it ended. -/
theorem ShowsPages.maps (shown : ShowsPages s used t m) (uses : used a) (maps : Maps s a i j) :
    ∃ level x entry p, busWalk t a = .leaf level x entry ∧ EntryOf s a p ∧ deref t p = entry ∧
      wordLocation t.memoryMap (BitVec.ofNat 32 x) = some p ∧
      ByteAt t.memoryMap (leafPhysical level entry a) i j := by
  obtain ⟨level,x,entry,leaf,byte⟩ := maps
  have walks := busWalk_marked shown.map shown.satp (fun p => shown.tables a p uses)
  obtain ⟨entry',leaf',same⟩ := leaf_marked walks.symm leaf
  obtain ⟨_,_,p,located,held⟩ := busWalk_leaf_located leaf'
  refine ⟨level, x, entry', p, leaf', .of_leaf leaf (shown.map ▸ located), held, located, ?_⟩
  rw [same,shown.map]
  exact byte

/-- A translation sets flags, and these do not show. -/
theorem ShowsPages.marked {p : WordPtr} (shown : ShowsPages s used t m) (own : OwnPages s used)
    (uses : used a) (entry : EntryOf s a p) (access : Sv32.Access) :
    ShowsPages s used (putWord t p (Sv32.Pte.mark (deref t p) access)) m := by
  have ram (i j : Nat) (outside : ¬p.Has i j) :
      (putWord t p (Sv32.Pte.mark (deref t p) access)).ram i j = t.ram i j :=
    (putWord_ram ..).trans (if_neg outside)
  refine ⟨(putWord_memoryMap ..).trans shown.map, ?_, ?_, ?_, ?_, ?_⟩
  · rw [putWord_eq]
    exact ⟨shown.paged.privilege, shown.paged.mode⟩
  · rw [putWord_eq]
    exact shown.satp
  · intro b q uses' other
    rcases entry.apart other with rfl | apart
    · rw [deref_putWord,Sv32.mark_mark_write]
      exact shown.tables b q uses' other
    · rw [deref_of_bytes fun i j has => ram i j fun inside => apart i j inside has]
      exact shown.tables b q uses' other
  · intro b i j uses' maps
    rw [ram i j fun inside => own.guarded a b p i j uses uses' entry inside maps]
    exact shown.bytes b i j uses' maps
  · intro i j unmapped outside
    rw [ram i j (outside a p uses entry)]
    exact shown.rest i j unmapped outside

/-- An access lands where the tables of the first state lead, and shows what was shown. -/
theorem ShowsPages.lands (shown : ShowsPages s used t m) (own : OwnPages s used) (uses : used a)
    (maps : Maps s a i j) (accessType : AccessType) :
    ∃ u, Lands t a accessType u i j ∧ ShowsPages s used u m := by
  obtain ⟨level,x,entry,p,leaf,entryOf,held,located,byte⟩ := shown.maps uses maps
  refine ⟨_, (lands_iff shown.paged).mpr ⟨level, x, entry, leaf, rfl, byte⟩, ?_⟩
  rw [markEntry_located located,← held]
  exact shown.marked own uses entryOf accessType.toSv32

theorem ShowsPages.bufferSize (shown : ShowsPages s used t m) (i : Nat) :
    t.bufferSize i = s.bufferSize i := by
  rw [State.bufferSize,State.bufferSize,shown.map]

theorem ShowsPages.load (shown : ShowsPages s used t m) (within : WithinPage s used a width)
    (maps : ∀ k < width, Maps s (a + BitVec.ofNat 32 k) i (j + k)) :
    FlatMemory.load (t.ram i) j width = FlatMemory.load m a.toNat width := by
  apply FlatMemory.load_congr
  intro k below
  rw [shown.bytes _ _ _ (within.used k below) (maps k below),within.sum below]

theorem ShowsPages.store (shown : ShowsPages s used t m) (own : OwnPages s used)
    (within : WithinPage s used a width)
    (maps : ∀ k < width, Maps s (a + BitVec.ofNat 32 k) i (j + k)) (value : Nat) :
    ShowsPages s used (withBuffer t i (FlatMemory.store (t.ram i) j width value))
      (FlatMemory.store m a.toNat width value) := by
  -- a byte that is stored to is the byte of an address of the access
  have hit (i' j' : Nat) (here : i' = i ∧ j ≤ j' ∧ j' < j + width) :
      used (a + BitVec.ofNat 32 (j' - j)) ∧ Maps s (a + BitVec.ofNat 32 (j' - j)) i' j' := by
    obtain ⟨rfl,low,high⟩ := here
    have next := maps (j' - j) (by omega)
    rw [Nat.add_sub_cancel' low] at next
    exact ⟨within.used _ (by omega), next⟩
  have other (i' j' : Nat) (outside : ¬(i' = i ∧ j ≤ j' ∧ j' < j + width)) :
      (withBuffer t i (FlatMemory.store (t.ram i) j width value)).ram i' j' = t.ram i' j' := by
    change Function.update t.ram i _ i' j' = _
    by_cases here : i' = i
    · subst here
      rw [Function.update_self]
      exact FlatMemory.store_outside value fun inside => outside ⟨rfl,inside⟩
    · rw [Function.update_of_ne here]
  refine ⟨shown.map, ⟨shown.paged.privilege, shown.paged.mode⟩, shown.satp, ?_, ?_, ?_⟩
  · intro b p uses entry
    rw [deref_of_bytes fun i' j' has => other i' j' fun here => ?_]
    · exact shown.tables b p uses entry
    · obtain ⟨uses',next⟩ := hit i' j' here
      exact own.guarded b _ p i' j' uses uses' entry has next
  · intro b i' j' uses maps'
    have before := shown.bytes b i' j' uses maps'
    by_cases here : i' = i ∧ j ≤ j' ∧ j' < j + width
    · obtain ⟨uses',next⟩ := hit i' j' here
      obtain ⟨rfl,low,high⟩ := here
      have place : b.toNat = a.toNat + (j' - j) := by
        rw [own.apart b _ i' j' uses uses' maps' next]
        exact within.sum (by omega)
      change Function.update t.ram i' _ i' j' = _
      rw [Function.update_self]
      exact FlatMemory.store_congr value (by omega) before
    · rw [other i' j' here,before,FlatMemory.store_outside]
      rintro ⟨low,high⟩
      have same : b = a + BitVec.ofNat 32 (b.toNat - a.toNat) := by
        apply BitVec.eq_of_toNat_eq
        rw [within.sum (by omega)]
        omega
      have next := maps (b.toNat - a.toNat) (by omega)
      rw [← same] at next
      obtain ⟨rfl,rfl⟩ := maps'.unique next
      exact here ⟨rfl, by omega, by omega⟩
  · intro i' j' unmapped outside
    rw [other i' j' fun here => ?_]
    · exact shown.rest i' j' unmapped outside
    · obtain ⟨uses',next⟩ := hit i' j' here
      exact unmapped _ uses' next

theorem WithinPage.first (within : WithinPage s used a width) (positive : 0 < width) : used a := by
  have first := within.used 0 positive
  rwa [show a + BitVec.ofNat 32 0 = a from BitVec.add_zero a] at first

theorem AddressSpace.paged_lawful [Platform] (own : OwnPages s used) : (paged s used).Lawful where
  congr := .congr
  word := by
    rintro t m a p shown ⟨within,maps⟩
    obtain ⟨buffer,offset,maps',fits,block⟩ := within.block own
    obtain ⟨rfl,rfl⟩ := maps.unique maps'
    rw [← shown.bufferSize] at fits
    rw [deref_flat fits,shown.load within block]
  fetch := by
    intro t m shown within
    obtain ⟨buffer,offset,maps,fits,_⟩ := within.block own
    obtain ⟨u,lands,shown'⟩ := shown.lands own (within.first (by decide)) maps .fetch
    have pc : u.pc = t.pc := by rw [lands.ramOnly]
    refine ⟨{ u with pc := u.pc + 4 }, ⟨buffer,offset⟩, ?_, ?_, shown'.congr ⟨rfl,rfl,rfl,rfl⟩,
      within, maps⟩
    · obtain ⟨range,_,looked⟩ := lands.looked
      refine ⟨_, looked, rfl, rfl, ?_⟩
      rw [← shown'.bufferSize] at fits
      exact if_pos fits
    · have only := lands.ramOnly
      rw [RamOnly] at only
      rw [RamOnly,pc]
      exact congrArg (fun v : State => { v with pc := t.pc + 4 }) only
  read := by
    intro t m sizeLog2 a shown size within
    obtain ⟨buffer,offset,maps,fits,block⟩ := within.block own
    have uses := within.first (Nat.two_pow_pos sizeLog2)
    obtain ⟨u,lands,shown'⟩ := shown.lands own uses maps .load
    rw [← shown'.bufferSize] at fits
    obtain ⟨value,read,number⟩ := readCommonRam_flat u buffer offset size fits
    refine ⟨value, u, ?_, number.trans (shown'.load within block), lands.ramOnly, shown'⟩
    rw [lands.readCommon,read]
    rfl
  write := by
    intro t m sizeLog2 a shown size within value
    obtain ⟨buffer,offset,maps,fits,block⟩ := within.block own
    have uses := within.first (Nat.two_pow_pos sizeLog2)
    obtain ⟨u,lands,shown'⟩ := shown.lands own uses maps .store
    rw [← shown'.bufferSize] at fits
    refine ⟨_, (lands.writeCommon value sizeLog2).trans (writeCommonRam_flat u buffer offset value size fits),
      lands.ramOnly.trans rfl, shown'.store own within block value.toNat⟩
  last := by
    intro within
    exact absurd within.page (by decide)

/-- A program under page tables runs on the memory of its virtual addresses. -/
theorem pagedRun_refines [Platform] {h : Rv32ima.Hart} (own : OwnPages s used)
    (refines : Refines (.paged s used) h t) (quiet : Quiet t)
    (program : Path (Rv32ima.Step Encoded (WithinPage s used)) h steps)
    (conforms : Every (fun h executed _ => Conforms h executed.1 executed.2) h steps) :
    ∃ steps', MachineRun t steps' ∧ List.Forall₂
      (fun h u => Refines (.paged s used) h u ∧ Programmed t u) (states h steps) (states t steps') :=
  (AddressSpace.paged_lawful own).run refines quiet program conforms

end Pages

/-- The first 4 MiB of virtual addresses, which lie behind the first 4 MiB of RAM. -/
def lowAddress (a : Word) : Prop := a.toNat < 0x400000

theorem isolatedMachine_maps (low : lowAddress a) :
    Maps isolatedMachine a i j ↔ i = 0 ∧ j = 0x400000 + a.toNat := by
  have physical := isolatedMachine_leaf a
  rw [Nat.mod_eq_of_lt low] at physical
  have base : ramBaseAddr.toNat = 0x80000000 := rfl
  have size : vmMemorySize.toNat = 0x6000000 := rfl
  have bound : a.toNat < 0x400000 := low
  have found : getPhysMemRange linuxMemoryMap (leafPhysical 1 0x2010001f a) =
      some ⟨0,⟨ramBaseAddr,vmMemorySize,true,none,none⟩⟩ := by
    refine getPhysMemRange_of_covers linuxMemoryMap_separate rfl ⟨?_, ?_⟩ <;> dsimp only <;> omega
  have distance : (leafPhysical 1 0x2010001f a - ramBaseAddr).toNat = 0x400000 + a.toNat := by
    rw [BitVec.toNat_sub_of_le (by rw [BitVec.le_def]; omega)]
    omega
  constructor
  · rintro ⟨level,x,entry,leaf,range,found',_,rfl,rfl⟩
    rw [isolatedMachine_walk] at leaf
    obtain ⟨rfl,_,rfl⟩ := Sv32.Outcome.leaf.inj leaf
    obtain rfl := Option.some.inj (found.symm.trans found')
    exact ⟨rfl,distance⟩
  · rintro ⟨rfl,rfl⟩
    exact ⟨1, _, _, isolatedMachine_walk a, _, found, rfl, rfl, distance⟩

theorem isolatedMachine_own : OwnPages isolatedMachine lowAddress where
  separate := linuxMemoryMap_separate
  paged := ⟨Or.inr rfl, by decide⟩
  apart := by
    intro a b i j low low' maps maps'
    obtain ⟨_,place⟩ := (isolatedMachine_maps low).mp maps
    obtain ⟨_,place'⟩ := (isolatedMachine_maps low').mp maps'
    apply BitVec.eq_of_toNat_eq
    omega
  guarded := by
    rintro a b p i j _ low entry ⟨_,_,high⟩ maps
    obtain ⟨_,inside⟩ := isolatedMachine_entry entry
    obtain ⟨_,place⟩ := (isolatedMachine_maps low).mp maps
    omega

/-- What the program of the isolated machine sees. -/
def isolatedHart : Rv32ima.Hart :=
  ⟨0, isolatedMachine.x, fun a => byteOf 0x10502023 (a % 4), some 0⟩

theorem isolatedMachine_refines : Refines (.paged isolatedMachine lowAddress) isolatedHart isolatedMachine := by
  refine ⟨rfl, rfl, ⟨rfl, isolatedMachine_own.paged, rfl, fun _ _ _ _ => rfl, ?_, fun _ _ _ _ => rfl⟩,
    rfl, by decide⟩
  intro a i j low maps
  obtain ⟨rfl,rfl⟩ := (isolatedMachine_maps low).mp maps
  have high : ¬0x400000 + a.toNat < 0x1000 := by omega
  have place : (0x400000 + a.toNat) % 4 = a.toNat % 4 := by omega
  simp only [isolatedMachine,isolatedHart,high,place,if_false]

theorem isolatedMachine_within {a : Word} (page : a.toNat % 2 ^ 12 + 4 ≤ 2 ^ 12)
    (low : a.toNat + 4 ≤ 0x400000) : WithinPage isolatedMachine lowAddress a 4 := by
  have size : isolatedMachine.bufferSize 0 = 0x6000000 := rfl
  refine ⟨page, ⟨0, 0x400000 + a.toNat, (isolatedMachine_maps ?_).mpr ⟨rfl,rfl⟩, by omega⟩, ?_⟩
  · change a.toNat < 0x400000
    omega
  · intro k bound
    change (a + BitVec.ofNat 32 k).toNat < 0x400000
    rw [BitVec.toNat_add,BitVec.toNat_ofNat]
    omega

/-- `sw x5, 0x100(x0)`, twice. -/
theorem pagedRun_refines_isolated :
    ∃ steps', @MachineRun clearingPlatform isolatedMachine steps' ∧
      List.Forall₂ (fun h t => Refines (.paged isolatedMachine lowAddress) h t ∧
          Programmed isolatedMachine t)
        (states isolatedHart (followHart isolatedHart [.store .word,.store .word]))
        (states isolatedMachine steps') := by
  let _ : Platform := clearingPlatform
  refine pagedRun_refines isolatedMachine_own isolatedMachine_refines ⟨rfl,rfl,rfl⟩ ?_
    ⟨trivial,trivial,trivial⟩
  have fetch {a : Word} := @isolatedMachine_within a
  refine .cons ⟨fetch (by decide) (by decide), rfl, .of_means .sw (.store rfl) (by decide), ⟨?_,?_,by decide⟩, rfl⟩
    (.cons ⟨fetch (by decide) (by decide), rfl, .of_means .sw (.store rfl) (by decide), ⟨?_,?_,by decide⟩, rfl⟩
    .nil)
  all_goals intro address width accessed
  · obtain ⟨rfl,rfl⟩ := Prod.mk.inj (Option.some.inj accessed)
    exact isolatedMachine_within (by decide) (by decide)
  · intro atomic
    contradiction
  · obtain ⟨rfl,rfl⟩ := Prod.mk.inj (Option.some.inj accessed)
    exact isolatedMachine_within (by decide) (by decide)
  · intro atomic
    contradiction

end Emuriscv
