import Emuriscv.BareMemory
import Emuriscv.LinuxRun
import Emuriscv.Step

/-! What a program sees as its memory. An address space says which flat memory a state shows, where
accesses may go and in which word of RAM an instruction lies; its laws say that the accesses of
the emulator are those of the flat memory. Untranslated RAM is one. -/
namespace Emuriscv

structure AddressSpace where
  shows : State → FlatMemory.Memory → Prop
  inside : Word → Nat → Prop
  holds : Word → WordPtr → Prop

/-- The state that the handler of the instruction at `pc` receives, but for page tables. -/
abbrev pastPc (s : State) : State := { s with pc := s.pc + 4 }

namespace AddressSpace

/-- The part of a state that decides what it shows. -/
structure Alike (s t : State) : Prop where
  ram : t.ram = s.ram
  map : t.memoryMap = s.memoryMap
  privilege : t.privilege = s.privilege
  satp : readCsr t csrSatp = readCsr s csrSatp

/-- Every access keeps to RAM and shows what the flat memory has or gets. -/
structure Lawful [Platform] (space : AddressSpace) : Prop where
  congr : space.shows s m → Alike s t → space.shows t m
  word : space.shows s m → space.holds address p →
    deref s p = BitVec.ofNat 32 (FlatMemory.load m address.toNat 4)
  fetch : space.shows s m → space.inside s.pc 4 → ∃ f p, FetchesWord s f p ∧
    RamOnly (pastPc s) f ∧ space.shows f m ∧ space.holds s.pc p
  read : space.shows s m → sizeLog2 ≤ 2 → space.inside address (2 ^ sizeLog2) →
    ∃ value t, readCommon s address sizeLog2 = .ok (value,t) ∧
      value.toNat = FlatMemory.load m address.toNat (2 ^ sizeLog2) ∧ RamOnly s t ∧ space.shows t m
  write : space.shows s m → sizeLog2 ≤ 2 → space.inside address (2 ^ sizeLog2) →
    ∀ value, ∃ t, writeCommon s address value sizeLog2 = .ok t ∧ RamOnly s t ∧
      space.shows t (FlatMemory.store m address.toNat (2 ^ sizeLog2) value.toNat)
  last : ¬space.inside (-1) 4

/-- The RAM of a memory map, without translation. -/
def bare (map : MemoryMap) : AddressSpace where
  shows s m := s.memoryMap = map ∧ ¬Walks s ∧ Represents s m
  inside := InsideRam map
  holds address p := wordLocation map address = some p

end AddressSpace

/-- The location of a word inside RAM. -/
theorem InsideRam.word {map : MemoryMap} {address : Word} (separate : Separate map)
    (inside : InsideRam map address 4) : ∃ p, wordLocation map address = some p := by
  obtain ⟨range,member,ram,low,high⟩ := inside
  obtain ⟨i,found⟩ := List.mem_iff_getElem?.mp member
  have covers : range.Covers address.toNat := ⟨low, by omega⟩
  have lookup := getPhysMemRange_of_covers separate found covers
  have distance := BitVec.toNat_sub_of_le (show range.address ≤ address from low)
  refine ⟨⟨i, address.toNat - range.address.toNat⟩, ?_⟩
  simp [wordLocation,lookup,distance,ram,
    show address.toNat - range.address.toNat + 3 < range.size.toNat by omega]

/-- A word of RAM is what a flat memory of its buffer holds. -/
theorem deref_flat {s : State} {p : WordPtr} (inside : p.offset + 4 ≤ s.bufferSize p.buffer) :
    deref s p = BitVec.ofNat 32 (FlatMemory.load (s.ram p.buffer) p.offset 4) := by
  obtain ⟨value,read,number⟩ := readCommonRam_flat s p.buffer p.offset (show 2 ≤ 2 by decide) inside
  have same := (readCommonRam_word s p inside).symm.trans read
  rw [Except.ok.inj same]
  apply BitVec.eq_of_toNat_eq
  rw [number,BitVec.toNat_ofNat]
  exact (Nat.mod_eq_of_lt (FlatMemory.load_lt (s.ram p.buffer) p.offset 4)).symm

theorem Represents.deref {s : State} {address : Word} (represents : Represents s m)
    (located : wordLocation s.memoryMap address = some p) :
    deref s p = BitVec.ofNat 32 (FlatMemory.load m address.toNat 4) := by
  have inside := wordLocation_inside located
  obtain ⟨range,found,ram,rfl,fits⟩ := wordLocation_some located
  obtain ⟨entry,low,_⟩ := getPhysMemRange_spec found
  dsimp only at inside fits
  have distance := BitVec.toNat_sub_of_le low
  have base : range.entry.address.toNat ≤ address.toNat := low
  have whole := deref_flat (p := ⟨range.index,(address - range.entry.address).toNat⟩) inside
  dsimp only at whole
  rw [whole]
  congr 1
  apply FlatMemory.load_congr
  intro k below
  rw [represents range.index range.entry _ entry ram (by omega)]
  congr 1
  omega

theorem Represents.congr {s t : State} (represents : Represents s m) (ram : t.ram = s.ram)
    (map : t.memoryMap = s.memoryMap) : Represents t m := by
  intro i range offset
  rw [ram,map]
  exact represents i range offset

theorem AddressSpace.Alike.walks {s t : State} (alike : Alike s t) : Walks t ↔ Walks s := by
  rw [Walks,Walks,alike.privilege,getMemoryMode,getMemoryMode,alike.satp]

theorem AddressSpace.bare_lawful [Platform] (separate : Separate map) : (bare map).Lawful where
  congr := by
    rintro s m t ⟨rfl,direct,represents⟩ alike
    exact ⟨alike.map, mt alike.walks.mp direct, represents.congr alike.ram alike.map⟩
  word := by
    rintro s m address p ⟨rfl,_,represents⟩ located
    exact represents.deref located
  fetch := by
    rintro s m ⟨rfl,direct,represents⟩ inside
    obtain ⟨p,located⟩ := InsideRam.word separate inside
    exact ⟨_, p, looked_direct direct located, .refl _, ⟨rfl,direct,represents⟩, located⟩
  read := by
    rintro s m sizeLog2 address ⟨rfl,direct,represents⟩ size inside
    obtain ⟨value,read,number⟩ := readCommon_flat direct separate represents size inside
    exact ⟨value, s, read, number, .refl s, rfl, direct, represents⟩
  write := by
    rintro s m sizeLog2 address ⟨rfl,direct,represents⟩ size inside value
    obtain ⟨t,written,only,after⟩ := writeCommon_flat direct separate represents size inside value
    have map : t.memoryMap = s.memoryMap := by rw [only]
    exact ⟨t, written, only, map, mt only.walks.mp direct, after⟩
  last := by
    rintro ⟨range,member,_,_,high⟩
    have below := separate.below range member
    have last : (-1 : Word).toNat = 2 ^ 32 - 1 := by decide
    omega

theorem linuxMemoryMap_separate : Separate linuxMemoryMap := by
  have apart : linuxMemoryMap.Pairwise fun range other =>
      range.address.toNat + range.size.toNat ≤ other.address.toNat ∨
        other.address.toNat + other.size.toNat ≤ range.address.toNat := by decide
  refine ⟨by decide, apart.imp ?_⟩
  rintro range other apart address ⟨low,high⟩ ⟨low',high'⟩
  omega

end Emuriscv
