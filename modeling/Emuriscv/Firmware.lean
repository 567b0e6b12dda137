import Emuriscv.RunLinux
import Emuriscv.Terminal

/-! The emulator with a firmware, from the start of the process on. What the boot loader image does
on the hart of the architecture, it does here. -/
namespace Emuriscv

open DeviceTree LabelledRun Segment

/-- The hart that firmware starts on: `a0` is its number, `a1` leads to the device tree, and the
images are in memory, the kernel where the tree says. -/
structure Firmware (boot kernel : List Byte) (h : Rv32ima.Hart) : Prop where
  pc : h.pc = ramBaseAddr
  x : h.x = bootRegisters
  bootImage : FlatMemory.bytesAt h.memory ramBaseAddr.toNat boot.length = boot
  kernelImage : FlatMemory.bytesAt h.memory (ramBaseAddr.toNat + nextKernelBase boot.length) kernel.length =
    kernel
  tree : ∃ blob, FlatMemory.bytesAt h.memory (h.x 11).toNat blob.length = blob ∧ parse blob =
    some (machineTree (BitVec.ofNat 64 (ramBaseAddr.toNat + nextKernelBase boot.length))
      (BitVec.ofNat 64 kernel.length))

theorem Represents.bytesAt {s : State} {range : MemoryRange} (represents : Represents s m)
    (entry : s.memoryMap[i]? = some range) (ram : range.isRam = true)
    (holds : Holds (s.ram i) start data) (inside : start + data.length ≤ range.size.toNat) :
    FlatMemory.bytesAt m (range.address.toNat + start) data.length = data := by
  apply List.ext_getElem?
  intro k
  rw [FlatMemory.bytesAt_getElem?]
  by_cases below : k < data.length
  · rw [if_pos below,holds k below,represents i range (start + k) entry ram (by omega),Nat.add_assoc]
  · rw [if_neg below]
    exact (List.getElem?_eq_none_iff.mpr (by omega)).symm

section Start

variable {boot kernel : List Byte} {s t : State}

/-- The hart at the end of the boot words. -/
def firmwareHart (t : State) : Rv32ima.Hart := ⟨ramBaseAddr, bootRegisters, flatMemory t, some 0⟩

theorem Loaded.map (loaded : Loaded boot kernel s) : s.memoryMap = linuxMemoryMap := by
  obtain ⟨_,initial⟩ := loaded.atBoot
  rw [initial]
  rfl

theorem Loaded.firmware (loaded : Loaded boot kernel s)
    (done : Iterates s t bootRegisters ramBaseAddr) : Firmware boot kernel (firmwareHart t) := by
  have mapped := loaded.map
  obtain ⟨_,_,images,blob,holds,short,parsed⟩ := loaded
  have memory : t.ram = s.ram := by rw [done.rest]
  have map : t.memoryMap = linuxMemoryMap := by rw [done.rest,mapped]
  have represents := flatMemory_represents (s := t) (map ▸ linuxMemoryMap_separate)
  have ram : t.memoryMap[0]? = some ⟨ramBaseAddr,vmMemorySize,true,none,none⟩ := by rw [map]; rfl
  have low : t.memoryMap[1]? = some ⟨0,lowRamSize,true,none,none⟩ := by rw [map]; rfl
  have room : lowRamSize.toNat = 0x10000 := rfl
  refine ⟨rfl, rfl, ?_, ?_, blob, ?_, parsed⟩
  · have held := images.bootHeld
    rw [← memory] at held
    exact represents.bytesAt ram rfl held (by rw [Nat.zero_add]; exact images.bootInside)
  · by_cases empty : kernel = []
    · rw [empty]
      rfl
    obtain ⟨base,least,held,inside⟩ := images.kernelHeld empty
    rw [← memory,least.unique (nextKernelBase_isLeast _)] at held
    rw [least.unique (nextKernelBase_isLeast _)] at inside
    exact represents.bytesAt ram rfl held inside
  · rw [← memory] at holds
    have bytes := represents.bytesAt low rfl holds (by dsimp only; omega)
    rwa [show (0 : Word).toNat + 0x1040 = 0x1040 from rfl] at bytes

theorem Loaded.refines (loaded : Loaded boot kernel s)
    (done : Iterates s t bootRegisters ramBaseAddr) :
    Refines (.bare linuxMemoryMap) (firmwareHart t) t ∧ Speaks ⟨0,0,[]⟩ t ∧ Quiet t := by
  have mapped := loaded.map
  obtain ⟨⟨_,initial⟩,_⟩ := loaded
  have map : t.memoryMap = linuxMemoryMap := by rw [done.rest,mapped]
  have privilege : t.privilege = privM := by
    rw [done.rest,initial]
    rfl
  have represents := flatMemory_represents (s := t) (map ▸ linuxMemoryMap_separate)
  have aligned : 4 ∣ ramBaseAddr.toNat := by decide
  refine ⟨⟨done.pc, done.registers, ⟨map, fun walks => walks.1 privilege, represents⟩, ?_, aligned⟩,
    ?_, ?_⟩
  · change t.loadReservation = 0
    rw [done.rest,initial]
    rfl
  · rw [done.rest,initial]
    exact ⟨rfl,rfl,rfl⟩
  · rw [done.rest,initial]
    exact ⟨rfl,rfl,rfl⟩

end Start

/-- `lui x6, 0x40008`, `addi x7, x0, 0x41`, `lui x8, 0x1010`, `sw x7, 0(x6)` and `sw x8, 4(x6)`. -/
def letterBoot : List Byte :=
  [0x40008337,0x04100393,0x01010437,0x00732023,0x00832223].flatMap Codec.little

theorem Firmware.letter (firmware : Firmware letterBoot kernel h) :
    h.wordAt 0x80000000 = 0x40008337 ∧ h.wordAt 0x80000004 = 0x04100393 ∧
    h.wordAt 0x80000008 = 0x01010437 ∧ h.wordAt 0x8000000c = 0x00732023 ∧
    h.wordAt 0x80000010 = 0x00832223 := by
  have image := firmware.bootImage
  simp [letterBoot,Codec.little,FlatMemory.bytesAt,ramBaseAddr] at image
  simp [Rv32ima.Hart.wordAt,FlatMemory.load,image]

end Emuriscv
