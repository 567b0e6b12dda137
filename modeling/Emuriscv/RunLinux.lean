import Emuriscv.ImagePlacement
import Emuriscv.MachineTree
import Emuriscv.Registration

/-! `run_linux` from the start of the process to the firmware: the machine is initialized, the
images, the device tree and the boot words are put into memory, and the loop runs through the
boot words. -/
namespace Emuriscv

open Codec DeviceTree LabelledRun Segment

/-- `run_linux` up to its loop. -/
def startLinux (ramAllocated lowRamAllocated fileOpens : Bool) (bootloader linux : Option (List Byte))
    (tab stringTable : Nat → Byte) : Except Stop State := do
  let map ← registerAll physMemMapInit (initializeCalls ramAllocated lowRamAllocated)
  let state := initializeStateLinux map.entries (fun _ _ => 0) ⟨0,0,0,0⟩ ⟨fun _ => 0, 0, []⟩
  let state ← loadBiosAndKernel fileOpens state bootloader linux tab stringTable
  pure { state with pc := bootloaderAddress }

/-- What the firmware finds when it starts: in `a0` the hart, in `a1` the device tree of this
machine, and the images in RAM, the kernel where the tree says. -/
structure HandedOver (boot kernel : List Byte) (t : State) : Prop where
  pc : t.pc = ramBaseAddr
  machine : t.privilege = privM
  hart : t.x 10 = 0
  others : ∀ r, r ≠ 5 → r ≠ 10 → r ≠ 11 → t.x r = 0
  images : Placed boot kernel t
  tree : ∃ blob tree, Holds (t.ram 1) (t.x 11).toNat blob ∧ parse blob = some tree ∧
    tree = machineTree (BitVec.ofNat 64 (ramBaseAddr.toNat + nextKernelBase boot.length))
      (BitVec.ofNat 64 kernel.length) ∧ Describes t.memoryMap tree
  silent : t.console = [] ∧ t.uart.sent = [] ∧ t.traps = []

section Memory

variable {s t : State}

theorem memcpy_ramOnly (ran : memcpy s dst bytes = .ok t) : RamOnly s t := by
  unfold memcpy at ran
  split at ran
  · split at ran
    · exact Except.ok.inj ran ▸ .refl s
    · contradiction
  · split at ran
    · exact Except.ok.inj ran ▸ rfl
    · contradiction

theorem storeWord_ramOnly {q : HostPtr} (ran : storeWord s q i value = .ok t) : RamOnly s t := by
  obtain ⟨s1,ran1,ran⟩ := bind_eq_ok.mp ran
  obtain ⟨s2,ran2,ran⟩ := bind_eq_ok.mp ran
  obtain ⟨s3,ran3,ran4⟩ := bind_eq_ok.mp ran
  exact (((store_ramOnly ran1).trans (store_ramOnly ran2)).trans (store_ramOnly ran3)).trans
    (store_ramOnly ran4)

theorem writeBootloader_ramOnly {ramPtr : HostPtr} (ran : writeBootloader s ramPtr fdtAddr = .ok t) :
    RamOnly s t := by
  obtain ⟨s1,ran1,ran⟩ := bind_eq_ok.mp ran
  obtain ⟨s2,ran2,ran⟩ := bind_eq_ok.mp ran
  obtain ⟨s3,ran3,ran⟩ := bind_eq_ok.mp ran
  obtain ⟨s4,ran4,ran5⟩ := bind_eq_ok.mp ran
  exact ((((storeWord_ramOnly ran1).trans (storeWord_ramOnly ran2)).trans
    (storeWord_ramOnly ran3)).trans (storeWord_ramOnly ran4)).trans (storeWord_ramOnly ran5)

theorem riscvBuildFdt_ramOnly {size : Int} {dst : HostPtr} (ran : riscvBuildFdt fileOpens s ramSize dst
    kernelStart kernelSize cmdLine tab stringTable = .ok (size,t)) : RamOnly s t := by
  replace ran := bind_eq_ok.mp ran
  obtain ⟨fdt,_,ran⟩ := ran
  obtain ⟨_ | buffer,offset⟩ := dst
  · cases ran
  · replace ran := bind_eq_ok.mp ran
    obtain ⟨⟨written,out⟩,_,ran⟩ := ran
    dsimp only at ran
    by_cases inside : offset + written ≤ s.bufferSize buffer
    · rw [if_pos inside] at ran
      by_cases opens : fileOpens = true
      · rw [if_pos opens] at ran
        obtain ⟨_,rfl⟩ := Prod.mk.inj (Except.ok.inj ran)
        rfl
      · rw [if_neg opens] at ran
        cases ran
    · rw [if_neg inside] at ran
      cases ran

theorem loadImages_ramOnly (ran : loadImages s bootloader linux = .ok (t,kernelBase,kernelBufLen)) :
    RamOnly s t := by
  unfold loadImages at ran
  obtain ⟨⟨buf,bufLen⟩,_,ran⟩ := bind_eq_ok.mp ran
  dsimp only at ran
  by_cases big : BitVec.ofInt 32 bufLen > vmMemorySize
  · rw [if_pos big] at ran
    contradiction
  · rw [if_neg big] at ran
    obtain ⟨u,first,ran⟩ := bind_eq_ok.mp ran
    obtain ⟨⟨kernelBuf,_⟩,_,ran⟩ := bind_eq_ok.mp ran
    dsimp only at ran
    split at ran
    · obtain ⟨v,second,ran⟩ := bind_eq_ok.mp ran
      obtain ⟨rfl,_⟩ := Prod.mk.inj (Except.ok.inj ran)
      exact (memcpy_ramOnly first).trans (memcpy_ramOnly second)
    · obtain ⟨rfl,_⟩ := Prod.mk.inj (Except.ok.inj ran)
      exact memcpy_ramOnly first

theorem loadBiosAndKernel_ramOnly
    (ran : loadBiosAndKernel fileOpens s bootloader linux tab stringTable = .ok t) : RamOnly s t := by
  obtain ⟨⟨u,_,_⟩,images,ran⟩ := bind_eq_ok.mp ran
  obtain ⟨⟨_,v⟩,tree,words⟩ := bind_eq_ok.mp ran
  exact ((loadImages_ramOnly images).trans (riscvBuildFdt_ramOnly tree)).trans
    (writeBootloader_ramOnly words)

theorem storeWord_outside {buffer offset i j : Nat} {value : Word}
    (inside : offset + 4 * i + 3 < s.bufferSize buffer)
    (ran : storeWord s ⟨some buffer,offset⟩ i value = .ok t)
    (outside : j < offset + 4 * i ∨ offset + 4 * i + 4 ≤ j) :
    t.ram buffer j = s.ram buffer j ∧ t.memoryMap = s.memoryMap := by
  rw [storeWord_eq i value inside] at ran
  rw [← Except.ok.inj ran,putWord_ram,if_neg (by simp only; omega)]
  exact ⟨rfl, putWord_memoryMap ..⟩

/-- The boot words leave what is in front of them and behind them. -/
theorem writeBootloader_outside (map : s.memoryMap = linuxMemoryMap) (fdtAddr : Word)
    (ran : writeBootloader s ⟨some 1,0⟩ fdtAddr = .ok t) {j : Nat}
    (outside : j < 0x1000 ∨ 0x1014 ≤ j) : t.ram 1 j = s.ram 1 j := by
  have stored {u v : State} {i : Nat} {value : Word} (low : i < 5)
      (same : u.memoryMap = linuxMemoryMap)
      (ran : storeWord u ⟨some 1, 0 + bootloaderAddress.toNat⟩ i value = .ok v) :
      v.ram 1 j = u.ram 1 j ∧ v.memoryMap = linuxMemoryMap := by
    have start : 0 + bootloaderAddress.toNat = 0x1000 := rfl
    have size : u.bufferSize 1 = 0x10000 := (bufferSize_ram same).2
    rw [start] at ran
    rw [← same]
    exact storeWord_outside (by omega) ran (by omega)
  obtain ⟨s1,ran1,ran⟩ := bind_eq_ok.mp ran
  obtain ⟨s2,ran2,ran⟩ := bind_eq_ok.mp ran
  obtain ⟨s3,ran3,ran⟩ := bind_eq_ok.mp ran
  obtain ⟨s4,ran4,ran5⟩ := bind_eq_ok.mp ran
  obtain ⟨same1,map1⟩ := stored (by decide) map ran1
  obtain ⟨same2,map2⟩ := stored (by decide) map1 ran2
  obtain ⟨same3,map3⟩ := stored (by decide) map2 ran3
  obtain ⟨same4,map4⟩ := stored (by decide) map3 ran4
  rw [(stored (by decide) map4 ran5).1,same4,same3,same2,same1]

/-- The blob stands behind the boot words. -/
theorem loadDeviceTree_blob (map : s.memoryMap = linuxMemoryMap) (kernelBase : Word)
    (kernelBufLen : Int) (tab stringTable : Nat → Byte) :
    ∃ t, loadDeviceTree true s kernelBase kernelBufLen tab stringTable = .ok t ∧
      t = { s with ram := t.ram } ∧ t.ram 0 = s.ram 0 ∧
      CodeAt t bootloaderPtr (bootloaderWords 0x1040) ∧
      ∃ blob, Holds (t.ram 1) 0x1040 blob ∧ blob.length ≤ 2048 ∧ parse blob = some (machineTree
        (ramBaseAddr.setWidth 64 + kernelBase.setWidth 64) (BitVec.ofInt 64 kernelBufLen)) := by
  have fdt : HostPtr.plus ⟨some 1,0⟩ (bootloaderAddress + 8 * 8) = ⟨some 1,0x1040⟩ := by decide
  have room : 0x1040 + 2048 ≤ s.bufferSize 1 := by
    rw [(bufferSize_ram map).2]
    decide
  obtain ⟨size,bytes,built,_,holds,_⟩ := riscvBuildFdt_returns room
    (ramBaseAddr.setWidth 64 + kernelBase.setWidth 64) (BitVec.ofInt 64 kernelBufLen) tab stringTable
  have same : (withBuffer s 1 bytes).memoryMap = linuxMemoryMap := map
  obtain ⟨t,stored,only,code,others⟩ := writeBootloader_stores same (bootloaderAddress + 8 * 8)
  refine ⟨t, ?_, only, ?_, code, _, ?_, ?_, parse_riscvTokens _ _⟩
  · rw [loadDeviceTree,(getRamPtr_ram map).2,fdt,built]
    exact stored
  · rw [others 0 (by decide)]
    simp [withBuffer]
  · intro i bound
    rw [writeBootloader_outside same _ stored (Or.inr (by omega))]
    simpa [withBuffer] using holds i bound
  · rw [flatten_length]
    exact riscvTokens_size _ _

/-- Files that fit are copied, and their place is told. -/
theorem loadImages_placed (map : s.memoryMap = linuxMemoryMap) {boot kernel : List Byte}
    (bootFits : boot.length ≤ vmMemorySize.toNat)
    (kernelFits : kernel = [] ∨ nextKernelBase boot.length + kernel.length ≤ vmMemorySize.toNat) :
    ∃ t kernelBase, loadImages s (some boot) (some kernel) = .ok (t,kernelBase,(kernel.length : Int)) ∧
      t = { s with ram := t.ram } ∧ Placed boot kernel t ∧
      (kernel ≠ [] → kernelBase = BitVec.ofNat 32 (nextKernelBase boot.length)) := by
  have size : vmMemorySize.toNat < 2 ^ 31 := by decide
  have bootSmall : boot.length < 2 ^ 31 := by omega
  have small : kernel.length < 2 ^ 31 := by
    rcases kernelFits with rfl | inside
    · decide
    · omega
  have fits : ¬vmMemorySize.toNat < readLength boot := by
    rw [readLength_eq bootSmall]
    omega
  have read : ¬int boot.length < 0 := by
    rw [int_small bootSmall]
    omega
  have read' : ¬int kernel.length < 0 := by
    rw [int_small small]
    omega
  have place := alignKernel_toNat bootSmall
  rw [loadImages_eq map read,if_neg fits,readBin_read read',ok_bind]
  dsimp only
  rw [← readBytes,readBytes_eq small,readLength_eq small,readLength_eq bootSmall]
  by_cases empty : kernel = []
  · subst empty
    refine ⟨withBoot s boot, 0, if_neg (by simp), rfl, ?_, fun filled => absurd rfl filled⟩
    refine (placed_iff (s := s) fits ?_).mpr ⟨bootSmall,small,.inl rfl⟩
    have none : readBytes [] = [] := rfl
    rw [none,overlay_nil]
    simp [withBoot,withBuffer]
  · have some : ((kernel.length : Nat) : Int) > 0 := by
      have := List.length_pos_iff.mpr empty
      omega
    have inside : nextKernelBase boot.length + kernel.length ≤ (withBoot s boot).bufferSize 0 := by
      rw [(bufferSize_ram (s := withBoot s boot) map).1]
      exact kernelFits.resolve_left empty
    rw [if_pos some,memcpy_inside inside,ok_bind]
    refine ⟨_, _, rfl, rfl, ?_, fun _ => ?_⟩
    · refine (placed_iff (s := s) fits ?_).mpr ⟨bootSmall,small,kernelFits⟩
      rw [readBytes_eq small,readLength_eq bootSmall]
      simp [withBoot,withBuffer]
    · rw [← place,BitVec.ofNat_toNat,BitVec.setWidth_eq]

end Memory

/-- Iterations that move registers and `pc` only, besides the counters and the cycles. -/
structure Iterates (s t : State) (x : RegisterIndex → Word) (pc : Word) : Prop where
  registers : t.x = x
  pc : t.pc = pc
  csr : UpToCounters s t
  rest : t = { s with
    pc := t.pc
    x := t.x
    csr := t.csr
    vm := { s.vm with cycles := t.vm.cycles }
    pcHistory := t.pcHistory
    instructionCounter := t.instructionCounter }

section Loop

variable [Platform] {s t u : State} {fdtAddr : Word} {i : Nat} {x y : RegisterIndex → Word}
variable {pc pc' : Word}

omit [Platform] in
theorem Iterates.trans (first : Iterates s t x pc) (second : Iterates t u y pc') :
    Iterates s u y pc' := by
  refine ⟨second.registers, second.pc, ?_, ?_⟩
  · intro number time cycle
    exact (second.csr number time cycle).trans (first.csr number time cycle)
  · rw [second.rest,first.rest]

omit [Platform] in
theorem Booting.iterated (booting : Booting s fdtAddr i)
    (done : Iterates s t x (bootloaderAddress + BitVec.ofNat 32 (4 * (i + 1)))) :
    Booting t fdtAddr (i + 1) := by
  refine ⟨?_, ?_, ?_, done.pc, booting.code.congr ?_⟩
  · rw [done.rest]
    exact booting.machine
  · rw [done.rest]
    exact booting.noException
  · rw [done.rest]
    exact booting.map
  · rw [done.rest]

theorem linuxStep_iterates (step : ∃ t, emulateOp s = .ok t ∧ Retires s t x pc) :
    ∃ t, linuxStep s = .ok t ∧ Iterates s t x pc := by
  obtain ⟨t,ran,done⟩ := step
  refine ⟨setCycles t, ?_, done.registers, done.pc, fun number time cycle => done.csr number time cycle, ?_⟩
  · rw [linuxStep,ran]
    rfl
  · exact congrArg setCycles done.rest

/-- Five iterations through the boot words. -/
theorem booting_linuxRun (booting : Booting s fdtAddr 0) (zero : s.x 0 = 0) (low : 0x804 ≤ fdtAddr)
    (high : fdtAddr ≤ 0x1803) :
    ∃ steps, LinuxRun s steps ∧ steps.length = 5 ∧ Iterates s (final s steps)
      (Rv32i.write (Rv32i.write (Rv32i.write s.x 5 ramBaseAddr) 11 fdtAddr) 10
        (readCsr s csrMhartid)) ramBaseAddr := by
  obtain ⟨s1,step1,done1⟩ := linuxStep_iterates (booting_jumpAddr booting)
  have booting1 := booting.iterated done1
  obtain ⟨s2,step2,done2⟩ := linuxStep_iterates (booting_upper booting1)
  have booting2 := booting1.iterated done2
  have base : s2.x 11 = 0x1004 := by
    rw [done2.registers]
    rfl
  obtain ⟨s3,step3,done3⟩ := linuxStep_iterates (booting_lower booting2 base low high)
  have booting3 := booting2.iterated done3
  have hard : s3.x 0 = 0 := by
    rw [done3.registers,done2.registers,done1.registers]
    exact zero
  obtain ⟨s4,step4,done4⟩ := linuxStep_iterates (booting_hartid booting3 hard)
  have booting4 := booting3.iterated done4
  have target : s4.x 5 = ramBaseAddr := by
    rw [done4.registers,done3.registers,done2.registers,done1.registers]
    rfl
  obtain ⟨s5,step5,done5⟩ := linuxStep_iterates (booting_jump booting4 target)
  have before := (done1.trans done2).trans done3
  have whole := (before.trans done4).trans done5
  have hartid : readCsr s3 csrMhartid = readCsr s csrMhartid :=
    before.csr csrMhartid (by decide) (by decide)
  rw [done4.registers,done3.registers,done2.registers,done1.registers,hartid,Rv32i.write_write] at whole
  exact ⟨[((),s1),((),s2),((),s3),((),s4),((),s5)],
    .cons step1 (.cons step2 (.cons step3 (.cons step4 (.cons step5 .nil)))), rfl, whole⟩

end Loop

section Start

variable {boot kernel : List Byte}

/-- A machine that starts is at boot. -/
theorem startLinux_atBoot (started : startLinux ramAllocated lowRamAllocated fileOpens bootloader linux tab
    stringTable = .ok s) : AtBoot s := by
  obtain ⟨map,registered,rest⟩ := bind_eq_ok.mp started
  obtain ⟨t,loaded,rest⟩ := bind_eq_ok.mp rest
  rw [initializeCalls_entries registered] at loaded
  refine ⟨t.ram, ?_⟩
  rw [← Except.ok.inj rest,loadBiosAndKernel_ramOnly loaded]
  rfl

/-- In front of the loop, with the kernel behind the boot loader. -/
structure Loaded (boot kernel : List Byte) (s : State) : Prop where
  atBoot : AtBoot s
  code : CodeAt s bootloaderPtr (bootloaderWords 0x1040)
  images : Placed boot kernel s
  tree : ∃ blob, Holds (s.ram 1) 0x1040 blob ∧ blob.length ≤ 2048 ∧ parse blob =
    some (machineTree (BitVec.ofNat 64 (ramBaseAddr.toNat + nextKernelBase boot.length))
      (BitVec.ofNat 64 kernel.length))

theorem machineTree_kernelless (kernelStart kernelStart' : Quadword) :
    machineTree kernelStart 0 = machineTree kernelStart' 0 := rfl

theorem startLinux_loaded (bootFits : boot.length ≤ vmMemorySize.toNat)
    (kernelFits : kernel = [] ∨ nextKernelBase boot.length + kernel.length ≤ vmMemorySize.toNat)
    (tab stringTable : Nat → Byte) :
    ∃ s, startLinux true true true (some boot) (some kernel) tab stringTable = .ok s ∧
      Loaded boot kernel s := by
  obtain ⟨map,registered⟩ : ∃ map, registerAll physMemMapInit (initializeCalls true true) = .ok map :=
    ⟨_, rfl⟩
  have entries := initializeCalls_entries registered
  let initial := initializeStateLinux linuxMemoryMap (fun _ _ => 0) ⟨0,0,0,0⟩ ⟨fun _ => 0, 0, []⟩
  obtain ⟨t,kernelBase,loaded,only,placed,base⟩ :=
    loadImages_placed (s := initial) rfl bootFits kernelFits
  have mapped : t.memoryMap = linuxMemoryMap := by
    rw [only]
    rfl
  obtain ⟨u,built,_,same,code,blob,holds,short,parsed⟩ :=
    loadDeviceTree_blob mapped kernelBase kernel.length tab stringTable
  have started : startLinux true true true (some boot) (some kernel) tab stringTable =
      .ok { u with pc := bootloaderAddress } := by
    rw [startLinux,registered,ok_bind,entries]
    dsimp only
    rw [loadBiosAndKernel,loaded,ok_bind]
    dsimp only
    rw [built]
    rfl
  refine ⟨_, started, startLinux_atBoot started, code.congr rfl,
    (Placed.congr (t := t) (u := { u with pc := bootloaderAddress }) same).mpr placed, blob, holds,
    short, parsed.trans (congrArg some ?_)⟩
  rw [BitVec.ofInt_natCast]
  by_cases empty : kernel = []
  · rw [empty]
    exact machineTree_kernelless _ _
  · have inside := kernelFits.resolve_left empty
    have size : vmMemorySize.toNat = 0x6000000 := rfl
    have ramBase : ramBaseAddr.toNat = 0x80000000 := rfl
    have start : ramBaseAddr.setWidth 64 + kernelBase.setWidth 64 =
        BitVec.ofNat 64 (ramBaseAddr.toNat + nextKernelBase boot.length) := by
      apply BitVec.eq_of_toNat_eq
      rw [base empty,BitVec.toNat_add,BitVec.toNat_setWidth,BitVec.toNat_setWidth,
        BitVec.toNat_ofNat,BitVec.toNat_ofNat,ramBase]
      omega
    rw [start]

/-- The registers with which the boot words leave. -/
def bootRegisters : RegisterIndex → Word :=
  Rv32i.write (Rv32i.write (Rv32i.write (fun _ => 0) 5 ramBaseAddr) 11 0x1040) 10 0

theorem Loaded.boots [Platform] {s : State} (loaded : Loaded boot kernel s) :
    ∃ steps, LinuxRun s steps ∧ steps.length = 5 ∧
      Iterates s (final s steps) bootRegisters ramBaseAddr := by
  obtain ⟨⟨_,initial⟩,code,_⟩ := loaded
  have booting : Booting s 0x1040 0 := by
    refine ⟨?_, ?_, ?_, ?_, code⟩ <;> rw [initial] <;> rfl
  have x : s.x = fun _ => 0 := by
    rw [initial]
    rfl
  obtain ⟨steps,run,five,done⟩ := booting_linuxRun booting (congrFun x 0) (by decide) (by decide)
  have hart : readCsr s csrMhartid = 0 := by
    rw [initial]
    rfl
  rw [x,hart] at done
  exact ⟨steps, run, five, done⟩

theorem Loaded.handedOver {s t : State} (loaded : Loaded boot kernel s)
    (done : Iterates s t bootRegisters ramBaseAddr) : HandedOver boot kernel t := by
  obtain ⟨⟨_,initial⟩,_,images,blob,holds,_,parsed⟩ := loaded
  have registers := done.registers
  have memory : t.ram = s.ram := by rw [done.rest]
  have map : t.memoryMap = linuxMemoryMap := by
    rw [done.rest,initial]
    rfl
  refine ⟨done.pc, ?_, ?_, ?_, (Placed.congr (by rw [memory])).mpr images, ?_, ?_⟩
  · rw [done.rest,initial]
    rfl
  · rw [registers]
    rfl
  · intro r first second third
    rw [registers,bootRegisters]
    simp only [Rv32i.write]
    rw [if_neg fun both => second both.1,if_neg fun both => third both.1,
      if_neg fun both => first both.1]
  · refine ⟨blob, _, ?_, parsed, rfl, ?_⟩
    · rw [memory,registers]
      exact holds
    · rw [map]
      exact machineTree_describes _ _
  · rw [done.rest,initial]
    exact ⟨rfl,rfl,rfl⟩

/-- From the start of the process to the first instruction of the firmware. -/
theorem startLinux_handsOver [Platform] (bootFits : boot.length ≤ vmMemorySize.toNat)
    (kernelFits : kernel = [] ∨ nextKernelBase boot.length + kernel.length ≤ vmMemorySize.toNat)
    (tab stringTable : Nat → Byte) :
    ∃ s steps, startLinux true true true (some boot) (some kernel) tab stringTable = .ok s ∧ AtBoot s ∧
      LinuxRun s steps ∧ steps.length = 5 ∧ HandedOver boot kernel (final s steps) := by
  obtain ⟨s,started,loaded⟩ := startLinux_loaded bootFits kernelFits tab stringTable
  obtain ⟨steps,run,five,done⟩ := loaded.boots
  exact ⟨s, steps, started, loaded.atBoot, run, five, loaded.handedOver done⟩

end Start

/-- A boot loader that jumps to itself, and a kernel of one instruction. -/
theorem startLinux_handsOver_looping :
    ∃ s steps, startLinux true true true (some [0x6f,0,0,0]) (some [0x13,0,0,0]) (fun _ => 0xcc)
        (fun _ => 0xcc) = .ok s ∧ AtBoot s ∧ @LinuxRun clearingPlatform s steps ∧ steps.length = 5 ∧
      HandedOver [0x6f,0,0,0] [0x13,0,0,0] (final s steps) :=
  @startLinux_handsOver [0x6f,0,0,0] [0x13,0,0,0] clearingPlatform (by decide)
    (.inr (by decide +kernel)) _ _

end Emuriscv
