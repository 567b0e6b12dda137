import Emuriscv.BootHandoff
import Emuriscv.BootTree
import Mathlib.Algebra.Order.Floor.Div

/-! Where `load_bios_and_kernel` puts the boot loader and the kernel. The boot loader is checked
against the size of RAM; the kernel, which goes to the next multiple of 4 MiB, is not. -/
namespace Emuriscv

open Segment

def exitBootloaderTooBig : Nat := 0x1
def exitCannotLoadTestBinary : Nat := 0x1000

/-- `read_bin` of a file that may be missing. The size is kept in an `int`; where that is
negative, `malloc` is asked for nearly all addresses and returns NULL, and `fread` stores there.
Otherwise the memory is there. -/
def readBin : Option (List Byte) → Except Stop (List Byte × Int)
  | none => throw (.exit exitCannotLoadTestBinary)
  | some file =>
    let binFileSize := int file.length
    if binFileSize < 0 then throw .nullPointer
    else pure (file.take binFileSize.toNat, binFileSize)

/-- `memcpy` into guest memory. -/
def memcpy (s : State) (dst : HostPtr) (bytes : List Byte) : Except Stop State :=
  match dst.base with
  | none => if bytes = [] then pure s else throw .nullPointer
  | some buffer =>
    if dst.offset + bytes.length ≤ s.bufferSize buffer then
      pure (withBuffer s buffer (overlay (s.ram buffer) dst.offset bytes))
    else throw .outOfBounds

def HostPtr.plus (ptr : HostPtr) (distance : Word) : HostPtr :=
  { ptr with offset := ptr.offset + distance.toNat }

/-- A range's pointer, or NULL. -/
def getRamPtr (s : State) (paddr : Word) : HostPtr :=
  (physMemGetRamPtr s.memoryMap paddr).getD ⟨none,0⟩

def kernelAlign : Word := 4 <<< 20

/-- Unsigned arithmetic, into which `buf_len` is converted. -/
def alignKernel (bufLen : Int) : Word :=
  (BitVec.ofInt 32 bufLen + kernelAlign - 1) &&& ~~~(kernelAlign - 1)

/-- The first half of `load_bios_and_kernel`: the images. It returns `kernel_base` and
`kernel_buf_len` too. -/
def loadImages (s : State) (bootloader linux : Option (List Byte)) :
    Except Stop (State × Word × Int) := do
  let (buf, bufLen) ← readBin bootloader
  if BitVec.ofInt 32 bufLen > vmMemorySize then throw (.exit exitBootloaderTooBig)
  else
    let ramPtr := getRamPtr s ramBaseAddr
    let s ← memcpy s ramPtr buf
    let (kernelBuf, kernelBufLen) ← readBin linux
    if kernelBufLen > 0 then
      let kernelBase := alignKernel bufLen
      let s ← memcpy s (ramPtr.plus kernelBase) kernelBuf
      pure (s, kernelBase, kernelBufLen)
    else pure (s, 0, kernelBufLen)

/-- The second half: the device tree and the words that jump to the boot loader. -/
def loadDeviceTree (fileOpens : Bool) (s : State) (kernelBase : Word) (kernelBufLen : Int)
    (tab stringTable : Nat → Byte) : Except Stop State := do
  let ramPtr := getRamPtr s 0
  let fdtAddr := bootloaderAddress + 8 * 8
  let (_, s) ← riscvBuildFdt fileOpens s vmMemorySize (ramPtr.plus fdtAddr)
    (ramBaseAddr.setWidth 64 + kernelBase.setWidth 64) (BitVec.ofInt 64 kernelBufLen) linuxCmdline
    tab stringTable
  writeBootloader s ramPtr fdtAddr

def loadBiosAndKernel (fileOpens : Bool) (s : State) (bootloader linux : Option (List Byte))
    (tab stringTable : Nat → Byte) : Except Stop State := do
  let (s, kernelBase, kernelBufLen) ← loadImages s bootloader linux
  loadDeviceTree fileOpens s kernelBase kernelBufLen tab stringTable

/-- The least multiple of 4 MiB that is not below `n`. -/
def nextKernelBase (n : Nat) : Nat := n ⌈/⌉ 2 ^ 22 * 2 ^ 22

theorem nextKernelBase_isLeast (n : Nat) :
    IsLeast {base | 2 ^ 22 ∣ base ∧ n ≤ base} (nextKernelBase n) := by
  have positive : 0 < 2 ^ 22 := by decide
  constructor
  · refine ⟨Dvd.intro_left _ rfl, ?_⟩
    rw [nextKernelBase,Nat.mul_comm]
    exact le_smul_ceilDiv positive
  · rintro base ⟨⟨k,rfl⟩,above⟩
    rw [nextKernelBase,Nat.mul_comm]
    exact Nat.mul_le_mul_left _ ((ceilDiv_le_iff_le_mul positive).mpr above)

theorem alignKernel_toNat {n : Nat} (small : n < 2 ^ 31) :
    (alignKernel n).toNat = nextKernelBase n := by
  have mask : ~~~(kernelAlign - 1) = BitField.Field.mask ⟨22,10,by decide,by decide⟩ := by decide
  have align : kernelAlign.toNat = 2 ^ 22 := by decide
  have sum : (BitVec.ofInt 32 n + kernelAlign - 1).toNat = n + 2 ^ 22 - 1 := by
    have whole : (BitVec.ofNat 32 n).toNat = n := Nat.mod_eq_of_lt (by omega)
    have one : (1 : Word).toNat = 1 := rfl
    rw [BitVec.ofInt_natCast,BitVec.toNat_sub,BitVec.toNat_add,whole,align,one]
    omega
  rw [alignKernel,mask,BitField.and_upper_toNat _ rfl,sum]
  rfl

section Steps

variable {s : State}

theorem memcpy_inside {buffer offset : Nat} {bytes : List Byte}
    (inside : offset + bytes.length ≤ s.bufferSize buffer) :
    memcpy s ⟨some buffer,offset⟩ bytes =
      .ok (withBuffer s buffer (overlay (s.ram buffer) offset bytes)) := by
  simp [memcpy,inside]

theorem memcpy_outside {buffer offset : Nat} {bytes : List Byte}
    (outside : ¬offset + bytes.length ≤ s.bufferSize buffer) :
    memcpy s ⟨some buffer,offset⟩ bytes = .error .outOfBounds := by
  simp [memcpy,outside]

theorem withBuffer_same (s : State) (buffer : Nat) : withBuffer s buffer (s.ram buffer) = s := by
  rw [withBuffer,Function.update_eq_self]

theorem getRamPtr_ram (map : s.memoryMap = linuxMemoryMap) :
    getRamPtr s ramBaseAddr = ⟨some 0,0⟩ ∧ getRamPtr s 0 = ⟨some 1,0⟩ := by
  rw [getRamPtr,getRamPtr,map]
  decide

theorem bufferSize_ram (map : s.memoryMap = linuxMemoryMap) :
    s.bufferSize 0 = vmMemorySize.toNat ∧ s.bufferSize 1 = lowRamSize.toNat := by
  rw [State.bufferSize,State.bufferSize,map]
  exact ⟨rfl,rfl⟩

/-- The device tree and the jump stand in low RAM. -/
theorem loadDeviceTree_returns (map : s.memoryMap = linuxMemoryMap) (kernelBase : Word)
    (kernelBufLen : Int) (tab stringTable : Nat → Byte) :
    ∃ t, loadDeviceTree true s kernelBase kernelBufLen tab stringTable = .ok t ∧ t.ram 0 = s.ram 0 := by
  have fdt : HostPtr.plus ⟨some 1,0⟩ (bootloaderAddress + 8 * 8) = ⟨some 1,0x1040⟩ := by decide
  have room : 0x1040 + 2048 ≤ s.bufferSize 1 := by
    rw [(bufferSize_ram map).2]
    decide
  obtain ⟨size,bytes,built,_⟩ := riscvBuildFdt_returns room
    (ramBaseAddr.setWidth 64 + kernelBase.setWidth 64) (BitVec.ofInt 64 kernelBufLen) tab stringTable
  have same : (withBuffer s 1 bytes).memoryMap = linuxMemoryMap := map
  obtain ⟨t,stored,_,_,others⟩ := writeBootloader_stores same (bootloaderAddress + 8 * 8)
  refine ⟨t, ?_, ?_⟩
  · rw [loadDeviceTree,(getRamPtr_ram map).2,fdt,built]
    exact stored
  · rw [others 0 (by decide)]
    simp [withBuffer]

end Steps

/-- The number of bytes that `read_bin` reads. -/
def readLength (file : List Byte) : Nat := (int file.length).toNat

theorem readBin_negative {file : List Byte} (negative : int file.length < 0) :
    readBin (some file) = .error .nullPointer := by
  simp [readBin,negative]

theorem readBin_read {file : List Byte} (read : ¬int file.length < 0) :
    readBin (some file) = .ok (file.take (readLength file), readLength file) := by
  have number : ((readLength file : Nat) : Int) = int file.length :=
    Int.toNat_of_nonneg (Int.not_lt.mp read)
  rw [readBin,if_neg read,number,readLength]
  rfl

theorem int_small {n : Nat} (small : n < 2 ^ 31) : int n = n := int_eq (by omega) (by omega)

theorem readLength_eq {file : List Byte} (small : file.length < 2 ^ 31) :
    readLength file = file.length := by
  rw [readLength,int_small small,Int.toNat_natCast]

/-- The conversion of a length to `int`. -/
theorem int_length (n : Nat) :
    int n = if n % 2 ^ 32 < 2 ^ 31 then (n : Int) % 2 ^ 32 else (n : Int) % 2 ^ 32 - 2 ^ 32 := by
  rw [int,Int.bmod_def]
  split <;> split <;> omega

theorem readLength_lt (file : List Byte) : readLength file < 2 ^ 31 := by
  rw [readLength,int_length]
  split <;> omega

theorem readLength_le (file : List Byte) : readLength file ≤ file.length := by
  rw [readLength,int_length]
  split <;> omega

section Images

variable {s : State} {boot kernel : List Byte} {linux : Option (List Byte)}

def readBytes (file : List Byte) : List Byte := file.take (readLength file)

theorem readBytes_length (file : List Byte) : (readBytes file).length = readLength file := by
  rw [readBytes,List.length_take]
  exact Nat.min_eq_left (readLength_le file)

theorem readBytes_eq {file : List Byte} (small : file.length < 2 ^ 31) : readBytes file = file := by
  rw [readBytes,readLength_eq small,List.take_length]

/-- The boot loader is at the start of RAM. -/
def withBoot (s : State) (boot : List Byte) : State :=
  withBuffer s 0 (overlay (s.ram 0) 0 (readBytes boot))

theorem ofInt_gt_iff {n : Nat} (small : n < 2 ^ 31) :
    BitVec.ofInt 32 n > vmMemorySize ↔ vmMemorySize.toNat < n := by
  have whole : (BitVec.ofNat 32 n).toNat = n := Nat.mod_eq_of_lt (by omega)
  rw [BitVec.ofInt_natCast,gt_iff_lt,BitVec.lt_def,whole]

theorem loadImages_eq (map : s.memoryMap = linuxMemoryMap) (read : ¬int boot.length < 0) :
    loadImages s (some boot) linux =
      if vmMemorySize.toNat < readLength boot then .error (.exit exitBootloaderTooBig)
      else readBin linux >>= fun (kernelBuf, kernelBufLen) =>
        if kernelBufLen > 0 then
          memcpy (withBoot s boot) ⟨some 0, nextKernelBase (readLength boot)⟩ kernelBuf >>=
            fun s => .ok (s, alignKernel (readLength boot), kernelBufLen)
        else .ok (withBoot s boot, 0, kernelBufLen) := by
  rw [loadImages,readBin_read read,ok_bind]
  dsimp only
  by_cases big : vmMemorySize.toNat < readLength boot
  · rw [if_pos ((ofInt_gt_iff (readLength_lt boot)).mpr big),if_pos big]
    rfl
  · have inside : 0 + (readBytes boot).length ≤ s.bufferSize 0 := by
      rw [readBytes_length,(bufferSize_ram map).1]
      omega
    have base : HostPtr.plus ⟨some 0,0⟩ (alignKernel (readLength boot)) =
        ⟨some 0, nextKernelBase (readLength boot)⟩ := by
      rw [HostPtr.plus,alignKernel_toNat (readLength_lt boot),Nat.zero_add]
    rw [if_neg (big ∘ (ofInt_gt_iff (readLength_lt boot)).mp),if_neg big,(getRamPtr_ram map).1]
    have copied := memcpy_inside inside
    rw [readBytes] at copied
    rw [copied,ok_bind,base]
    rfl

/-- The kernel read is empty, or it ends within RAM. -/
def KernelFits (boot kernel : List Byte) : Prop :=
  readLength kernel = 0 ∨
    nextKernelBase (readLength boot) + readLength kernel ≤ vmMemorySize.toNat

theorem loadImages_fits (map : s.memoryMap = linuxMemoryMap) (read : ¬int boot.length < 0)
    (small : ¬vmMemorySize.toNat < readLength boot) (read' : ¬int kernel.length < 0)
    (fits : KernelFits boot kernel) :
    ∃ kernelBase kernelBufLen, loadImages s (some boot) (some kernel) =
      .ok (withBuffer (withBoot s boot) 0 (overlay ((withBoot s boot).ram 0)
        (nextKernelBase (readLength boot)) (readBytes kernel)), kernelBase, kernelBufLen) := by
  rw [loadImages_eq map read,if_neg small,readBin_read read',ok_bind]
  dsimp only
  rw [← readBytes]
  by_cases empty : readLength kernel = 0
  · have nothing : readBytes kernel = [] := by
      rw [← List.length_eq_zero_iff,readBytes_length,empty]
    have same : withBuffer (withBoot s boot) 0 (overlay ((withBoot s boot).ram 0)
        (nextKernelBase (readLength boot)) []) = withBoot s boot := by
      rw [overlay_nil,withBuffer_same]
    have none : ¬((readLength kernel : Nat) : Int) > 0 := by omega
    rw [if_neg none,nothing,same]
    exact ⟨_,_,rfl⟩
  · have inside : nextKernelBase (readLength boot) + (readBytes kernel).length ≤
        (withBoot s boot).bufferSize 0 := by
      rw [readBytes_length,(bufferSize_ram (s := withBoot s boot) map).1]
      exact fits.resolve_left empty
    have some : ((readLength kernel : Nat) : Int) > 0 := by omega
    rw [if_pos some,memcpy_inside inside,ok_bind]
    exact ⟨_,_,rfl⟩

theorem loadImages_overruns (map : s.memoryMap = linuxMemoryMap) (read : ¬int boot.length < 0)
    (small : ¬vmMemorySize.toNat < readLength boot) (read' : ¬int kernel.length < 0)
    (overruns : ¬KernelFits boot kernel) :
    loadImages s (some boot) (some kernel) = .error .outOfBounds := by
  rw [KernelFits,not_or] at overruns
  have outside : ¬nextKernelBase (readLength boot) + (readBytes kernel).length ≤
      (withBoot s boot).bufferSize 0 := by
    rw [readBytes_length,(bufferSize_ram (s := withBoot s boot) map).1]
    exact overruns.2
  rw [loadImages_eq map read,if_neg small,readBin_read read',ok_bind]
  dsimp only
  rw [← readBytes,if_pos (by omega),memcpy_outside outside]
  rfl

end Images

/-- The boot loader is at the start of RAM and the kernel, if it is not empty, at the least
multiple of 4 MiB above it; both end within RAM. -/
structure Placed (boot kernel : List Byte) (t : State) : Prop where
  bootHeld : Holds (t.ram 0) 0 boot
  bootInside : boot.length ≤ vmMemorySize.toNat
  kernelHeld : kernel ≠ [] → ∃ base, IsLeast {base | 2 ^ 22 ∣ base ∧ boot.length ≤ base} base ∧
    Holds (t.ram 0) base kernel ∧ base + kernel.length ≤ vmMemorySize.toNat

/-- The emulator does not start, or both images are where they belong; with a host on which the file
of `riscv_build_fdt`, which is written after both of them, can be opened. -/
def LoadsImages (s : State) (bootloader linux : Option (List Byte)) (tab stringTable : Nat → Byte) :
    Prop :=
  (∃ code, loadBiosAndKernel true s bootloader linux tab stringTable = .error (.exit code)) ∨
    ∃ boot kernel t, bootloader = some boot ∧ linux = some kernel ∧
      loadBiosAndKernel true s bootloader linux tab stringTable = .ok t ∧ Placed boot kernel t

/-- A file is missing, or the boot loader is found to be too big, or both files have a size that
an `int` holds and the kernel, if any, ends within RAM. -/
inductive ImagesFit : Option (List Byte) → Option (List Byte) → Prop
  | noBootloader : ImagesFit none linux
  | bigBootloader (big : (vmMemorySize.toNat : Int) < int boot.length) : ImagesFit (some boot) linux
  | noKernel (read : 0 ≤ int boot.length) : ImagesFit (some boot) none
  | fitting (boot kernel : List Byte) (bootSmall : boot.length < 2 ^ 31)
      (kernelSmall : kernel.length < 2 ^ 31)
      (fits : kernel = [] ∨ nextKernelBase boot.length + kernel.length ≤ vmMemorySize.toNat) :
      ImagesFit (some boot) (some kernel)

section Placement

variable {s : State} {boot kernel : List Byte} {bootloader linux : Option (List Byte)}
variable {tab stringTable : Nat → Byte}

theorem loadBiosAndKernel_error {stop : Stop}
    (stopped : loadImages s bootloader linux = .error stop) :
    loadBiosAndKernel fileOpens s bootloader linux tab stringTable = .error stop := by
  rw [loadBiosAndKernel,stopped]
  rfl

theorem loadsImages_exit {code : Nat} (stopped : loadImages s bootloader linux = .error (.exit code)) :
    LoadsImages s bootloader linux tab stringTable :=
  .inl ⟨code, loadBiosAndKernel_error stopped⟩

theorem not_loadsImages {stop : Stop} (stopped : loadImages s bootloader linux = .error stop)
    (crash : ∀ code, stop ≠ .exit code) : ¬LoadsImages s bootloader linux tab stringTable := by
  rw [LoadsImages,loadBiosAndKernel_error stopped]
  rintro (⟨code,exits⟩ | ⟨_,_,_,_,_,ok,_⟩)
  · exact crash code (Except.error.inj exits)
  · cases ok

theorem Placed.congr {t u : State} (same : u.ram 0 = t.ram 0) :
    Placed boot kernel u ↔ Placed boot kernel t := by
  constructor
  · rintro ⟨held,inside,kernelHeld⟩
    rw [same] at held kernelHeld
    exact ⟨held,inside,kernelHeld⟩
  · rintro ⟨held,inside,kernelHeld⟩
    rw [← same] at held kernelHeld
    exact ⟨held,inside,kernelHeld⟩

/-- What is in RAM after the first half is there after the second. -/
theorem loadsImages_ok {t : State} {kernelBase : Word} {kernelBufLen : Int}
    (loaded : loadImages s (some boot) (some kernel) = .ok (t,kernelBase,kernelBufLen))
    (map : t.memoryMap = linuxMemoryMap) :
    LoadsImages s (some boot) (some kernel) tab stringTable ↔ Placed boot kernel t := by
  obtain ⟨u,built,same⟩ := loadDeviceTree_returns map kernelBase kernelBufLen tab stringTable
  have whole : loadBiosAndKernel true s (some boot) (some kernel) tab stringTable = .ok u := by
    rw [loadBiosAndKernel,loaded,ok_bind]
    exact built
  rw [LoadsImages,whole,← Placed.congr same]
  constructor
  · rintro (⟨_,exits⟩ | ⟨_,_,_,⟨⟩,⟨⟩,ok,placed⟩)
    · cases exits
    · cases ok
      exact placed
  · intro placed
    exact .inr ⟨_,_,_,rfl,rfl,rfl,placed⟩

/-- Both copies are in RAM: the second is above the first. -/
theorem placed_iff (small : ¬vmMemorySize.toNat < readLength boot) {t : State}
    (ram : t.ram 0 = overlay (overlay (s.ram 0) 0 (readBytes boot))
      (nextKernelBase (readLength boot)) (readBytes kernel)) :
    Placed boot kernel t ↔ boot.length < 2 ^ 31 ∧ kernel.length < 2 ^ 31 ∧
      (kernel = [] ∨ nextKernelBase boot.length + kernel.length ≤ vmMemorySize.toNat) := by
  have size : vmMemorySize.toNat < 2 ^ 31 := by decide
  constructor
  · rintro ⟨_,bootInside,kernelHeld⟩
    by_cases empty : kernel = []
    · refine ⟨by omega, ?_, .inl empty⟩
      rw [empty]
      decide
    · obtain ⟨base,least,_,inside⟩ := kernelHeld empty
      rw [← least.unique (nextKernelBase_isLeast _)]
      exact ⟨by omega, by omega, .inr inside⟩
  · rintro ⟨bootSmall,kernelSmall,fits⟩
    have above := (nextKernelBase_isLeast boot.length).1.2
    rw [readLength_eq bootSmall] at small ram
    rw [readBytes_eq bootSmall,readBytes_eq kernelSmall] at ram
    have held : Holds (t.ram 0) 0 boot := by
      rw [ram]
      exact overlay_holds.overlay (.inl (by omega))
    refine ⟨held, Nat.not_lt.mp small, fun filled => ⟨_, nextKernelBase_isLeast _, ?_, ?_⟩⟩
    · rw [ram]
      exact overlay_holds
    · exact fits.resolve_left filled

theorem imagesFit_iff (small : ¬(vmMemorySize.toNat : Int) < int boot.length) :
    ImagesFit (some boot) (some kernel) ↔ boot.length < 2 ^ 31 ∧ kernel.length < 2 ^ 31 ∧
      (kernel = [] ∨ nextKernelBase boot.length + kernel.length ≤ vmMemorySize.toNat) := by
  constructor
  · intro there
    cases there with
    | bigBootloader large => exact absurd large small
    | fitting _ _ bootSmall kernelSmall inside => exact ⟨bootSmall,kernelSmall,inside⟩
  · rintro ⟨bootSmall,kernelSmall,inside⟩
    exact .fitting _ _ bootSmall kernelSmall inside

/-- A missing file and a boot loader that is too big are noticed. A kernel that does not fit is
not: it is copied over what stands behind RAM. -/
theorem loadsImages_iff (map : s.memoryMap = linuxMemoryMap) :
    LoadsImages s bootloader linux tab stringTable ↔ ImagesFit bootloader linux := by
  rcases bootloader with _ | boot
  · have stopped : loadImages s none linux = .error (.exit exitCannotLoadTestBinary) := rfl
    exact iff_of_true (loadsImages_exit stopped) .noBootloader
  by_cases read : int boot.length < 0
  · have stopped : loadImages s (some boot) linux = .error .nullPointer := by
      rw [loadImages,readBin_negative read]
      rfl
    refine iff_of_false (not_loadsImages stopped (by simp)) fun there => ?_
    cases there with
    | bigBootloader big => omega
    | noKernel nonneg => omega
    | fitting _ _ bootSmall => exact absurd read (by rw [int_small bootSmall]; omega)
  by_cases big : vmMemorySize.toNat < readLength boot
  · have stopped : loadImages s (some boot) linux = .error (.exit exitBootloaderTooBig) := by
      rw [loadImages_eq map read,if_pos big]
    rw [readLength] at big
    exact iff_of_true (loadsImages_exit stopped) (.bigBootloader (by omega))
  have small : ¬(vmMemorySize.toNat : Int) < int boot.length := by
    rw [readLength] at big
    omega
  rcases linux with _ | kernel
  · have stopped : loadImages s (some boot) none = .error (.exit exitCannotLoadTestBinary) := by
      rw [loadImages_eq map read,if_neg big]
      rfl
    exact iff_of_true (loadsImages_exit stopped) (.noKernel (by omega))
  by_cases read' : int kernel.length < 0
  · have stopped : loadImages s (some boot) (some kernel) = .error .nullPointer := by
      rw [loadImages_eq map read,if_neg big,readBin_negative read']
      rfl
    refine iff_of_false (not_loadsImages stopped (by simp)) fun there => ?_
    obtain ⟨_,kernelSmall,_⟩ := (imagesFit_iff small).mp there
    rw [int_small kernelSmall] at read'
    omega
  by_cases fits : KernelFits boot kernel
  · obtain ⟨kernelBase,kernelBufLen,loaded⟩ := loadImages_fits map read big read' fits
    rw [loadsImages_ok loaded map,imagesFit_iff small]
    exact placed_iff (s := s) big (by simp [withBuffer,withBoot])
  · have stopped := loadImages_overruns map read big read' fits
    refine iff_of_false (not_loadsImages stopped (by simp)) fun there => ?_
    obtain ⟨bootSmall,kernelSmall,inside⟩ := (imagesFit_iff small).mp there
    rw [KernelFits,readLength_eq bootSmall,readLength_eq kernelSmall] at fits
    rcases inside with rfl | inside
    · exact fits (.inl rfl)
    · exact fits (.inr inside)

end Placement

/-- A boot loader of one instruction, and a kernel of one. -/
theorem loadsImages_handoffMachine : LoadsImages handoffMachine (some [0x6f,0,0,0])
    (some [0x13,0,0,0]) (fun _ => 0) (fun _ => 0) :=
  (loadsImages_iff rfl).mpr (.fitting _ _ (by decide) (by decide) (.inr (by decide +kernel)))

/-- Behind a boot loader of one byte, a kernel of the size of RAM ends 4 MiB too far. -/
theorem kernel_leaves :
    loadBiosAndKernel true handoffMachine (some [0]) (some (List.replicate vmMemorySize.toNat 0))
        (fun _ => 0) (fun _ => 0) = .error .outOfBounds ∧
      ¬LoadsImages handoffMachine (some [0]) (some (List.replicate vmMemorySize.toNat 0))
        (fun _ => 0) (fun _ => 0) := by
  have size : (List.replicate vmMemorySize.toNat (0 : Byte)).length = vmMemorySize.toNat :=
    List.length_replicate
  have read : readLength (List.replicate vmMemorySize.toNat (0 : Byte)) = vmMemorySize.toNat := by
    rw [readLength_eq (by rw [size]; decide),size]
  have overruns : ¬KernelFits [0] (List.replicate vmMemorySize.toNat 0) := by
    rw [KernelFits,read]
    decide +kernel
  have stopped : loadImages handoffMachine (some [0]) (some (List.replicate vmMemorySize.toNat 0)) =
      .error .outOfBounds := by
    refine loadImages_overruns rfl (by decide) (by decide) ?_ overruns
    rw [size]
    decide
  exact ⟨loadBiosAndKernel_error stopped, not_loadsImages stopped (by simp)⟩

end Emuriscv
