import Emuriscv.BareMemory
import Emuriscv.FdtOutput
import Emuriscv.LinuxRun

/-! The device tree of the machine: the calls of `riscv_build_fdt`, and the blob that they leave
in guest memory. -/
namespace Emuriscv

open Codec Segment DeviceTree

/-- A string literal: its characters up to the first NUL. -/
def CString.literal (text : String) : CString where
  chars := (text.toList.map fun c => BitVec.ofNat 8 c.toNat).takeWhile (· ≠ 0)
  nulFree := by
    intro member
    have nonzero := List.all_eq_true.mp List.all_takeWhile _ member
    simp at nonzero

def rtcFreq : Word := 10000000

def linuxCmdline : CString := .literal "debug keep_bootcon bootmem_debug earlycon=sbi"

def beginNode (name : String) : FdtCall := .beginNode (.beginNode (.literal name))

def beginNodeNum (name : String) (n : Word) : FdtCall :=
  .beginNode (.beginNodeNum (.literal name) (n.setWidth 64))

def propU32 (propName : String) (val : Word) : FdtCall := .prop (.propU32 (.literal propName) val)

def propStr (propName str : String) : FdtCall :=
  .prop (.propStr (.literal propName) (.literal str))

def propTabU32 (propName : String) (tab : List Word) : FdtCall :=
  .prop (.propTabU32 (.literal propName) tab)

def propTabU64_2 (propName : String) (v0 v1 : Word) : FdtCall :=
  .prop (.propTabU64_2 (.literal propName) (v0.setWidth 64) (v1.setWidth 64))

/-- `fdt_prop(s, name, NULL, 0)` -/
def propEmpty (propName : String) : FdtCall := .prop (.prop (.literal propName) [])

/-- The addresses of the kernel, if there is one. -/
def kernelCalls (kernelStart kernelSize : Quadword) : List FdtCall :=
  if kernelSize > 0 then
    [.prop (.propTabU64 (.literal "riscv,kernel-start") kernelStart),
      .prop (.propTabU64 (.literal "riscv,kernel-end") (kernelStart + kernelSize))]
  else []

/-- The sequence of calls between `fdt_init` and `fdt_output`; `max_xlen` is 32, and
`intc_phandle` is the first phandle. -/
def riscvFdtCalls (ramSize : Word) (kernelStart kernelSize : Quadword) (cmdLine : CString) :
    List FdtCall := [
  beginNode "",
  propU32 "#address-cells" 2,
  propU32 "#size-cells" 2,
  propStr "compatible" "ucbbar,riscvemu-bar",
  propStr "model" "emuriscv,emuriscv",
  beginNode "cpus",
  propU32 "#address-cells" 1,
  propU32 "#size-cells" 0,
  propU32 "timebase-frequency" rtcFreq,
  beginNodeNum "cpu" 0,
  propStr "device_type" "cpu",
  propU32 "reg" 0,
  propStr "status" "okay",
  propStr "compatible" "riscv",
  propStr "riscv,isa" "rv32i",
  propStr "mmu-type" "riscv,sv32",
  propU32 "clock-frequency" rtcFreq,
  beginNode "interrupt-controller",
  propU32 "#interrupt-cells" 1,
  propEmpty "interrupt-controller",
  propStr "compatible" "riscv,cpu-intc",
  propU32 "phandle" 1,
  .endNode,
  .endNode,
  .endNode,
  beginNodeNum "memory" ramBaseAddr,
  propStr "device_type" "memory",
  propTabU32 "reg" [0, ramBaseAddr, 0, ramSize],
  .endNode,
  beginNode "soc",
  propU32 "#address-cells" 2,
  propU32 "#size-cells" 2,
  .prop (.propTabStr (.literal "compatible")
    [.literal "ucbbar,riscvemu-bar-soc", .literal "simple-bus"]),
  propEmpty "ranges",
  beginNodeNum "clint" clintBaseAddr,
  propStr "compatible" "riscv,clint0",
  propTabU32 "interrupts-extended" [1, 3, 1, 7],
  propTabU64_2 "reg" clintBaseAddr clintSize,
  .endNode,
  beginNodeNum "uart" uartBaseAddr,
  propStr "compatible" "sifive,uart0",
  propTabU64_2 "reg" uartBaseAddr uartSize,
  .endNode,
  .endNode,
  beginNode "chosen",
  .prop (.propStr (.literal "bootargs") cmdLine)] ++
  kernelCalls kernelStart kernelSize ++ [
  propStr "stdout-path" "/soc/uart@10000000",
  .endNode,
  .endNode]

/-- `riscv_build_fdt`; `tab` and `stringTable` are what its allocations will hold. The blob also
goes to a file of the host, which can be opened or not. -/
def riscvBuildFdt (fileOpens : Bool) (s : State) (ramSize : Word) (dst : HostPtr)
    (kernelStart kernelSize : Quadword) (cmdLine : CString) (tab stringTable : Nat → Byte) :
    Except Stop (Int × State) := do
  let fdt ← (riscvFdtCalls ramSize kernelStart kernelSize cmdLine).foldlM runCall
    (fdtInit tab stringTable)
  match dst.base with
  | none => throw .nullPointer
  | some buffer =>
    let (size, out) ← fdtOutput fdt fun i => s.ram buffer (dst.offset + i)
    if dst.offset + size ≤ s.bufferSize buffer then
      -- `fwrite` does not look whether `fopen` has returned NULL
      if fileOpens then
        pure (size, withBuffer s buffer fun i =>
          if dst.offset ≤ i then out (i - dst.offset) else s.ram buffer i)
      else throw .nullPointer
    else throw .outOfBounds

def riscvTokens (kernelStart kernelSize : Quadword) : List (Token Bytes Property) :=
  (riscvFdtCalls vmMemorySize kernelStart kernelSize linuxCmdline).map FdtCall.token

theorem kernelCalls_outline (kernelStart kernelSize : Quadword) :
    (kernelCalls kernelStart kernelSize).map (fun call => outline call.token) =
      (kernelCalls 0 (if kernelSize > 0 then 1 else 0)).map fun call => outline call.token := by
  unfold kernelCalls
  split
  next present => rfl
  next absent => rfl

theorem riscvTokens_outline (kernelStart kernelSize : Quadword) :
    (riscvTokens kernelStart kernelSize).map outline =
      (riscvTokens 0 (if kernelSize > 0 then 1 else 0)).map outline := by
  have kernel := kernelCalls_outline kernelStart kernelSize
  simp only [riscvTokens,riscvFdtCalls,List.map_append,List.map_map,Function.comp_def,kernel]

theorem riscvTokens_size (kernelStart kernelSize : Quadword) :
    flatSize (learnAll [] (riscvTokens kernelStart kernelSize))
      (riscvTokens kernelStart kernelSize) ≤ 2048 := by
  rw [flatSize_outline (riscvTokens_outline kernelStart kernelSize)]
  split
  · decide +kernel
  · decide +kernel

/-- Where 2 KiB are left and the file can be opened, the flattened tree is put there and nothing else changes. -/
theorem riscvBuildFdt_returns {s : State} {buffer offset : Nat}
    (room : offset + 2048 ≤ s.bufferSize buffer)
    (kernelStart kernelSize : Quadword) (tab stringTable : Nat → Byte) :
    ∃ (size : Nat) (bytes : Nat → Byte),
      riscvBuildFdt true s vmMemorySize ⟨some buffer,offset⟩ kernelStart kernelSize linuxCmdline tab
        stringTable = .ok (size, withBuffer s buffer bytes) ∧ size ≤ 2048 ∧
      Holds bytes offset (flatten (learnAll [] (riscvTokens kernelStart kernelSize))
        (riscvTokens kernelStart kernelSize)) ∧
      ∀ i, i < offset ∨ offset + size ≤ i → bytes i = s.ram buffer i := by
  have small := riscvTokens_size kernelStart kernelSize
  generalize same : riscvTokens kernelStart kernelSize = tokens at small
  have output := (fdtCalls_output _ tab stringTable (fun i => s.ram buffer (offset + i)) same
    (by omega)).1
  have holds := outputCopies_holds (learnAll [] tokens) tokens fun i => s.ram buffer (offset + i)
  have behind (i : Nat) (outside : flatSize (learnAll [] tokens) tokens ≤ i) :=
    outputCopies_outside (fun i => s.ram buffer (offset + i)) outside
  generalize overlayAll _ (outputCopies (learnAll [] tokens) tokens) = out at output holds behind
  generalize flatSize (learnAll [] tokens) tokens = size at output behind small
  refine ⟨size, fun i => if offset ≤ i then out (i - offset) else s.ram buffer i, ?_, small, ?_, ?_⟩
  · obtain ⟨fdt,built,rest⟩ := bind_eq_ok.mp output
    have inside : ((offset : Nat) : Int) + (size : Int) ≤ (s.bufferSize buffer : Int) := by omega
    simp only [riscvBuildFdt,built,ok_bind,rest]
    exact if_pos inside
  · intro i bound
    simpa using holds i bound
  · intro i outside
    by_cases below : offset ≤ i
    · have later : size ≤ i - offset := by omega
      simp [below,behind _ later]
    · simp [below]

end Emuriscv
