import Emuriscv.BootTree

/-! What the blob of `riscv_build_fdt` says to whoever parses it: one tree, whose regions and
whose console are those of the machine. -/
namespace DeviceTree

def ascii (text : String) : Bytes := text.toList.map fun c => BitVec.ofNat 8 c.toNat

def propertyOf (name : String) (props : List Property) : Option Bytes :=
  (props.find? fun p => p.name == ascii name).map Property.value

/-- A big-endian number. -/
def number (value : Bytes) : Nat := value.foldl (fun n byte => 256 * n + byte.toNat) 0

/-- Addresses and sizes take as many cells as the node above says; two and one where it says
nothing. -/
def cells (name : String) (otherwise : Nat) (props : List Property) : Nat :=
  ((propertyOf name props).map number).getD otherwise

structure Region where
  base : Nat
  size : Nat
  deriving DecidableEq, Repr

/-- The first region of a `reg` property. -/
def regionOf (addressCells sizeCells : Nat) (value : Bytes) : Region :=
  ⟨number (value.take (4 * addressCells)),
    number ((value.drop (4 * addressCells)).take (4 * sizeCells))⟩

/-- The regions of all nodes that have one, with their names. -/
def Forest.regions (addressCells sizeCells : Nat) : Forest Bytes Property → List (Bytes × Region)
  | .nil => []
  | .node name props below next =>
    ((propertyOf "reg" props).map fun value =>
      (name, regionOf addressCells sizeCells value)).toList ++
    (below.regions (cells "#address-cells" 2 props) (cells "#size-cells" 1 props) ++
      next.regions addressCells sizeCells)

def Tree.regions (tree : Tree Bytes Property) : List (Bytes × Region) :=
  tree.below.regions (cells "#address-cells" 2 tree.props) (cells "#size-cells" 1 tree.props)

/-- The properties of the node that a path leads to. -/
def Forest.follow : Forest Bytes Property → List Bytes → Option (List Property)
  | .nil, _ => none
  | .node _ _ _ _, [] => none
  | .node name props below next, step :: path =>
    if name = step then if path = [] then some props else below.follow path
    else next.follow (step :: path)

/-- The steps of a path that starts with a slash and ends with a NUL. -/
def steps (path : Bytes) : List Bytes := ((path.takeWhile (· ≠ 0)).splitOn 0x2f).tail

/-- The node that `stdout-path` of `/chosen` names. -/
def Tree.console (tree : Tree Bytes Property) : Option (List Property) := do
  let chosen ← tree.below.follow [ascii "chosen"]
  let path ← propertyOf "stdout-path" chosen
  tree.below.follow (steps path)

end DeviceTree

namespace Emuriscv

open Codec Segment DeviceTree

def propertyWords (name : String) (values : List Word) : Property := ⟨ascii name, values.flatMap big⟩

def propertyText (name value : String) : Property := ⟨ascii name, ascii value ++ [0]⟩

def quadwordCells (value : Quadword) : List Word := [value.extractLsb' 32 32, value.extractLsb' 0 32]

def machineCpus : List Property × Forest Bytes Property :=
  ([propertyWords "#address-cells" [1], propertyWords "#size-cells" [0],
      propertyWords "timebase-frequency" [10000000]],
    .node (ascii "cpu@0")
      [propertyText "device_type" "cpu", propertyWords "reg" [0], propertyText "status" "okay",
        propertyText "compatible" "riscv", propertyText "riscv,isa" "rv32i",
        propertyText "mmu-type" "riscv,sv32", propertyWords "clock-frequency" [10000000]]
      (.node (ascii "interrupt-controller")
        [propertyWords "#interrupt-cells" [1], ⟨ascii "interrupt-controller",[]⟩,
          propertyText "compatible" "riscv,cpu-intc", propertyWords "phandle" [1]] .nil .nil) .nil)

def machineSoc : List Property × Forest Bytes Property :=
  ([propertyWords "#address-cells" [2], propertyWords "#size-cells" [2],
      ⟨ascii "compatible", ascii "ucbbar,riscvemu-bar-soc" ++ 0 :: ascii "simple-bus" ++ [0]⟩,
      ⟨ascii "ranges",[]⟩],
    .node (ascii "clint@2000000")
      [propertyText "compatible" "riscv,clint0", propertyWords "interrupts-extended" [1,3,1,7],
        propertyWords "reg" [0,clintBaseAddr,0,clintSize]] .nil
    (.node (ascii "uart@10000000")
      [propertyText "compatible" "sifive,uart0",
        propertyWords "reg" [0,uartBaseAddr,0,uartSize]] .nil .nil))

def kernelProperties (kernelStart kernelSize : Quadword) : List Property :=
  if kernelSize > 0 then
    [propertyWords "riscv,kernel-start" (quadwordCells kernelStart),
      propertyWords "riscv,kernel-end" (quadwordCells (kernelStart + kernelSize))]
  else []

def machineTree (kernelStart kernelSize : Quadword) : Tree Bytes Property where
  name := []
  props := [propertyWords "#address-cells" [2], propertyWords "#size-cells" [2],
    propertyText "compatible" "ucbbar,riscvemu-bar", propertyText "model" "emuriscv,emuriscv"]
  below :=
    .node (ascii "cpus") machineCpus.1 machineCpus.2
    (.node (ascii "memory@80000000")
      [propertyText "device_type" "memory", propertyWords "reg" [0,ramBaseAddr,0,vmMemorySize]] .nil
    (.node (ascii "soc") machineSoc.1 machineSoc.2
    (.node (ascii "chosen")
      (propertyText "bootargs" "debug keep_bootcon bootmem_debug earlycon=sbi" ::
        (kernelProperties kernelStart kernelSize ++ [propertyText "stdout-path" "/soc/uart@10000000"]))
      .nil .nil)))

theorem kernelCalls_token (kernelStart kernelSize : Quadword) :
    (kernelCalls kernelStart kernelSize).map FdtCall.token =
      (kernelProperties kernelStart kernelSize).map Token.prop := by
  unfold kernelCalls kernelProperties
  split
  next present => rfl
  next absent => rfl

theorem riscvTokens_eq (kernelStart kernelSize : Quadword) :
    riscvTokens kernelStart kernelSize = (machineTree kernelStart kernelSize).tokens := by
  unfold riscvTokens riscvFdtCalls
  rw [List.map_append,List.map_append,kernelCalls_token]
  simp only [machineTree,Tree.tokens,Forest.tokens,machineCpus,machineSoc]
  generalize (kernelProperties kernelStart kernelSize) = props
  simp only [List.map_cons,List.map_append,List.cons_append,List.append_assoc,List.nil_append,List.map_nil]
  rfl

/-- The blob of `riscv_build_fdt` is read as the tree. -/
theorem parse_riscvTokens (kernelStart kernelSize : Quadword) :
    parse (flatten (learnAll [] (riscvTokens kernelStart kernelSize))
      (riscvTokens kernelStart kernelSize)) = some (machineTree kernelStart kernelSize) := by
  have small := riscvTokens_size kernelStart kernelSize
  obtain ⟨_,encodable⟩ := fdtCalls_output
    (riscvFdtCalls vmMemorySize kernelStart kernelSize linuxCmdline) (fun _ => 0) (fun _ => 0)
    (fun _ => 0) (show _ = riscvTokens kernelStart kernelSize from rfl) (by omega)
  rw [parse_flatten (by omega) encodable,riscvTokens_eq,readTree_tokens]

/-- The ranges that the map has, for a reader of the tree. -/
def rangesOf (map : MemoryMap) : List Region :=
  map.map fun range => ⟨range.address.toNat,range.size.toNat⟩

/-- The regions of a tree are ranges of the machine, but for that of the hart, which has its number
for an address and no size. The console is the UART. -/
structure Describes (map : MemoryMap) (tree : Tree Bytes Property) : Prop where
  regions : ∀ region ∈ tree.regions, region.2.size ≠ 0 → region.2 ∈ rangesOf map
  console : ∃ props, tree.console = some props ∧
    (propertyOf "reg" props).map (regionOf 2 2) = some ⟨uartBaseAddr.toNat,uartSize.toNat⟩

theorem machineTree_describes (kernelStart kernelSize : Quadword) :
    Describes linuxMemoryMap (machineTree kernelStart kernelSize) := by
  have regions : (machineTree kernelStart kernelSize).regions = (machineTree 0 0).regions := by
    unfold machineTree kernelProperties
    split
    next present => rfl
    next absent => rfl
  constructor
  · rw [regions]
    decide +kernel
  · unfold machineTree kernelProperties
    split
    next present => exact ⟨_, rfl, by decide⟩
    next absent => exact ⟨_, rfl, by decide⟩

end Emuriscv
