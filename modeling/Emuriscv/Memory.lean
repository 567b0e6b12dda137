import Emuriscv.Device

/-! Guest memory of `memory.c`: physical lookup, the Sv32 walker with its accessed and
dirty update, and the sized accesses the instruction handlers call. A status is the C
return code, and a local variable that no path assigned is `none`. -/
namespace Emuriscv

def sizeByte : Nat := 0
def sizeHalf : Nat := 1
def sizeWord : Nat := 2

def satpModeBare : Word := 0
def satpModeSv32 : Word := 1
def pteAddressBits : Nat := 22
def pageShift : Nat := 12

def translateOk : Int := 0
def pageFault : Int := -1

def pteVMask : Word := (1 : Word) <<< 0
def pageAccessed : Word := (1 : Word) <<< 6
def pageDirty : Word := (1 : Word) <<< 7
def pteW : Word := 2
def pteXw : Word := 6

inductive AccessType where
  | load
  | store
  | fetch
  deriving DecidableEq, Repr

/-- A pointer into `phys_mem_range`: the position and the descriptor stored there. -/
structure RangePtr where
  index : Nat
  entry : MemoryRange
  deriving DecidableEq, Repr

def RangePtr.physMemPtr (range : RangePtr) : Option Nat :=
  if range.entry.isRam then some range.index else none

/-- The loop of `get_phys_mem_range` from entry `i` on; both the sum and the comparison
are in 32-bit arithmetic. -/
def getPhysMemRangeFrom (paddr : Word) (i : Nat) : List MemoryRange → Option RangePtr
  | [] => none
  | range :: rest =>
    if range.address ≤ paddr ∧ paddr < range.address + range.size then some ⟨i,range⟩
    else getPhysMemRangeFrom paddr (i + 1) rest

def getPhysMemRange (map : MemoryMap) (paddr : Word) : Option RangePtr :=
  getPhysMemRangeFrom paddr 0 map

structure MemoryTarget where
  range : Option RangePtr
  ptr : Option HostPtr
  deriving DecidableEq, Repr

/-- The pointer field, read although nothing may have been stored in it. -/
def MemoryTarget.pointer (target : MemoryTarget) : Except Stop HostPtr :=
  match target.ptr with
  | none => throw .uninitialized
  | some ptr => pure ptr

def getMemoryTargetPhysical (s : State) (physicalAddress : Word) : Int × MemoryTarget :=
  match getPhysMemRange s.memoryMap physicalAddress with
  | none => (-2, ⟨none,none⟩)
  | some range =>
    let rangeOffset := physicalAddress - range.entry.address
    (translateOk, ⟨some range, some ⟨range.physMemPtr, rangeOffset.toNat⟩⟩)

def readCommonRam (s : State) (target : HostPtr) (sizeLog2 : Nat) : Except Stop Word :=
  match sizeLog2 with
  | 2 => do
    let b0 ← s.load target 0
    let b1 ← s.load target 1
    let b2 ← s.load target 2
    let b3 ← s.load target 3
    pure (b0.setWidth 32 ||| b1.setWidth 32 <<< 8 ||| b2.setWidth 32 <<< 16 |||
      b3.setWidth 32 <<< 24)
  | 1 => do
    let b0 ← s.load target 0
    let b1 ← s.load target 1
    pure (b0.setWidth 32 ||| b1.setWidth 32 <<< 8)
  | 0 => do
    let b0 ← s.load target 0
    pure (b0.setWidth 32)
  | _ => throw (.exit exitUnsupportedReadSize)

/-- The switch falls through: a wider size stores its upper bytes and then the narrower ones. -/
def writeCommonRam (s : State) (target : HostPtr) (value : Word) (sizeLog2 : Nat) :
    Except Stop State :=
  let byteCase (s : State) := s.store target 0 ((value &&& 0xff).setWidth 8)
  let halfCase (s : State) := do
    let s ← s.store target 1 (((value &&& 0xff00) >>> 8).setWidth 8)
    byteCase s
  let wordCase (s : State) := do
    let s ← s.store target 3 (((value &&& 0xff000000) >>> 24).setWidth 8)
    let s ← s.store target 2 (((value &&& 0xff0000) >>> 16).setWidth 8)
    halfCase s
  match sizeLog2 with
  | 2 => wordCase s
  | 1 => halfCase s
  | 0 => byteCase s
  | _ => throw (.exit exitUnsupportedWriteSize)

def readWordPhysical (s : State) (physicalAddress : Word) : Except Stop Word := do
  let (_, target) := getMemoryTargetPhysical s physicalAddress
  let ptr ← target.pointer
  readCommonRam s ptr sizeWord

def writeWordPhysical (s : State) (physicalAddress value : Word) : Except Stop State := do
  let (_, target) := getMemoryTargetPhysical s physicalAddress
  let ptr ← target.pointer
  writeCommonRam s ptr value sizeWord

def getMemoryMode (s : State) : Word := readCsr s csrSatp >>> 31

/-- Outcome of `translate_address`: return code, `*physical_address`, and the state in
which page-table flags may have been set. -/
structure Translation where
  result : Int
  physicalAddress : Option Word
  state : State

def accessedOrDirtyFlags (accessType : AccessType) : Word :=
  pageAccessed ||| (if accessType = .store then pageDirty else 0)

/-- The level loop of `translate_address` with `levels - i` iterations left. -/
def translateLevels (s : State) (virtualAddress : Word) (accessType : AccessType) :
    Nat → Word → Except Stop Translation
  -- the loop ends without a return and *physical_address was never assigned
  | 0, _ => pure ⟨translateOk,none,s⟩
  | left + 1, pteAddr => do
    let vaddrShift := pageShift + 10 * left
    let pteIdx := (virtualAddress >>> vaddrShift) &&& 0x3ff
    let pteAddr := pteAddr + pteIdx <<< 2
    let pte ← readWordPhysical s pteAddr
    if pte &&& pteVMask = 0 then pure ⟨pageFault,none,s⟩
    else
      let paddr := (pte >>> 10) <<< pageShift
      let xwr := (pte >>> 1) &&& 7
      if xwr = 0 then translateLevels s virtualAddress accessType left paddr
      else if xwr = pteW ∨ xwr = pteXw then pure ⟨pageFault,none,s⟩
      else
        let flags := accessedOrDirtyFlags accessType
        let s ← if pte &&& flags ≠ flags then writeWordPhysical s pteAddr (pte ||| flags) else pure s
        let vaddrMask : Word := ((1 : Word) <<< vaddrShift) - 1
        pure ⟨translateOk, some ((virtualAddress &&& vaddrMask) ||| (paddr &&& ~~~vaddrMask)), s⟩

/-- `(satp & ((1 << PTE_ADDRESS_BITS) - 1)) << PAGE_SHIFT`, the first value of `pte_addr`. -/
def rootAddress (s : State) : Word :=
  (readCsr s csrSatp &&& (((1 : Word) <<< pteAddressBits) - 1)) <<< pageShift

def translateAddress (s : State) (virtualAddress : Word) (accessType : AccessType) :
    Except Stop Translation :=
  if s.privilege = privM then pure ⟨translateOk, some virtualAddress, s⟩
  else if getMemoryMode s = satpModeBare then pure ⟨translateOk, some virtualAddress, s⟩
  else if getMemoryMode s = satpModeSv32 then
    translateLevels s virtualAddress accessType 2 (rootAddress s)
  else throw (.exit exitInvalidSatpMode)

structure Lookup where
  status : Int
  target : MemoryTarget
  state : State

def pageFaultCause : AccessType → Word
  | .load => causeLoadPageFault
  | .store => causeStorePageFault
  | .fetch => causeFetchPageFault

def getMemoryTarget (s : State) (virtualAddress : Word) (accessType : AccessType) :
    Except Stop Lookup := do
  let t ← translateAddress s virtualAddress accessType
  if t.result = pageFault then
    pure ⟨t.result, ⟨none,none⟩, { t.state with
      pendingException := pageFaultCause accessType
      pendingTval := virtualAddress
      hasPendingException := true }⟩
  else
    match t.physicalAddress with
    | none => throw .uninitialized
    | some physicalAddress =>
      let (status, target) := getMemoryTargetPhysical t.state physicalAddress
      pure ⟨status,target,t.state⟩

/-- Only `PAGE_FAULT` leaves early; for any other status the range is dereferenced. -/
def writeCommon [Platform] (s : State) (address value : Word) (sizeLog2 : Nat) :
    Except Stop State := do
  let l ← getMemoryTarget s address .store
  if l.status = pageFault then pure l.state
  else
    match l.target.range with
    | none => throw .nullRange
    | some range =>
      let ptr ← l.target.pointer
      if range.entry.isRam then writeCommonRam l.state ptr value sizeLog2
      else callWrite range.entry.writeFunc l.state (BitVec.ofNat 32 ptr.offset) value

def writeWord [Platform] (s : State) (address value : Word) : Except Stop State :=
  writeCommon s address value sizeWord

def writeHalfword [Platform] (s : State) (address : Word) (value : Halfword) : Except Stop State :=
  writeCommon s address (value.setWidth 32) sizeHalf

def writeByte [Platform] (s : State) (address : Word) (value : Byte) : Except Stop State :=
  writeCommon s address (value.setWidth 32) sizeByte

def readCommon (s : State) (address : Word) (sizeLog2 : Nat) : Except Stop (Word × State) := do
  let l ← getMemoryTarget s address .load
  if l.status = pageFault then pure (BitVec.ofInt 32 pageFault, l.state)
  else
    match l.target.range with
    | none => throw .nullRange
    | some range =>
      let ptr ← l.target.pointer
      let value ← if range.entry.isRam then readCommonRam l.state ptr sizeLog2
        else callRead range.entry.readFunc l.state (BitVec.ofNat 32 ptr.offset)
      pure (value, l.state)

def readWord (s : State) (address : Word) : Except Stop (Word × State) :=
  readCommon s address sizeWord

def readHalfwordSigned (s : State) (address : Word) : Except Stop (Word × State) := do
  let (value, s) ← readCommon s address sizeHalf
  pure (if value &&& 0x8000 = 0x8000 then value ||| 0xffff0000 else value, s)

def readHalfwordUnsigned (s : State) (address : Word) : Except Stop (Word × State) :=
  readCommon s address sizeHalf

def readByteSigned (s : State) (address : Word) : Except Stop (Word × State) := do
  let (value, s) ← readCommon s address sizeByte
  pure (if value &&& 0x80 = 0x80 then value ||| 0xffffff00 else value, s)

def readByteUnsigned (s : State) (address : Word) : Except Stop (Word × State) :=
  readCommon s address sizeByte

end Emuriscv
