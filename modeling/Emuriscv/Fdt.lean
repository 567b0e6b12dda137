import Emuriscv.State
import Emuriscv.Codec
import Emuriscv.Numeral
import Emuriscv.Segment

/-! The device-tree writer of `fdt.c`. An allocation is a memory with a size; `realloc`
keeps what it holds and never fails. Arithmetic on `int` wraps. -/
namespace Emuriscv

open Codec Segment

/-- The conversion to `int`. -/
def int (v : Int) : Int := v.bmod (2 ^ 32)

/-- A string argument: the characters before its terminating NUL. -/
structure CString where
  chars : List Byte
  nulFree : 0 ∉ chars
  deriving DecidableEq

/-- The `strlen + 1` bytes of a string. -/
def CString.bytes (s : CString) : List Byte := s.chars ++ [0]

structure FdtState where
  tab : Nat → Byte
  tabLen : Int
  tabSize : Int
  openNodeCount : Int
  stringTable : Nat → Byte
  stringTableLen : Int
  stringTableSize : Int

def fdtMagic : Word := 0xd00dfeed
def fdtVersion : Word := 17
def fdtBeginNodeTag : Word := 1
def fdtEndNodeTag : Word := 2
def fdtPropTag : Word := 3
def fdtEndTag : Word := 9
def fdtHeaderSize : Int := 40
def fdtReserveEntrySize : Int := 16

/-- `tab` and `stringTable` are what the allocations will hold before they are written to. -/
def fdtInit (tab stringTable : Nat → Byte) : FdtState := ⟨tab,0,0,0,stringTable,0,0⟩

def maxInt (a b : Int) : Int := if a > b then a else b

def fdtAllocLen (s : FdtState) (len : Int) : FdtState :=
  if len > s.tabSize then { s with tabSize := maxInt len ((int (s.tabSize * 3)).tdiv 2) } else s

def bswap32 (v : Word) : Word :=
  ((v &&& 0xff000000) >>> 24) ||| ((v &&& 0x00ff0000) >>> 8) ||| ((v &&& 0x0000ff00) <<< 8) |||
    ((v &&& 0x000000ff) <<< 24)

/-- `cpu_to_be32` of a word, in the bytes of a little-endian host. -/
def hostBytes (v : Word) : List Byte := little (bswap32 v)

/-- `memcpy` to an offset of an allocation of `size` bytes. -/
def copyInto (m : Nat → Byte) (size offset : Int) (data : List Byte) : Except Stop (Nat → Byte) :=
  if 0 ≤ offset ∧ offset + data.length ≤ size then pure (overlay m offset.toNat data)
  else throw .outOfBounds

def fdtPut32 (s : FdtState) (v : Word) : Except Stop FdtState := do
  let s := fdtAllocLen s (int (s.tabLen + 1))
  let tab ← copyInto s.tab (4 * s.tabSize) (4 * s.tabLen) (hostBytes v)
  pure { s with tab, tabLen := int (s.tabLen + 1) }

/-- `len` is the length of `data`. -/
def fdtPutData (s : FdtState) (data : List Byte) : Except Stop FdtState := do
  let len : Int := data.length
  let len1 := (int (len + 3)).tdiv 4
  let s := fdtAllocLen s (int (s.tabLen + len1))
  let tab ← copyInto s.tab (4 * s.tabSize) (4 * s.tabLen) data
  let tab ← copyInto tab (4 * s.tabSize) (4 * s.tabLen + len) (List.replicate (-len % 4).toNat 0)
  pure { s with tab, tabLen := int (s.tabLen + len1) }

def fdtBeginNode (s : FdtState) (name : CString) : Except Stop FdtState := do
  let s ← fdtPut32 s fdtBeginNodeTag
  let s ← fdtPutData s name.bytes
  pure { s with openNodeCount := int (s.openNodeCount + 1) }

/-- `%PRIx64` -/
def hexChars (n : Quadword) : List Byte :=
  (Numeral.write 16 n.toNat).map fun c => BitVec.ofNat 8 c.toNat

theorem hexChars_nulFree (n : Quadword) : 0 ∉ hexChars n := by
  intro member
  obtain ⟨c,here,zero⟩ := List.mem_map.mp member
  have legible := Numeral.write_digits (show 1 < 16 by decide) (by decide) n.toNat c here
  have ascii := Numeral.digit_ascii legible
  have zero : c.toNat % 256 = 0 := by simpa using congrArg BitVec.toNat zero
  omega

/-- `snprintf(buf, 256, "%s@%" PRIx64, name, n)` -/
def numberedName (name : CString) (n : Quadword) : CString where
  chars := (name.chars ++ 0x40 :: hexChars n).take 255
  nulFree := by
    intro member
    have whole := List.mem_of_mem_take member
    have letters := name.nulFree
    have digits := hexChars_nulFree n
    simp_all

def fdtBeginNodeNum (s : FdtState) (name : CString) (n : Quadword) : Except Stop FdtState :=
  fdtBeginNode s (numberedName name n)

def fdtEndNode (s : FdtState) : Except Stop FdtState := do
  let s ← fdtPut32 s fdtEndNodeTag
  pure { s with openNodeCount := int (s.openNodeCount - 1) }

/-- The characters from `pos` to the next NUL, of which `room` are allocated. -/
def cString (m : Nat → Byte) : (room pos : Nat) → Except Stop (List Byte)
  | 0, _ => throw .outOfBounds
  | room + 1, pos =>
    if m pos = 0 then pure []
    else do
      let rest ← cString m room (pos + 1)
      pure (m pos :: rest)

/-- The loop of `fdt_get_string_offset`. -/
def findString (s : FdtState) (name : CString) : Nat → Int → Except Stop (Option Int)
  | 0, _ => throw .diverges
  | fuel + 1, pos =>
    if pos < s.stringTableLen then do
      let here ← cString s.stringTable (s.stringTableSize - pos).toNat pos.toNat
      if here = name.chars then pure (some pos)
      else findString s name fuel (int (pos + (here.length + 1)))
    else pure none

def fdtGetStringOffset (s : FdtState) (name : CString) : Except Stop (Int × FdtState) := do
  match ← findString s name (s.stringTableLen.toNat + 1) 0 with
  | some pos => pure (pos,s)
  | none =>
    let nameSize := int (name.chars.length + 1)
    let newLen := int (s.stringTableLen + nameSize)
    let newSize :=
      if newLen > s.stringTableSize then maxInt newLen ((int (s.stringTableSize * 3)).tdiv 2)
      else s.stringTableSize
    let pos := s.stringTableLen
    let stringTable ← copyInto s.stringTable newSize pos name.bytes
    pure (pos,{ s with stringTable, stringTableLen := newLen, stringTableSize := newSize })

def fdtProp (s : FdtState) (propName : CString) (data : List Byte) : Except Stop FdtState := do
  let s ← fdtPut32 s fdtPropTag
  let s ← fdtPut32 s (.ofInt 32 data.length)
  let (offset,s) ← fdtGetStringOffset s propName
  let s ← fdtPut32 s (.ofInt 32 offset)
  fdtPutData s data

def fdtPropTabU32 (s : FdtState) (propName : CString) (tab : List Word) : Except Stop FdtState := do
  let s ← fdtPut32 s fdtPropTag
  let s ← fdtPut32 s (.ofInt 32 (tab.length * 4))
  let (offset,s) ← fdtGetStringOffset s propName
  let s ← fdtPut32 s (.ofInt 32 offset)
  tab.foldlM fdtPut32 s

def fdtPropU32 (s : FdtState) (propName : CString) (val : Word) : Except Stop FdtState :=
  fdtPropTabU32 s propName [val]

def fdtPropTabU64 (s : FdtState) (propName : CString) (v0 : Quadword) : Except Stop FdtState :=
  fdtPropTabU32 s propName [(v0 >>> 32).setWidth 32, v0.setWidth 32]

def fdtPropTabU64_2 (s : FdtState) (propName : CString) (v0 v1 : Quadword) : Except Stop FdtState :=
  fdtPropTabU32 s propName
    [(v0 >>> 32).setWidth 32, v0.setWidth 32, (v1 >>> 32).setWidth 32, v1.setWidth 32]

def fdtPropStr (s : FdtState) (propName str : CString) : Except Stop FdtState :=
  fdtProp s propName str.bytes

/-- The strings before the terminating NULL are copied one behind the other. -/
def fdtPropTabStr (s : FdtState) (propName : CString) (strs : List CString) : Except Stop FdtState :=
  fdtProp s propName (strs.foldl (fun tab ptr => tab ++ ptr.bytes) [])

/-- `while ((pos & 7) != 0) dst[pos++] = 0;` -/
def alignDst : Nat → (Nat → Byte) → Int → Except Stop ((Nat → Byte) × Int)
  | 0, _, _ => throw .diverges
  | fuel + 1, dst, pos =>
    if pos % 8 ≠ 0 then alignDst fuel (overlay dst pos.toNat [0]) (int (pos + 1))
    else pure (dst,pos)

/-- `size` bytes of an allocation, the source of a `memcpy`. -/
def copyFrom (m : Nat → Byte) (allocated size : Int) : Except Stop (List Byte) :=
  if size ≤ allocated then pure (slice m 0 size.toNat) else throw .outOfBounds

/-- `dst` has room for the blob; the result is the returned size and what `dst` then holds. -/
def fdtOutput (s : FdtState) (dst : Nat → Byte) : Except Stop (Int × (Nat → Byte)) := do
  let s ← fdtPut32 s fdtEndTag
  let dtStructSize := int (s.tabLen * 4)
  let dtStringsSize := s.stringTableLen
  let dst := overlay dst 0 (hostBytes fdtMagic)
  let dst := overlay dst 20 (hostBytes fdtVersion)
  let dst := overlay dst 24 (hostBytes 16)
  let dst := overlay dst 28 (hostBytes 0)
  let dst := overlay dst 32 (hostBytes (.ofInt 32 dtStringsSize))
  let dst := overlay dst 36 (hostBytes (.ofInt 32 dtStructSize))
  let pos := fdtHeaderSize
  let dst := overlay dst 8 (hostBytes (.ofInt 32 pos))
  let dtStruct ← copyFrom s.tab (4 * s.tabSize) dtStructSize
  let dst := overlay dst pos.toNat dtStruct
  let pos := int (pos + dtStructSize)
  let (dst,pos) ← alignDst 8 dst pos
  let dst := overlay dst 16 (hostBytes (.ofInt 32 pos))
  let dst := overlay dst pos.toNat (List.replicate 8 0)
  let dst := overlay dst (pos.toNat + 8) (List.replicate 8 0)
  let pos := int (pos + fdtReserveEntrySize)
  let dst := overlay dst 12 (hostBytes (.ofInt 32 pos))
  let dtStrings ← copyFrom s.stringTable s.stringTableSize dtStringsSize
  let dst := overlay dst pos.toNat dtStrings
  let pos := int (pos + dtStringsSize)
  let (dst,pos) ← alignDst 8 dst pos
  let dst := overlay dst 4 (hostBytes (.ofInt 32 pos))
  pure (pos,dst)

end Emuriscv
