import Emuriscv.Access
import Emuriscv.BitField
import Emuriscv.FlatMemory

/-! Guest memory without translation. On separate ranges, the sized accesses of `memory.c` are
the accesses of one flat little-endian memory that is indexed by the physical address. -/
namespace Emuriscv

theorem byteOf_eq (value : Word) (k : Nat) :
    byteOf value k = BitVec.ofNat 8 (value.toNat / 256 ^ k) := by
  apply BitVec.eq_of_toNat_eq
  have power : 256 ^ k = 2 ^ (8 * k) := (Nat.pow_mul 2 8 k).symm
  simp [byteOf,power,Nat.shiftRight_eq_div_pow]

/-- The bytes that are read, as the code puts them together. -/
theorem assembled_toNat (low : Word) (byte : Byte) (n : Nat) (small : low.toNat < 2 ^ n)
    (fits : n + 8 ≤ 32) : (low ||| byte.setWidth 32 <<< n).toNat = low.toNat + 2 ^ n * byte.toNat := by
  have bound : byte.toNat * 2 ^ n < 2 ^ 32 := by
    calc byte.toNat * 2 ^ n < 2 ^ 8 * 2 ^ n := Nat.mul_lt_mul_of_pos_right byte.isLt (Nat.two_pow_pos n)
      _ = 2 ^ (8 + n) := (Nat.pow_add 2 8 n).symm
      _ ≤ 2 ^ 32 := Nat.pow_le_pow_right (by decide) (by omega)
  have shifted : (byte.setWidth 32 <<< n).toNat = 2 ^ n * byte.toNat := by
    have whole : byte.toNat < 2 ^ 32 := Nat.lt_trans byte.isLt (by decide)
    rw [BitVec.toNat_shiftLeft,BitVec.toNat_setWidth,Nat.mod_eq_of_lt whole,Nat.shiftLeft_eq,
      Nat.mod_eq_of_lt bound,Nat.mul_comm]
  rw [BitVec.toNat_or,shifted,Nat.or_comm,← Nat.two_pow_add_eq_or_of_lt small,Nat.add_comm]

theorem widened_toNat (byte : Byte) : (byte.setWidth 32).toNat = byte.toNat := by
  rw [BitVec.toNat_setWidth]
  exact Nat.mod_eq_of_lt (Nat.lt_trans byte.isLt (by decide))

/-- A read of `2 ^ sizeLog2` bytes inside a buffer. -/
theorem readCommonRam_flat (s : State) (buffer offset : Nat) {sizeLog2 : Nat} (size : sizeLog2 ≤ 2)
    (inside : offset + 2 ^ sizeLog2 ≤ s.bufferSize buffer) :
    ∃ value : Word, readCommonRam s ⟨some buffer,offset⟩ sizeLog2 = .ok value ∧
      value.toNat = FlatMemory.load (s.ram buffer) offset (2 ^ sizeLog2) := by
  have read (k : Nat) (bound : k < 2 ^ sizeLog2) :
      s.load ⟨some buffer,offset⟩ k = .ok (s.ram buffer (offset + k)) :=
    load_eq s buffer offset k (by omega)
  have byte (k : Nat) := (s.ram buffer (offset + k)).isLt
  have first := widened_toNat (s.ram buffer (offset + 0))
  have second := assembled_toNat ((s.ram buffer (offset + 0)).setWidth 32)
    (s.ram buffer (offset + 1)) 8 (by rw [first]; exact byte 0) (by decide)
  interval_cases sizeLog2
  · refine ⟨_, by simp only [readCommonRam,read 0 (by decide),ok_bind]; rfl, ?_⟩
    simpa [FlatMemory.load] using first
  · refine ⟨_, by simp only [readCommonRam,read 0 (by decide),read 1 (by decide),ok_bind]; rfl, ?_⟩
    rw [second,first]
    simp [FlatMemory.load]
  · have third := assembled_toNat _ (s.ram buffer (offset + 2)) 16
      (by rw [second,first]; have := byte 0; have := byte 1; omega) (by decide)
    have fourth := assembled_toNat _ (s.ram buffer (offset + 3)) 24
      (by rw [third,second,first]; have := byte 0; have := byte 1; have := byte 2; omega) (by decide)
    refine ⟨_, by simp only [readCommonRam,read 0 (by decide),read 1 (by decide),
      read 2 (by decide),read 3 (by decide),ok_bind]; rfl, ?_⟩
    rw [fourth,third,second,first]
    simp only [Nat.reducePow,FlatMemory.load,Nat.add_assoc,Nat.reduceAdd,Nat.add_zero,Nat.mul_zero]
    omega

/-- A buffer with its bytes replaced. -/
def withBuffer (s : State) (buffer : Nat) (bytes : FlatMemory.Memory) : State :=
  { s with ram := Function.update s.ram buffer bytes }

theorem eq_withBuffer {s t : State} {buffer offset width : Nat} {value : Word} (only : RamOnly s t)
    (ram : ∀ i j, t.ram i j = if i = buffer ∧ offset ≤ j ∧ j < offset + width then
      byteOf value (j - offset) else s.ram i j) :
    t = withBuffer s buffer (FlatMemory.store (s.ram buffer) offset width value.toNat) := by
  have same : t.ram = Function.update s.ram buffer
      (FlatMemory.store (s.ram buffer) offset width value.toNat) := by
    funext i j
    rw [ram,Function.update_apply]
    by_cases here : i = buffer
    · simp [here,FlatMemory.store,byteOf_eq]
    · simp [here]
  rw [only,same,withBuffer]

/-- A write of `2 ^ sizeLog2` bytes inside a buffer. -/
theorem writeCommonRam_flat (s : State) (buffer offset : Nat) (value : Word) {sizeLog2 : Nat}
    (size : sizeLog2 ≤ 2) (inside : offset + 2 ^ sizeLog2 ≤ s.bufferSize buffer) :
    writeCommonRam s ⟨some buffer,offset⟩ value sizeLog2 = .ok (withBuffer s buffer
      (FlatMemory.store (s.ram buffer) offset (2 ^ sizeLog2) value.toNat)) := by
  obtain ⟨_,_,b1,b0⟩ := byteOf_masks value
  have store (s' : State) (k : Nat) (byte : Byte) (bound : k < 2 ^ sizeLog2)
      (same : s'.bufferSize buffer = s.bufferSize buffer) :
      s'.store ⟨some buffer,offset⟩ k byte = .ok (putByte s' buffer (offset + k) byte) :=
    store_eq s' buffer offset k byte (by omega)
  interval_cases sizeLog2
  · have written : writeCommonRam s ⟨some buffer,offset⟩ value 0 =
        .ok (putByte s buffer (offset + 0) (byteOf value 0)) := by
      rw [← b0]
      exact store s 0 _ (by decide) rfl
    rw [written]
    refine congrArg Except.ok (eq_withBuffer rfl fun i j => ?_)
    rw [putByte_ram]
    by_cases here : j = offset
    · simp [here]
    · rw [if_neg (by omega),if_neg (by omega)]
  · have written : writeCommonRam s ⟨some buffer,offset⟩ value 1 =
        .ok (putByte (putByte s buffer (offset + 1) (byteOf value 1)) buffer (offset + 0)
          (byteOf value 0)) := by
      rw [← b0,← b1]
      simp only [writeCommonRam]
      rw [store s 1 _ (by decide) rfl,ok_bind,store _ 0 _ (by decide) (by simp)]
    rw [written]
    refine congrArg Except.ok (eq_withBuffer rfl fun i j => ?_)
    rw [putByte_ram,putByte_ram]
    by_cases first : j = offset
    · simp [first]
    · by_cases second : j = offset + 1
      · simp [second]
      · rw [if_neg (by omega),if_neg (by omega),if_neg (by omega)]
  · have written := writeCommonRam_word s ⟨buffer,offset⟩ value (show offset + 3 < s.bufferSize buffer by omega)
    rw [written]
    exact congrArg Except.ok (eq_withBuffer (putWord_eq ..) (putWord_ram s ⟨buffer,offset⟩ value))

/-- The bytes that an access touches lie in one RAM range. -/
def InsideRam (map : MemoryMap) (address : Word) (width : Nat) : Prop :=
  ∃ range ∈ map, range.isRam = true ∧ range.address.toNat ≤ address.toNat ∧
    address.toNat + width ≤ range.address.toNat + range.size.toNat

/-- The byte at a physical address, if a range from entry `i` on has it in RAM. -/
def flatMemoryFrom (ram : Nat → Nat → Byte) (address i : Nat) : List MemoryRange → Byte
  | [] => 0
  | range :: rest =>
    if range.isRam ∧ range.address.toNat ≤ address ∧ address < range.address.toNat + range.size.toNat
    then ram i (address - range.address.toNat)
    else flatMemoryFrom ram address (i + 1) rest

/-- All RAM of a state, indexed by the physical address. -/
def flatMemory (s : State) : FlatMemory.Memory := fun address =>
  flatMemoryFrom s.ram address 0 s.memoryMap

/-- Every RAM byte is the byte of the flat memory at its physical address. -/
def Represents (s : State) (m : FlatMemory.Memory) : Prop :=
  ∀ i range offset, s.memoryMap[i]? = some range → range.isRam = true →
    offset < range.size.toNat → s.ram i offset = m (range.address.toNat + offset)

theorem flatMemoryFrom_at {map : List MemoryRange} (separate : Separate map)
    {k i offset : Nat} {range : MemoryRange} (found : map[k]? = some range)
    (isRam : range.isRam = true) (bound : offset < range.size.toNat) :
    flatMemoryFrom ram (range.address.toNat + offset) i map = ram (i + k) offset := by
  have covers : range.Covers (range.address.toNat + offset) := ⟨by omega, by omega⟩
  induction map generalizing k i with
  | nil => contradiction
  | cons head rest ih =>
    cases k with
    | zero =>
      obtain rfl := Option.some.inj found
      rw [flatMemoryFrom,if_pos ⟨isRam,covers⟩,Nat.add_sub_cancel_left,Nat.add_zero]
    | succ k =>
      have other : ¬head.Covers (range.address.toNat + offset) := fun here =>
        (List.pairwise_cons.mp separate.disjoint).1 range (List.mem_of_getElem? found) _ here covers
      rw [flatMemoryFrom,if_neg fun all => other all.2,ih separate.tail found,Nat.add_right_comm,
        Nat.add_assoc]

theorem flatMemory_represents {s : State} (separate : Separate s.memoryMap) :
    Represents s (flatMemory s) := by
  intro i range offset found isRam bound
  rw [flatMemory,flatMemoryFrom_at separate found isRam bound,Nat.zero_add]

/-- The range that holds an access, its buffer and the offset in it. -/
theorem InsideRam.located {s : State} {address : Word} {width : Nat} (separate : Separate s.memoryMap)
    (inside : InsideRam s.memoryMap address width) (positive : 0 < width) :
    ∃ (i : Nat) (range : MemoryRange) (offset : Nat), s.memoryMap[i]? = some range ∧
      range.isRam = true ∧ address.toNat = range.address.toNat + offset ∧
      offset + width ≤ range.size.toNat ∧ (¬Walks s → ∀ accessType,
        getMemoryTarget s address accessType =
          .ok ⟨translateOk, ⟨some ⟨i,range⟩, some ⟨some i,offset⟩⟩, s⟩) := by
  obtain ⟨range,member,isRam,low,high⟩ := inside
  obtain ⟨i,found⟩ := List.mem_iff_getElem?.mp member
  have covers : range.Covers address.toNat := ⟨low, by omega⟩
  have lookup := getPhysMemRange_of_covers separate found covers
  refine ⟨i, range, address.toNat - range.address.toNat, found, isRam, by omega, by omega, ?_⟩
  intro direct accessType
  rw [getMemoryTarget_covered (translateAddress_direct direct address accessType) rfl lookup,
    RangePtr.physMemPtr,if_pos isRam,BitVec.toNat_sub_of_le low]

theorem readCommon_flat {s : State} {address : Word} {sizeLog2 : Nat} (direct : ¬Walks s)
    (separate : Separate s.memoryMap) (represents : Represents s m) (size : sizeLog2 ≤ 2)
    (inside : InsideRam s.memoryMap address (2 ^ sizeLog2)) :
    ∃ value : Word, readCommon s address sizeLog2 = .ok (value,s) ∧
      value.toNat = FlatMemory.load m address.toNat (2 ^ sizeLog2) := by
  obtain ⟨i,range,offset,found,isRam,place,fits,looked⟩ :=
    inside.located separate (Nat.two_pow_pos sizeLog2)
  have bound : offset + 2 ^ sizeLog2 ≤ s.bufferSize i := by rwa [bufferSize_eq found]
  obtain ⟨value,read,number⟩ := readCommonRam_flat s i offset size bound
  refine ⟨value,?_,?_⟩
  · rw [readCommon,looked direct,ok_bind,if_neg (show translateOk ≠ pageFault by decide)]
    dsimp only [MemoryTarget.pointer]
    rw [pure_eq_ok,ok_bind,if_pos isRam,read]
    rfl
  · rw [number]
    apply FlatMemory.load_congr
    intro k below
    rw [represents i range (offset + k) found isRam (by omega),place,Nat.add_assoc]

/-- A store into one range leaves the bytes of all others, wherever they are, to themselves. -/
theorem withBuffer_represents {s : State} {i offset width : Nat} {range : MemoryRange}
    (separate : Separate s.memoryMap) (represents : Represents s m)
    (found : s.memoryMap[i]? = some range) (fits : offset + width ≤ range.size.toNat) (value : Nat) :
    Represents (withBuffer s i (FlatMemory.store (s.ram i) offset width value))
      (FlatMemory.store m (range.address.toNat + offset) width value) := by
  intro j other o entry isRam bound
  have same := represents j other o entry isRam bound
  change Function.update s.ram i _ j o = _
  by_cases here : j = i
  · subst here
    obtain rfl := Option.some.inj (found.symm.trans entry)
    rw [Function.update_self]
    exact FlatMemory.store_congr value (by omega) same
  · rw [Function.update_of_ne here,FlatMemory.store_outside,same]
    rintro ⟨low,high⟩
    have covers : other.Covers (other.address.toNat + o) := ⟨by omega, by omega⟩
    exact separate.apart entry found here covers ⟨by omega, by omega⟩

theorem writeCommon_flat [Platform] {s : State} {address : Word} {sizeLog2 : Nat} (direct : ¬Walks s)
    (separate : Separate s.memoryMap) (represents : Represents s m) (size : sizeLog2 ≤ 2)
    (inside : InsideRam s.memoryMap address (2 ^ sizeLog2)) (value : Word) :
    ∃ t, writeCommon s address value sizeLog2 = .ok t ∧ RamOnly s t ∧
      Represents t (FlatMemory.store m address.toNat (2 ^ sizeLog2) value.toNat) := by
  obtain ⟨i,range,offset,found,isRam,place,fits,looked⟩ :=
    inside.located separate (Nat.two_pow_pos sizeLog2)
  have bound : offset + 2 ^ sizeLog2 ≤ s.bufferSize i := by rwa [bufferSize_eq found]
  refine ⟨withBuffer s i (FlatMemory.store (s.ram i) offset (2 ^ sizeLog2) value.toNat), ?_, rfl, ?_⟩
  · rw [writeCommon,looked direct,ok_bind,if_neg (show translateOk ≠ pageFault by decide)]
    dsimp only [MemoryTarget.pointer]
    rw [pure_eq_ok,ok_bind,if_pos isRam]
    exact writeCommonRam_flat s i offset value size bound
  · rw [place]
    exact withBuffer_represents separate represents found fits value.toNat

/-- A call of one of the sized accesses. -/
inductive MemoryCall where
  | readWord (address : Word)
  | readHalfwordSigned (address : Word)
  | readHalfwordUnsigned (address : Word)
  | readByteSigned (address : Word)
  | readByteUnsigned (address : Word)
  | writeWord (address value : Word)
  | writeHalfword (address : Word) (value : Halfword)
  | writeByte (address : Word) (value : Byte)
  deriving DecidableEq, Repr

namespace MemoryCall

def address : MemoryCall → Word
  | .readWord a | .readHalfwordSigned a | .readHalfwordUnsigned a | .readByteSigned a
  | .readByteUnsigned a | .writeWord a _ | .writeHalfword a _ | .writeByte a _ => a

/-- The number of bytes. -/
def width : MemoryCall → Nat
  | .readWord _ | .writeWord _ _ => 4
  | .readHalfwordSigned _ | .readHalfwordUnsigned _ | .writeHalfword _ _ => 2
  | .readByteSigned _ | .readByteUnsigned _ | .writeByte _ _ => 1

/-- The call in the program. -/
def run [Platform] (s : State) : MemoryCall → Except Stop (Option Word × State)
  | .readWord a => do let (value, s) ← Emuriscv.readWord s a; pure (some value, s)
  | .readHalfwordSigned a => do
    let (value, s) ← Emuriscv.readHalfwordSigned s a; pure (some value, s)
  | .readHalfwordUnsigned a => do
    let (value, s) ← Emuriscv.readHalfwordUnsigned s a; pure (some value, s)
  | .readByteSigned a => do let (value, s) ← Emuriscv.readByteSigned s a; pure (some value, s)
  | .readByteUnsigned a => do let (value, s) ← Emuriscv.readByteUnsigned s a; pure (some value, s)
  | .writeWord a value => do let s ← Emuriscv.writeWord s a value; pure (none, s)
  | .writeHalfword a value => do let s ← Emuriscv.writeHalfword s a value; pure (none, s)
  | .writeByte a value => do let s ← Emuriscv.writeByte s a value; pure (none, s)

/-- The call on a flat memory. -/
def flat (m : FlatMemory.Memory) : MemoryCall → Option Word × FlatMemory.Memory
  | .readWord a => (some (BitVec.ofNat 32 (FlatMemory.load m a.toNat 4)), m)
  | .readHalfwordSigned a =>
    (some ((BitVec.ofNat 16 (FlatMemory.load m a.toNat 2)).signExtend 32), m)
  | .readHalfwordUnsigned a =>
    (some ((BitVec.ofNat 16 (FlatMemory.load m a.toNat 2)).setWidth 32), m)
  | .readByteSigned a => (some ((BitVec.ofNat 8 (FlatMemory.load m a.toNat 1)).signExtend 32), m)
  | .readByteUnsigned a => (some ((BitVec.ofNat 8 (FlatMemory.load m a.toNat 1)).setWidth 32), m)
  | .writeWord a value => (none, FlatMemory.store m a.toNat 4 value.toNat)
  | .writeHalfword a value => (none, FlatMemory.store m a.toNat 2 value.toNat)
  | .writeByte a value => (none, FlatMemory.store m a.toNat 1 value.toNat)

end MemoryCall

/-- A sequence of calls, with the values that are read. -/
def runCalls [Platform] (s : State) : List MemoryCall → Except Stop (List (Option Word) × State)
  | [] => pure ([], s)
  | call :: rest => do
    let (value, s) ← call.run s
    let (values, s) ← runCalls s rest
    pure (value :: values, s)

def flatCalls (m : FlatMemory.Memory) : List MemoryCall → List (Option Word) × FlatMemory.Memory
  | [] => ([], m)
  | call :: rest =>
    let (value, m) := call.flat m
    let (values, m) := flatCalls m rest
    (value :: values, m)

/-- A number of few bytes as a word. -/
theorem word_of_small {value : Word} {number bits : Nat} (same : value.toNat = number)
    (small : number < 2 ^ bits) (fits : bits ≤ 32) : value = (BitVec.ofNat bits number).setWidth 32 := by
  have wide : 2 ^ bits ≤ 2 ^ 32 := Nat.pow_le_pow_right (by decide) fits
  apply BitVec.eq_of_toNat_eq
  rw [same,BitVec.toNat_setWidth,BitVec.toNat_ofNat,Nat.mod_eq_of_lt small,Nat.mod_eq_of_lt (by omega)]

theorem extendHalfword (half : Halfword) :
    (if half.setWidth 32 &&& 0x8000 = (0x8000 : Word) then half.setWidth 32 ||| 0xffff0000
      else half.setWidth 32) = half.signExtend 32 :=
  BitField.maskExtend_setWidth (by decide) (by decide) half

theorem extendByte (byte : Byte) :
    (if byte.setWidth 32 &&& 0x80 = (0x80 : Word) then byte.setWidth 32 ||| 0xffffff00
      else byte.setWidth 32) = byte.signExtend 32 :=
  BitField.maskExtend_setWidth (by decide) (by decide) byte

theorem load_small (m : FlatMemory.Memory) (address : Nat) {width bits : Nat} (same : bits = 8 * width) :
    FlatMemory.load m address width < 2 ^ bits := by
  rw [same,Nat.pow_mul]
  exact FlatMemory.load_lt m address width

/-- A read, in the three widths that the program uses. -/
theorem readCommon_value {s : State} {address : Word} {sizeLog2 bits : Nat} (direct : ¬Walks s)
    (separate : Separate s.memoryMap) (represents : Represents s m) (size : sizeLog2 ≤ 2)
    (wide : bits = 8 * 2 ^ sizeLog2) (inside : InsideRam s.memoryMap address (2 ^ sizeLog2)) :
    readCommon s address sizeLog2 =
      .ok ((BitVec.ofNat bits (FlatMemory.load m address.toNat (2 ^ sizeLog2))).setWidth 32, s) := by
  obtain ⟨value,read,number⟩ := readCommon_flat direct separate represents size inside
  have fits : bits ≤ 32 := by
    rw [wide]
    exact Nat.mul_le_mul_left 8 (Nat.pow_le_pow_right (by decide) size)
  rw [read,word_of_small number (load_small m address.toNat wide) fits]

/-- One call: the same value, and memories that correspond again. -/
theorem MemoryCall.run_flat [Platform] {s : State} (call : MemoryCall) (direct : ¬Walks s)
    (separate : Separate s.memoryMap) (represents : Represents s m)
    (inside : InsideRam s.memoryMap call.address call.width) :
    ∃ t, call.run s = .ok ((call.flat m).1, t) ∧ RamOnly s t ∧ Represents t (call.flat m).2 := by
  cases call with
  | readWord a =>
    have within : InsideRam s.memoryMap a (2 ^ 2) := inside
    have read := readCommon_value direct separate represents (by decide) (show 32 = 8 * 2 ^ 2 by rfl) within
    refine ⟨s, ?_, .refl s, represents⟩
    rw [run,Emuriscv.readWord,sizeWord,read,ok_bind,BitVec.setWidth_eq]
    rfl
  | readHalfwordSigned a =>
    have within : InsideRam s.memoryMap a (2 ^ 1) := inside
    have read := readCommon_value direct separate represents (by decide) (show 16 = 8 * 2 ^ 1 by rfl) within
    refine ⟨s, ?_, .refl s, represents⟩
    rw [run,Emuriscv.readHalfwordSigned,sizeHalf,read]
    exact congrArg (fun value => Except.ok (some value,s)) (extendHalfword _)
  | readHalfwordUnsigned a =>
    have within : InsideRam s.memoryMap a (2 ^ 1) := inside
    have read := readCommon_value direct separate represents (by decide) (show 16 = 8 * 2 ^ 1 by rfl) within
    refine ⟨s, ?_, .refl s, represents⟩
    rw [run,Emuriscv.readHalfwordUnsigned,sizeHalf,read]
    rfl
  | readByteSigned a =>
    have within : InsideRam s.memoryMap a (2 ^ 0) := inside
    have read := readCommon_value direct separate represents (by decide) (show 8 = 8 * 2 ^ 0 by rfl) within
    refine ⟨s, ?_, .refl s, represents⟩
    rw [run,Emuriscv.readByteSigned,sizeByte,read]
    exact congrArg (fun value => Except.ok (some value,s)) (extendByte _)
  | readByteUnsigned a =>
    have within : InsideRam s.memoryMap a (2 ^ 0) := inside
    have read := readCommon_value direct separate represents (by decide) (show 8 = 8 * 2 ^ 0 by rfl) within
    refine ⟨s, ?_, .refl s, represents⟩
    rw [run,Emuriscv.readByteUnsigned,sizeByte,read]
    rfl
  | writeWord a value =>
    have within : InsideRam s.memoryMap a (2 ^ 2) := inside
    obtain ⟨t,written,only,after⟩ := writeCommon_flat direct separate represents (by decide) within value
    exact ⟨t, by rw [run,Emuriscv.writeWord,sizeWord,written]; rfl, only, after⟩
  | writeHalfword a value =>
    have within : InsideRam s.memoryMap a (2 ^ 1) := inside
    have number : (value.setWidth 32).toNat = value.toNat := by
      rw [BitVec.toNat_setWidth]
      exact Nat.mod_eq_of_lt (Nat.lt_trans value.isLt (by decide))
    obtain ⟨t,written,only,after⟩ :=
      writeCommon_flat direct separate represents (by decide) within (value.setWidth 32)
    rw [number] at after
    exact ⟨t, by rw [run,Emuriscv.writeHalfword,sizeHalf,written]; rfl, only, after⟩
  | writeByte a value =>
    have within : InsideRam s.memoryMap a (2 ^ 0) := inside
    obtain ⟨t,written,only,after⟩ :=
      writeCommon_flat direct separate represents (by decide) within (value.setWidth 32)
    rw [widened_toNat] at after
    exact ⟨t, by rw [run,Emuriscv.writeByte,sizeByte,written]; rfl, only, after⟩

theorem runCalls_represents [Platform] {s : State} {calls : List MemoryCall} (direct : ¬Walks s)
    (separate : Separate s.memoryMap) (represents : Represents s m)
    (inside : ∀ call ∈ calls, InsideRam s.memoryMap call.address call.width) :
    ∃ t, runCalls s calls = .ok ((flatCalls m calls).1, t) ∧ RamOnly s t ∧
      Represents t (flatCalls m calls).2 := by
  induction calls generalizing s m with
  | nil => exact ⟨s, rfl, .refl s, represents⟩
  | cons call rest ih =>
    obtain ⟨t,first,only,after⟩ :=
      call.run_flat direct separate represents (inside call List.mem_cons_self)
    have map : t.memoryMap = s.memoryMap := by rw [only]
    have direct' : ¬Walks t := by rwa [only.walks]
    rw [← map] at separate inside
    obtain ⟨u,second,only',after'⟩ := ih direct' separate after
      fun other member => inside other (List.mem_cons_of_mem _ member)
    refine ⟨u, ?_, only.trans only', after'⟩
    rw [runCalls,first,ok_bind]
    dsimp only
    rw [second]
    rfl

/-- Every sequence of accesses, each inside one RAM range, returns what it returns on the flat
memory of the state, and leaves a state whose RAM is the flat memory that results. -/
theorem runCalls_flat [Platform] {s : State} {calls : List MemoryCall} (direct : ¬Walks s)
    (separate : Separate s.memoryMap)
    (inside : ∀ call ∈ calls, InsideRam s.memoryMap call.address call.width) :
    ∃ t, runCalls s calls = .ok ((flatCalls (flatMemory s) calls).1, t) ∧ RamOnly s t ∧
      Represents t (flatCalls (flatMemory s) calls).2 :=
  runCalls_represents direct separate (flatMemory_represents separate) inside

/-- A misaligned word, stored over a byte and read back in parts. -/
def mixedCalls : List MemoryCall :=
  [.writeByte 0x80000004 0xff, .writeWord 0x80000001 0x8899aabb, .readHalfwordSigned 0x80000003,
    .readByteUnsigned 0x80000001]

theorem runCalls_flat_mixed :
    ∃ t, @runCalls clearingPlatform (guest privM []) mixedCalls =
        .ok ((flatCalls (flatMemory (guest privM [])) mixedCalls).1, t) ∧
      RamOnly (guest privM []) t ∧
      Represents t (flatCalls (flatMemory (guest privM [])) mixedCalls).2 := by
  let _ : Platform := clearingPlatform
  refine runCalls_flat (fun walks => walks.1 rfl) (guest_separate _ _) ?_
  intro call member
  refine ⟨_, List.mem_singleton_self _, rfl, ?_⟩
  revert call
  decide

end Emuriscv
