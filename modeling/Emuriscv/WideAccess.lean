import Emuriscv.ByteAccess

/-! Words and halfwords against the bytes they are made of, under paging. The wide access is
translated once and goes on in the buffer where that lands; byte accesses are translated one
by one. -/
namespace Emuriscv

/-- Outside a block of one buffer the two states hold the same bytes. -/
def AgreeOutside (buffer offset width : Nat) (s t : State) : Prop :=
  ∀ i j, ¬(i = buffer ∧ offset ≤ j ∧ j < offset + width) → t.ram i j = s.ram i j

/-- Whatever bytes are stored, each address lands on the next byte of the buffer, and its walk
sets no flag outside the bytes that are still to be written. -/
def Follows (s : State) (address : Word) (buffer offset : Nat) : Nat → Prop
  | 0 => True
  | width + 1 => ∃ t, Lands s address .store t buffer offset ∧
      AgreeOutside buffer offset (width + 1) s t ∧
      ∀ byte, Follows (storeAt t buffer offset [byte]) (address + 1) buffer (offset + 1) width

/-- After the first byte of the block is stored, it is outside. -/
theorem AgreeOutside.storeFirst {s t : State} (agree : AgreeOutside buffer offset (width + 1) s t)
    (byte : Byte) : AgreeOutside buffer (offset + 1) width (storeAt s buffer offset [byte])
      (storeAt t buffer offset [byte]) := by
  intro i j outside
  by_cases first : i = buffer ∧ j = offset
  · obtain ⟨rfl,rfl⟩ := first
    rw [storeAt_first,storeAt_first]
  · have before : ¬(i = buffer ∧ offset ≤ j ∧ j < offset + [byte].length) := by
      rintro ⟨same,low,high⟩
      rw [List.length_singleton] at high
      exact first ⟨same, by omega⟩
    rw [storeAt_outside before,storeAt_outside before]
    apply agree
    rintro ⟨same,low,high⟩
    have apart : j ≠ offset := fun here => first ⟨same,here⟩
    exact outside ⟨same, by omega, by omega⟩

section Writes

variable [Platform]

theorem Follows.writes {s t : State} {bytes : List Byte}
    (follows : Follows t address buffer offset bytes.length)
    (agree : AgreeOutside buffer offset bytes.length s t) :
    ∃ u, writeBytes t address bytes = .ok u ∧ u.ram = (storeAt s buffer offset bytes).ram := by
  induction bytes generalizing s t address offset with
  | nil =>
    refine ⟨t, rfl, ?_⟩
    rw [storeAt_nil]
    funext i j
    apply agree
    rintro ⟨_,low,high⟩
    rw [List.length_nil] at high
    omega
  | cons byte rest ih =>
    obtain ⟨u,lands,quiet,next⟩ := follows
    have agree' : AgreeOutside buffer offset (rest.length + 1) s u :=
      fun i j outside => (quiet i j outside).trans (agree i j outside)
    obtain ⟨final,written,same⟩ := ih (next byte) (agree'.storeFirst byte)
    refine ⟨final, ?_, ?_⟩
    · rw [writeBytes,lands.writeByte,ok_bind,written]
    · rw [storeAt_cons,same]

omit [Platform] in
/-- A byte with its lowest bit, which is no flag, turned over. -/
theorem flipped_bit (byte : Byte) : (byte ^^^ 1).getLsbD 0 ≠ byte.getLsbD 0 := by
  simp

/-- If all blocks of bytes are written as one, the first byte lands on the first of the block:
else it would hold on to a bit that another value has different. -/
theorem lands_of_writes {s t : State} (written : ∀ bytes : List Byte, bytes.length = width + 1 →
    ∃ u, writeBytes t address bytes = .ok u ∧ u.ram = (storeAt s buffer offset bytes).ram) :
    ∃ u, Lands t address .store u buffer offset := by
  let old := t.ram buffer offset
  obtain ⟨final,run,same⟩ := written ((old ^^^ 1) :: List.replicate width old) (by simp)
  have stored : final.ram buffer offset = old ^^^ 1 := by
    rw [same]
    exact storeAt_first ..
  obtain ⟨middle,first,rest⟩ := bind_eq_ok.mp run
  rcases writeByte_effect first buffer offset with kept | ⟨_,lands⟩
  · obtain ⟨origin,source,gains⟩ := writeBytes_effect rest buffer offset
    have bit : origin.getLsbD 0 = old.getLsbD 0 := by
      rcases source with rfl | member
      · exact kept.kept 0 (by decide) (by decide)
      · rw [List.eq_of_mem_replicate member]
    have final := gains.kept 0 (by decide) (by decide)
    rw [stored,bit] at final
    exact absurd final (flipped_bit old)
  · exact lands

/-- And its walk sets no flag outside the block, since nothing would take it back. -/
theorem quiet_of_writes {s t u : State} (lands : Lands t address .store u buffer offset)
    (agree : AgreeOutside buffer offset (width + 1) s t)
    (written : ∀ bytes : List Byte, bytes.length = width + 1 →
      ∃ u, writeBytes t address bytes = .ok u ∧ u.ram = (storeAt s buffer offset bytes).ram) :
    AgreeOutside buffer offset (width + 1) t u := by
  intro i j outside
  have gained := lands.gains i j
  apply BitVec.eq_of_getLsbD_eq
  intro bit _
  cases set : (u.ram i j).getLsbD bit with
  | false =>
    cases before : (t.ram i j).getLsbD bit with
    | false => rfl
    | true => exact set.symm.trans (gained.set bit before)
  | true =>
    obtain ⟨final,run,same⟩ := written (List.replicate (width + 1) (u.ram i j)) (by simp)
    have kept : final.ram i j = t.ram i j := by
      rw [same,storeAt_outside,agree i j outside]
      rwa [List.length_replicate]
    rw [List.replicate_succ,writeBytes,lands.writeByte,ok_bind] at run
    obtain ⟨origin,source,gains⟩ := writeBytes_effect run i j
    have bitSet : origin.getLsbD bit = true := by
      rcases source with rfl | member
      · rw [storeAt_outside,set]
        rintro ⟨here,low,high⟩
        rw [List.length_singleton] at high
        exact outside ⟨here, low, by omega⟩
      · rw [List.eq_of_mem_replicate member,set]
    rw [← kept]
    exact (gains.set bit bitSet).symm

theorem follows_of_writes {s t : State} (agree : AgreeOutside buffer offset width s t)
    (written : ∀ bytes : List Byte, bytes.length = width →
      ∃ u, writeBytes t address bytes = .ok u ∧ u.ram = (storeAt s buffer offset bytes).ram) :
    Follows t address buffer offset width := by
  induction width generalizing s t address offset with
  | zero => trivial
  | succ width ih =>
    obtain ⟨u,lands⟩ := lands_of_writes written
    have quiet := quiet_of_writes lands agree written
    have agree' : AgreeOutside buffer offset (width + 1) s u :=
      fun i j outside => (quiet i j outside).trans (agree i j outside)
    refine ⟨u, lands, quiet, ?_⟩
    intro byte
    apply ih (agree'.storeFirst byte)
    intro bytes length
    obtain ⟨final,run,same⟩ := written (byte :: bytes) (by rw [List.length_cons,length])
    rw [writeBytes,lands.writeByte,ok_bind] at run
    rw [storeAt_cons] at same
    exact ⟨final,run,same⟩

end Writes

inductive Wide where
  | half
  | word
  deriving DecidableEq, Repr

namespace Wide

def bytes : Wide → Nat
  | half => 2
  | word => 4

def read : Wide → State → Word → Except Stop (Word × State)
  | half => readHalfwordUnsigned
  | word => readWord

/-- `write_halfword` takes the low half of its argument. -/
def write [Platform] : Wide → State → Word → Word → Except Stop State
  | half, s, address, value => writeHalfword s address (value.setWidth 16)
  | word, s, address, value => writeWord s address value

def sizeLog2 : Wide → Nat
  | half => sizeHalf
  | word => sizeWord

theorem sizeLog2_le (wide : Wide) : wide.sizeLog2 ≤ 2 := by cases wide <;> decide

theorem bytes_eq (wide : Wide) : wide.bytes = 2 ^ wide.sizeLog2 := by cases wide <;> rfl

theorem bytes_pos (wide : Wide) : 0 < wide.bytes := by cases wide <;> decide

theorem read_eq (wide : Wide) (s : State) (address : Word) :
    wide.read s address = readCommon s address wide.sizeLog2 := by cases wide <;> rfl

end Wide

theorem Lands.bufferSize {s : State} (lands : Lands s address accessType t buffer offset) (i : Nat) :
    t.bufferSize i = s.bufferSize i := by
  have map : t.memoryMap = s.memoryMap := by rw [lands.ramOnly]
  rw [State.bufferSize,State.bufferSize,map]

theorem Lands.wideRead {s : State} (lands : Lands s address .load t buffer offset) (wide : Wide)
    (fits : offset + wide.bytes ≤ s.bufferSize buffer) :
    ∃ value : Word, wide.read s address = .ok (value,t) ∧
      value.toNat = FlatMemory.ofBytes (FlatMemory.bytesAt (t.ram buffer) offset wide.bytes) := by
  rw [← lands.bufferSize,wide.bytes_eq] at fits
  obtain ⟨value,read,number⟩ := readCommonRam_flat t buffer offset wide.sizeLog2_le fits
  refine ⟨value,?_,?_⟩
  · rw [wide.read_eq,lands.readCommon,read]
    rfl
  · rw [number,FlatMemory.load_eq_ofBytes,wide.bytes_eq]

/-- A wide read that returns had all of its bytes in the buffer. -/
theorem Lands.fits {s : State} (lands : Lands s address .load t buffer offset) (wide : Wide)
    (returns : Returns (wide.read s address)) : offset + wide.bytes ≤ s.bufferSize buffer := by
  rw [wide.read_eq,lands.readCommon,returns_bind_ok fun _ => returns_ok _,
    readCommonRam_returns_iff t buffer offset wide.sizeLog2_le] at returns
  rwa [wide.bytes_eq,← lands.bufferSize]

theorem Lands.wideWrite [Platform] {s : State} (lands : Lands s address .store t buffer offset)
    (wide : Wide) (fits : offset + wide.bytes ≤ s.bufferSize buffer) (value : Word) :
    wide.write s address value =
      .ok (storeAt t buffer offset (FlatMemory.toBytes value.toNat wide.bytes)) := by
  rw [← lands.bufferSize,wide.bytes_eq] at fits
  cases wide with
  | half =>
    have low : FlatMemory.toBytes ((value.setWidth 16).setWidth 32).toNat 2 =
        FlatMemory.toBytes value.toNat 2 := by
      rw [← FlatMemory.toBytes_mod value.toNat,BitVec.toNat_setWidth,BitVec.toNat_setWidth]
      congr 1
      omega
    have written := writeCommonRam_bytes t buffer offset ((value.setWidth 16).setWidth 32)
      (show sizeHalf ≤ 2 by decide) fits
    refine (lands.writeCommon _ sizeHalf).trans (written.trans ?_)
    exact congrArg (fun bytes => Except.ok (storeAt t buffer offset bytes)) low
  | word =>
    exact (lands.writeCommon value sizeWord).trans
      (writeCommonRam_bytes t buffer offset value (show sizeWord ≤ 2 by decide) fits)

/-- The wide read returns the little-endian value of the byte reads, and the wide write leaves
guest memory as the byte writes do, one after another. -/
structure Agrees [Platform] (wide : Wide) (s : State) (address : Word) : Prop where
  read : ∃ value t bytes, wide.read s address = .ok (value,t) ∧
    value.toNat = FlatMemory.ofBytes bytes ∧ bytes.length = wide.bytes ∧
    ∀ (k : Nat) (byte : Byte), bytes[k]? = some byte → ∃ u,
      readByteUnsigned s (address + BitVec.ofNat 32 k) = .ok (byte.setWidth 32, u)
  write : ∀ value : Word, ∃ t u, wide.write s address value = .ok t ∧
    writeBytes s address (FlatMemory.toBytes value.toNat wide.bytes) = .ok u ∧ u.ram = t.ram

/-- The bytes of the access read as those of one block in a buffer, and writes follow it. -/
def OneBlock (wide : Wide) (s : State) (address : Word) : Prop :=
  ∃ t u buffer offset, Lands s address .load t buffer offset ∧
    Lands s address .store u buffer offset ∧ offset + wide.bytes ≤ s.bufferSize buffer ∧
    (∀ k, k < wide.bytes → ∃ v i j, Lands s (address + BitVec.ofNat 32 k) .load v i j ∧
      v.ram i j = t.ram buffer (offset + k)) ∧
    ∀ byte, Follows (storeAt u buffer offset [byte]) (address + 1) buffer (offset + 1)
      (wide.bytes - 1)

theorem widened_inj {byte byte' : Byte} (same : byte.setWidth 32 = byte'.setWidth 32) :
    byte = byte' := by
  apply BitVec.eq_of_toNat_eq
  rw [← widened_toNat byte,same,widened_toNat]

section Law

variable [Platform] {s : State} {address : Word} {wide : Wide}

theorem Agrees.readBlock (agrees : Agrees wide s address)
    (loaded : Lands s address .load t buffer offset)
    (fits : offset + wide.bytes ≤ s.bufferSize buffer) (k : Nat) (bound : k < wide.bytes)
    (lands : Lands s (address + BitVec.ofNat 32 k) .load v i j) :
    v.ram i j = t.ram buffer (offset + k) := by
  obtain ⟨value,_,bytes,read,number,length,each⟩ := agrees.read
  obtain ⟨value',read',number'⟩ := loaded.wideRead wide fits
  rw [read] at read'
  obtain ⟨rfl,_⟩ := Prod.mk.inj (Except.ok.inj read')
  have block : bytes = FlatMemory.bytesAt (t.ram buffer) offset wide.bytes := by
    apply FlatMemory.ofBytes_inj
    · rw [length,FlatMemory.bytesAt_length]
    · rw [← number,number']
  obtain ⟨_,byteRead⟩ := each k (t.ram buffer (offset + k)) (by
    rw [block,FlatMemory.bytesAt_getElem?,if_pos bound])
  rw [lands.readByte] at byteRead
  exact widened_inj (Prod.mk.inj (Except.ok.inj byteRead)).1

theorem Agrees.writeBlock (agrees : Agrees wide s address)
    (marked : Lands s address .store u buffer offset)
    (fits : offset + wide.bytes ≤ s.bufferSize buffer) (byte : Byte) :
    Follows (storeAt u buffer offset [byte]) (address + 1) buffer (offset + 1) (wide.bytes - 1) := by
  apply follows_of_writes (s := storeAt u buffer offset [byte]) fun _ _ _ => rfl
  intro rest length
  have whole : (byte :: rest).length = wide.bytes := by
    have positive := wide.bytes_pos
    rw [List.length_cons,length]
    omega
  have small : FlatMemory.ofBytes (byte :: rest) < 2 ^ 32 := by
    have bound := FlatMemory.ofBytes_lt (byte :: rest)
    rw [whole] at bound
    exact Nat.lt_of_lt_of_le bound (by cases wide <;> decide)
  obtain ⟨final,last,written,run,same⟩ := agrees.write (BitVec.ofNat 32 (FlatMemory.ofBytes (byte :: rest)))
  have bytes : FlatMemory.toBytes (BitVec.ofNat 32 (FlatMemory.ofBytes (byte :: rest))).toNat
      wide.bytes = byte :: rest := by
    rw [BitVec.toNat_ofNat,Nat.mod_eq_of_lt small,← whole,FlatMemory.toBytes_ofBytes]
  rw [marked.wideWrite wide fits,bytes,storeAt_cons] at written
  rw [bytes,writeBytes,marked.writeByte,ok_bind] at run
  rw [← Except.ok.inj written] at same
  exact ⟨last,run,same⟩

theorem agrees_iff (landed : ∀ k, k < wide.bytes →
      ∃ t i j, Lands s (address + BitVec.ofNat 32 k) .load t i j) :
    Agrees wide s address ↔ OneBlock wide s address := by
  constructor
  · intro agrees
    obtain ⟨t,buffer,offset,loaded⟩ := landed 0 wide.bytes_pos
    have start : address + BitVec.ofNat 32 0 = address := BitVec.add_zero address
    rw [start] at loaded
    obtain ⟨u,marked⟩ := loaded.store
    have fits : offset + wide.bytes ≤ s.bufferSize buffer := by
      obtain ⟨value,_,_,read,_⟩ := agrees.read
      exact loaded.fits wide ⟨_,read⟩
    refine ⟨t, u, buffer, offset, loaded, marked, fits, ?_, agrees.writeBlock marked fits⟩
    intro k bound
    obtain ⟨v,i,j,lands⟩ := landed k bound
    exact ⟨v, i, j, lands, agrees.readBlock loaded fits k bound lands⟩
  · rintro ⟨t,u,buffer,offset,loaded,marked,fits,reads,follows⟩
    constructor
    · obtain ⟨value,read,number⟩ := loaded.wideRead wide fits
      refine ⟨value, t, _, read, number, FlatMemory.bytesAt_length .., ?_⟩
      intro k byte held
      rw [FlatMemory.bytesAt_getElem?] at held
      split at held
      next bound =>
        obtain ⟨v,i,j,lands,same⟩ := reads k bound
        rw [← Option.some.inj held,← same]
        exact ⟨v,lands.readByte⟩
      next => contradiction
    · intro value
      obtain ⟨width,bytes⟩ := Nat.exists_eq_succ_of_ne_zero wide.bytes_pos.ne'
      have split : FlatMemory.toBytes value.toNat wide.bytes =
          BitVec.ofNat 8 value.toNat :: FlatMemory.toBytes (value.toNat / 256) width := by
        rw [bytes,FlatMemory.toBytes]
      have follows' := follows (BitVec.ofNat 8 value.toNat)
      rw [bytes,Nat.succ_sub_one,← FlatMemory.toBytes_length (value.toNat / 256) width] at follows'
      obtain ⟨final,run,same⟩ := follows'.writes fun _ _ _ => rfl
      refine ⟨_, final, marked.wideWrite wide fits value, ?_, ?_⟩
      · rw [split,writeBytes,marked.writeByte,ok_bind,run]
      · rw [split,storeAt_cons,same]

end Law

end Emuriscv
