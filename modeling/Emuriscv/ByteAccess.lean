import Emuriscv.Served

/-! Single bytes of guest RAM: where a virtual address lands, and what a write to it can do to
any byte at all. Walks only set flag bits, so a byte that no write lands on keeps the others. -/
namespace Emuriscv

/-- The bytes of a block in one buffer, replaced. -/
def storeAt (s : State) (buffer offset : Nat) (bytes : List Byte) : State :=
  withBuffer s buffer (FlatMemory.storeBytes (s.ram buffer) offset bytes)

theorem storeAt_nil (s : State) (buffer offset : Nat) : storeAt s buffer offset [] = s := by
  simp [storeAt,withBuffer,FlatMemory.storeBytes]

theorem storeAt_cons (s : State) (buffer offset : Nat) (byte : Byte) (rest : List Byte) :
    storeAt s buffer offset (byte :: rest) =
      storeAt (storeAt s buffer offset [byte]) buffer (offset + 1) rest := by
  simp [storeAt,withBuffer,FlatMemory.storeBytes]

theorem storeAt_outside {s : State} {buffer offset i j : Nat} {bytes : List Byte}
    (outside : ¬(i = buffer ∧ offset ≤ j ∧ j < offset + bytes.length)) :
    (storeAt s buffer offset bytes).ram i j = s.ram i j := by
  simp only [storeAt,withBuffer]
  by_cases here : i = buffer
  · subst here
    rw [Function.update_self,FlatMemory.storeBytes_outside fun inside => outside ⟨rfl,inside⟩]
  · rw [Function.update_of_ne here]

theorem storeAt_first (s : State) (buffer offset : Nat) (byte : Byte) (rest : List Byte) :
    (storeAt s buffer offset (byte :: rest)).ram buffer offset = byte := by
  simp only [storeAt,withBuffer,Function.update_self]
  exact FlatMemory.storeBytes_first byte rest

theorem storeAt_ramOnly (s : State) (buffer offset : Nat) (bytes : List Byte) :
    RamOnly s (storeAt s buffer offset bytes) := rfl

theorem writeCommonRam_bytes (s : State) (buffer offset : Nat) (value : Word) {sizeLog2 : Nat}
    (size : sizeLog2 ≤ 2) (inside : offset + 2 ^ sizeLog2 ≤ s.bufferSize buffer) :
    writeCommonRam s ⟨some buffer,offset⟩ value sizeLog2 =
      .ok (storeAt s buffer offset (FlatMemory.toBytes value.toNat (2 ^ sizeLog2))) := by
  rw [writeCommonRam_flat s buffer offset value size inside,FlatMemory.store_eq_storeBytes]
  rfl

/-- The access is translated to a byte of RAM, and its walk leaves a state. -/
structure Lands (s : State) (address : Word) (accessType : AccessType) (t : State)
    (buffer offset : Nat) : Prop where
  reached : ∃ range place, Resolves s address accessType t range place ∧
    range.entry.isRam = true ∧ range.index = buffer ∧ place.toNat = offset

theorem Lands.looked {s : State} (lands : Lands s address accessType t buffer offset) :
    ∃ range, range.entry.isRam = true ∧ getMemoryTarget s address accessType =
      .ok ⟨translateOk, ⟨some range, some ⟨some buffer,offset⟩⟩, t⟩ := by
  obtain ⟨range,place,resolves,ram,rfl,rfl⟩ := lands.reached
  have looked := resolves.looked
  rw [RangePtr.physMemPtr,if_pos ram] at looked
  exact ⟨range,ram,looked⟩

theorem Lands.unique {s : State} (lands : Lands s address accessType t buffer offset)
    (lands' : Lands s address accessType t' buffer' offset') :
    t' = t ∧ buffer' = buffer ∧ offset' = offset := by
  obtain ⟨range,_,looked⟩ := lands.looked
  obtain ⟨range',_,looked'⟩ := lands'.looked
  rw [looked] at looked'
  simp only [Except.ok.injEq,Lookup.mk.injEq,MemoryTarget.mk.injEq,Option.some.injEq,
    HostPtr.mk.injEq] at looked'
  obtain ⟨_,⟨_,index,place⟩,state⟩ := looked'
  exact ⟨state.symm, index.symm, place.symm⟩

theorem Lands.inside {s : State} (lands : Lands s address accessType t buffer offset) :
    offset < t.bufferSize buffer := by
  obtain ⟨range,place,resolves,_,rfl,rfl⟩ := lands.reached
  rw [resolves.bufferSize]
  obtain ⟨_,physicalAddress,_,_,_,found,rfl⟩ := resolves.translated
  obtain ⟨low,high⟩ := getPhysMemRange_covers found
  rw [BitVec.toNat_sub_of_le low]
  omega

theorem Lands.ramOnly {s : State} (lands : Lands s address accessType t buffer offset) :
    RamOnly s t := by
  obtain ⟨_,_,resolves,_⟩ := lands.reached
  exact resolves.ramOnly

/-- The kind of access plays no part in where it lands. -/
theorem Lands.store {s : State} (lands : Lands s address accessType t buffer offset) :
    ∃ u, Lands s address .store u buffer offset := by
  obtain ⟨range,place,⟨translation,physicalAddress,translated,assigned,_,found⟩,rest⟩ := lands.reached
  obtain ⟨marked,stored,same,_⟩ := translateAddress_store translated assigned
  exact ⟨marked.state, range, place, ⟨marked, physicalAddress, stored, same, rfl, found⟩, rest⟩

theorem Lands.readCommon {s : State} (lands : Lands s address .load t buffer offset)
    (sizeLog2 : Nat) : readCommon s address sizeLog2 =
      readCommonRam t ⟨some buffer,offset⟩ sizeLog2 >>= fun value => .ok (value,t) := by
  obtain ⟨range,place,resolves,ram,rfl,rfl⟩ := lands.reached
  rw [resolves.readCommon,if_pos ram]

theorem Lands.readByte {s : State} (lands : Lands s address .load t buffer offset) :
    readByteUnsigned s address = .ok ((t.ram buffer offset).setWidth 32, t) := by
  have loaded : t.load ⟨some buffer,offset⟩ 0 = .ok (t.ram buffer offset) :=
    load_eq t buffer offset 0 lands.inside
  rw [readByteUnsigned,lands.readCommon,sizeByte,readCommonRam,loaded]
  rfl

section Write

variable [Platform]

theorem Lands.writeCommon {s : State} (lands : Lands s address .store t buffer offset)
    (value : Word) (sizeLog2 : Nat) : writeCommon s address value sizeLog2 =
      writeCommonRam t ⟨some buffer,offset⟩ value sizeLog2 := by
  obtain ⟨range,place,resolves,ram,rfl,rfl⟩ := lands.reached
  rw [resolves.writeCommon,if_pos ram]

theorem Lands.writeByte {s : State} (lands : Lands s address .store t buffer offset) (value : Byte) :
    writeByte s address value = .ok (storeAt t buffer offset [value]) := by
  have bytes : FlatMemory.toBytes (value.setWidth 32).toNat (2 ^ 0) = [value] := by
    have low : BitVec.ofNat 8 value.toNat = value := by
      rw [BitVec.ofNat_toNat,BitVec.setWidth_eq]
    rw [widened_toNat]
    simp [FlatMemory.toBytes,low]
  rw [Emuriscv.writeByte,lands.writeCommon,sizeByte,
    writeCommonRam_bytes t buffer offset _ (by decide) lands.inside,bytes]

end Write

/-- Flag bits may have been set; every other bit is kept. -/
structure GainsFlags (byte byte' : Byte) : Prop where
  kept : ∀ i, i ≠ 6 → i ≠ 7 → byte'.getLsbD i = byte.getLsbD i
  set : ∀ i, byte.getLsbD i = true → byte'.getLsbD i = true

theorem GainsFlags.refl (byte : Byte) : GainsFlags byte byte := ⟨fun _ _ _ => rfl, fun _ => id⟩

theorem GainsFlags.trans {a b c : Byte} (first : GainsFlags a b) (second : GainsFlags b c) :
    GainsFlags a c :=
  ⟨fun i h6 h7 => (second.kept i h6 h7).trans (first.kept i h6 h7),
    fun i bit => second.set i (first.set i bit)⟩

theorem markEntry_gains {s : State} (leaf : busWalk s virtualAddress = .leaf level address entry)
    (accessType : AccessType) (i j : Nat) :
    GainsFlags (s.ram i j) ((markEntry s address entry accessType).ram i j) := by
  have flags := markEntry_flagsOnly leaf accessType
  obtain ⟨_,_,p,located,held⟩ := busWalk_leaf_located leaf
  constructor
  · intro bit h6 h7
    exact flags i j bit fun flag => flag.elim h6 fun dirty => h7 dirty.1
  · intro bit set
    rw [markEntry_located located,putWord_ram]
    split
    next inside =>
      obtain ⟨rfl,low,high⟩ := inside
      have place : j = p.offset + (j - p.offset) := by omega
      rw [place,← byteOf_deref s p _ (by omega),held] at set
      simp only [byteOf,BitVec.getLsbD_setWidth,BitVec.getLsbD_ushiftRight,Bool.and_eq_true] at set ⊢
      refine ⟨set.1,?_⟩
      rw [Sv32.Pte.mark,BitVec.getLsbD_or,set.2]
      rfl
    next => exact set

theorem translateAddress_gains {s : State}
    (h : translateAddress s virtualAddress accessType = .ok t) (i j : Nat) :
    GainsFlags (s.ram i j) (t.state.ram i j) := by
  rcases translateAddress_ok h with
    ⟨_,rfl⟩ | ⟨_,_,rfl⟩ | ⟨_,_,rfl⟩ | ⟨level,address,entry,_,leaf,rfl⟩
  · exact .refl _
  · exact .refl _
  · exact .refl _
  · exact markEntry_gains leaf accessType i j

theorem Resolves.gains {s : State} (resolves : Resolves s address accessType t range offset) (i j : Nat) :
    GainsFlags (s.ram i j) (t.ram i j) := by
  obtain ⟨_,_,translated,_,rfl,_⟩ := resolves.translated
  exact translateAddress_gains translated i j

theorem Lands.gains {s : State} (lands : Lands s address accessType t buffer offset) (i j : Nat) :
    GainsFlags (s.ram i j) (t.ram i j) := by
  obtain ⟨_,_,resolves,_⟩ := lands.reached
  exact resolves.gains i j

section Effect

variable [Platform]

/-- A byte of RAM holds after a write what it held, flags aside, unless the write landed there. -/
theorem writeByte_effect {s : State} (h : writeByte s address byte = .ok t) (i j : Nat) :
    GainsFlags (s.ram i j) (t.ram i j) ∨
      t.ram i j = byte ∧ ∃ u, Lands s address .store u i j := by
  have served := (writeCommon_returns_iff s address _ (show sizeByte ≤ 2 by decide)).mp ⟨t,h⟩
  rcases served with faults | ⟨u,range,place,resolves,_⟩
  · rw [writeByte,writeCommon_fault faults] at h
    rw [← Except.ok.inj h]
    exact Or.inl (.refl _)
  · by_cases ram : range.entry.isRam = true
    · have lands : Lands s address .store u range.index place.toNat :=
        ⟨range, place, resolves, ram, rfl, rfl⟩
      rw [lands.writeByte] at h
      rw [← Except.ok.inj h]
      by_cases here : i = range.index ∧ j = place.toNat
      · obtain ⟨rfl,rfl⟩ := here
        exact Or.inr ⟨storeAt_first .., u, lands⟩
      · rw [storeAt_outside]
        · exact Or.inl (resolves.gains i j)
        · rintro ⟨same,low,high⟩
          rw [List.length_singleton] at high
          exact here ⟨same, by omega⟩
    · rw [writeByte,writeCommon,resolves.looked,ok_bind,
        if_neg (show translateOk ≠ pageFault by decide)] at h
      dsimp only [MemoryTarget.pointer] at h
      rw [pure_eq_ok,ok_bind,if_neg ram] at h
      rw [(callWrite_frame h).ram]
      exact Or.inl (resolves.gains i j)

/-- `write_byte` at consecutive addresses, one call after another. -/
def writeBytes (s : State) (address : Word) : List Byte → Except Stop State
  | [] => pure s
  | byte :: rest => do
    let s ← writeByte s address byte
    writeBytes s (address + 1) rest

/-- Flags aside, every byte holds in the end what it held before or one of the bytes written. -/
theorem writeBytes_effect {s : State} {bytes : List Byte} (h : writeBytes s address bytes = .ok t)
    (i j : Nat) : ∃ byte, (byte = s.ram i j ∨ byte ∈ bytes) ∧ GainsFlags byte (t.ram i j) := by
  induction bytes generalizing s address with
  | nil =>
    obtain rfl := Except.ok.inj h
    exact ⟨_, Or.inl rfl, .refl _⟩
  | cons byte rest ih =>
    obtain ⟨middle,first,later⟩ := bind_eq_ok.mp h
    obtain ⟨origin,source,gains⟩ := ih later
    rcases source with rfl | member
    · rcases writeByte_effect first i j with kept | ⟨written,_⟩
      · exact ⟨_, Or.inl rfl, kept.trans gains⟩
      · rw [written] at gains
        exact ⟨byte, Or.inr List.mem_cons_self, gains⟩
    · exact ⟨origin, Or.inr (List.mem_cons_of_mem _ member), gains⟩

end Effect

end Emuriscv
