import Emuriscv.Bytes
import Emuriscv.Sv32

/-! `translate_address` computes the Sv32 walk on a 32-bit bus. A page-table word is
found in the RAM range that answers its address; a walk that finds none reads through
a pointer nothing was stored in, a null pointer, or past a buffer. -/
namespace Emuriscv

/-- Where the word at a physical address lies, if one RAM range holds all four bytes. -/
def wordLocation (map : MemoryMap) (address : Word) : Option WordPtr :=
  match getPhysMemRange map address with
  | none => none
  | some range =>
    if range.entry.isRam ∧ (address - range.entry.address).toNat + 3 < range.entry.size.toNat then
      some ⟨range.index, (address - range.entry.address).toNat⟩
    else none

/-- What becomes of a word access that has no location. -/
def physicalStop (map : MemoryMap) (address : Word) : Stop :=
  match getPhysMemRange map address with
  | none => .uninitialized
  | some range => if range.entry.isRam then .outOfBounds else .nullPointer

theorem getPhysMemRangeFrom_spec (paddr : Word) (i : Nat) (map : List MemoryRange)
    (h : getPhysMemRangeFrom paddr i map = some range) :
    i ≤ range.index ∧ map[range.index - i]? = some range.entry ∧
      range.entry.address ≤ paddr ∧ paddr < range.entry.address + range.entry.size := by
  induction map generalizing i with
  | nil => simp [getPhysMemRangeFrom] at h
  | cons entry rest ih =>
    unfold getPhysMemRangeFrom at h
    split at h
    next inside =>
      obtain rfl := Option.some.inj h
      exact ⟨Nat.le_refl _, by simp, inside.1, inside.2⟩
    next outside =>
      obtain ⟨above,found,low,high⟩ := ih (i + 1) h
      refine ⟨by omega, ?_, low, high⟩
      rw [show range.index - i = (range.index - (i + 1)) + 1 by omega, List.getElem?_cons_succ]
      exact found

/-- A range pointer returned by the lookup points at the entry it was read from. -/
theorem getPhysMemRange_spec {map : MemoryMap} (h : getPhysMemRange map paddr = some range) :
    map[range.index]? = some range.entry ∧
      range.entry.address ≤ paddr ∧ paddr < range.entry.address + range.entry.size := by
  have spec := getPhysMemRangeFrom_spec paddr 0 map h
  exact ⟨by simpa using spec.2.1, spec.2.2⟩

theorem bufferSize_eq {s : State} (h : s.memoryMap[i]? = some entry) :
    s.bufferSize i = entry.size.toNat := by
  simp [State.bufferSize,h]

theorem wordLocation_some {map : MemoryMap} {address : Word} {p : WordPtr}
    (h : wordLocation map address = some p) :
    ∃ range, getPhysMemRange map address = some range ∧ range.entry.isRam = true ∧
      p = ⟨range.index, (address - range.entry.address).toNat⟩ ∧
      p.offset + 3 < range.entry.size.toNat := by
  unfold wordLocation at h
  split at h
  next => contradiction
  next range found =>
    split at h
    next inside =>
      obtain rfl := Option.some.inj h
      exact ⟨range,found,inside.1,rfl,inside.2⟩
    next => contradiction

/-- A located word lies inside the buffer it is located in. -/
theorem wordLocation_inside {s : State} (h : wordLocation s.memoryMap address = some p) :
    p.offset + 3 < s.bufferSize p.buffer := by
  obtain ⟨range,found,_,rfl,inside⟩ := wordLocation_some h
  rwa [bufferSize_eq (getPhysMemRange_spec found).1]

theorem readWordPhysical_located {s : State} (h : wordLocation s.memoryMap address = some p) :
    readWordPhysical s address = .ok (deref s p) := by
  have inside := wordLocation_inside h
  obtain ⟨range,found,ram,rfl,_⟩ := wordLocation_some h
  rw [← readCommonRam_word s _ inside]
  simp [readWordPhysical,getMemoryTargetPhysical,found,MemoryTarget.pointer,RangePtr.physMemPtr,
    ram,sizeWord]

theorem writeWordPhysical_located {s : State} (h : wordLocation s.memoryMap address = some p)
    (value : Word) : writeWordPhysical s address value = .ok (putWord s p value) := by
  have inside := wordLocation_inside h
  obtain ⟨range,found,ram,rfl,_⟩ := wordLocation_some h
  rw [← writeCommonRam_word s _ value inside]
  simp [writeWordPhysical,getMemoryTargetPhysical,found,MemoryTarget.pointer,RangePtr.physMemPtr,
    ram,sizeWord]

theorem readWordPhysical_unlocated {s : State} (h : wordLocation s.memoryMap address = none) :
    readWordPhysical s address = .error (physicalStop s.memoryMap address) := by
  unfold wordLocation at h
  cases found : getPhysMemRange s.memoryMap address with
  | none => simp [readWordPhysical,getMemoryTargetPhysical,physicalStop,found,MemoryTarget.pointer]
  | some range =>
    cases ram : range.entry.isRam with
    | false =>
      simp [readWordPhysical,getMemoryTargetPhysical,physicalStop,found,MemoryTarget.pointer,
        RangePtr.physMemPtr,ram,readCommonRam,sizeWord,State.load]
    | true =>
      have outside : ¬(address - range.entry.address).toNat + 3 < s.bufferSize range.index := by
        rw [bufferSize_eq (getPhysMemRange_spec found).1]
        simpa [found,ram] using h
      simpa [readWordPhysical,getMemoryTargetPhysical,physicalStop,found,MemoryTarget.pointer,
        RangePtr.physMemPtr,ram,sizeWord] using readCommonRam_outside s _ _ outside

/-- The page tables as the walk sees them: the located words below `2 ^ 32`. -/
def pteAt (s : State) (address : Nat) : Option Word :=
  if address < 2 ^ 32 then
    (wordLocation s.memoryMap (BitVec.ofNat 32 address)).map (deref s)
  else none

def rootPpn (s : State) : Nat := (readCsr s csrSatp).toNat % 2 ^ 22

def AccessType.toSv32 : AccessType → Sv32.Access
  | .load => .read
  | .store => .write
  | .fetch => .execute

/-- `*physical_address` for a leaf entry: its page with the low bits of the address. -/
def leafPhysical (level : Nat) (entry virtualAddress : Word) : Word :=
  let vaddrMask : Word := ((1 : Word) <<< (pageShift + 10 * level)) - 1
  (virtualAddress &&& vaddrMask) ||| (((entry >>> 10) <<< pageShift) &&& ~~~vaddrMask)

/-- The state after the access has been recorded in the entry at an address. -/
def markEntry (s : State) (address : Nat) (entry : Word) (accessType : AccessType) : State :=
  match wordLocation s.memoryMap (BitVec.ofNat 32 address) with
  | none => s
  | some p => putWord s p (Sv32.Pte.mark entry accessType.toSv32)

/-- What `translate_address` makes of the outcome of a walk. -/
def walkResult (s : State) (virtualAddress : Word) (accessType : AccessType) :
    Sv32.Outcome → Except Stop Translation
  | .unmapped _ address => .error (physicalStop s.memoryMap (BitVec.ofNat 32 address))
  | .invalid _ _ _ => .ok ⟨pageFault,none,s⟩
  | .dangling _ _ => .ok ⟨translateOk,none,s⟩
  | .leaf level address entry =>
    .ok ⟨translateOk, some (leafPhysical level entry virtualAddress),
      markEntry s address entry accessType⟩

theorem bit_eq (e : Word) (i : Nat) : e.getLsbD i = decide (e.toNat / 2 ^ i % 2 = 1) := by
  rw [BitVec.getLsbD,Nat.testBit_eq_decide_div_mod_eq]

theorem vTest (e : Word) : e &&& pteVMask = 0 ↔ Sv32.Pte.valid e = false := by
  have number : e &&& pteVMask = 0 ↔ e.toNat % 2 = 0 := by
    rw [← BitVec.toNat_inj]
    simp [pteVMask,Nat.and_one_is_mod]
  rw [number,Sv32.Pte.valid,bit_eq]
  simp

/-- The three permission bits as the number the code compares. -/
theorem xwrTest (e : Word) (v : Word) :
    (e >>> 1) &&& 7 = v ↔ e.toNat / 2 % 8 = v.toNat := by
  rw [← BitVec.toNat_inj]
  have mask : e.toNat / 2 &&& 7 = e.toNat / 2 % 8 := Nat.and_two_pow_sub_one_eq_mod _ 3
  simp [Nat.shiftRight_eq_div_pow,mask]

/-- The tests of the walker, in their order, compute the kind of a valid entry. -/
theorem kind_eq (e : Word) (valid : Sv32.Pte.valid e = true) :
    Sv32.Pte.kind e = if (e >>> 1) &&& 7 = 0 then .pointer
      else if (e >>> 1) &&& 7 = pteW ∨ (e >>> 1) &&& 7 = pteXw then .invalid else .leaf := by
  have readable : e.toNat / 2 ^ 1 % 2 = e.toNat / 2 % 8 % 2 := by omega
  have writable : e.toNat / 2 ^ 2 % 2 = e.toNat / 2 % 8 / 2 % 2 := by omega
  have executable : e.toNat / 2 ^ 3 % 2 = e.toNat / 2 % 8 / 4 % 2 := by omega
  have bound : e.toNat / 2 % 8 < 8 := Nat.mod_lt _ (by decide)
  simp only [Sv32.Pte.kind,valid,Sv32.Pte.readable,Sv32.Pte.writable,Sv32.Pte.executable,bit_eq,
    readable,writable,executable,xwrTest]
  generalize e.toNat / 2 % 8 = xwr at bound
  interval_cases xwr <;> decide

theorem entryAddress_word (virtualAddress : Word) (level table : Nat) :
    BitVec.ofNat 32 (table * 2 ^ 12) +
        ((virtualAddress >>> (pageShift + 10 * level)) &&& 0x3ff) <<< 2 =
      BitVec.ofNat 32 (Sv32.entryAddress 32 virtualAddress level table) := by
  have mask (n : Nat) : n &&& 1023 = n % 2 ^ 10 := Nat.and_two_pow_sub_one_eq_mod n 10
  apply BitVec.eq_of_toNat_eq
  simp [Sv32.entryAddress,Sv32.vpn,pageShift,Nat.shiftRight_eq_div_pow,Nat.shiftLeft_eq,mask]
  omega

theorem nextTable (e : Word) : (e >>> 10) <<< pageShift =
    BitVec.ofNat 32 (Sv32.Pte.ppn e * 2 ^ 12) := by
  apply BitVec.eq_of_toNat_eq
  simp [Sv32.Pte.ppn,pageShift,Nat.shiftLeft_eq]

theorem accessedOrDirtyFlags_mark (e : Word) (accessType : AccessType) :
    e ||| accessedOrDirtyFlags accessType = Sv32.Pte.mark e accessType.toSv32 := by
  cases accessType <;> rfl

/-- Flags that are already there need not be stored. -/
theorem or_eq_of_and_eq {e flags : Word} (h : e &&& flags = flags) : e ||| flags = e := by
  rw [← h]
  apply BitVec.eq_of_getLsbD_eq
  intro i _
  simp only [BitVec.getLsbD_or,BitVec.getLsbD_and]
  cases e.getLsbD i <;> simp

theorem pteAt_entryAddress (s : State) (virtualAddress : Word) (level table : Nat) :
    pteAt s (Sv32.entryAddress 32 virtualAddress level table) =
      (wordLocation s.memoryMap
        (BitVec.ofNat 32 (Sv32.entryAddress 32 virtualAddress level table))).map (deref s) := by
  rw [pteAt,if_pos]
  exact Nat.mod_lt _ (by decide)

/-- One iteration of the loop is one visit of the walk. -/
theorem translateLevels_visit (s : State) (virtualAddress : Word) (accessType : AccessType)
    (level table : Nat) (next : Nat → Word → Sv32.Outcome)
    (deeper : ∀ address entry, translateLevels s virtualAddress accessType level
        (BitVec.ofNat 32 (Sv32.Pte.ppn entry * 2 ^ 12)) =
      walkResult s virtualAddress accessType (next address entry)) :
    translateLevels s virtualAddress accessType (level + 1) (BitVec.ofNat 32 (table * 2 ^ 12)) =
      walkResult s virtualAddress accessType
        (Sv32.visit 32 (pteAt s) virtualAddress level table next) := by
  have read := pteAt_entryAddress s virtualAddress level table
  unfold translateLevels
  simp only [entryAddress_word]
  cases located : wordLocation s.memoryMap
      (BitVec.ofNat 32 (Sv32.entryAddress 32 virtualAddress level table)) with
  | none =>
    rw [located] at read
    rw [readWordPhysical_unlocated located,Sv32.visit_unmapped read]
    rfl
  | some p =>
    rw [located,Option.map_some] at read
    rw [readWordPhysical_located located,ok_bind]
    simp only [vTest]
    split
    next invalid =>
      have kind : Sv32.Pte.kind (deref s p) = .invalid := by simp [Sv32.Pte.kind,invalid]
      rw [Sv32.visit_invalid read kind]
      rfl
    next valid =>
      have kind := kind_eq (deref s p) (by simpa using valid)
      split
      next pointer =>
        rw [if_pos pointer] at kind
        rw [Sv32.visit_pointer read kind,nextTable]
        exact deeper _ _
      next notPointer =>
        rw [if_neg notPointer] at kind
        split
        next unreadable =>
          rw [if_pos unreadable] at kind
          rw [Sv32.visit_invalid read kind]
          rfl
        next leaf =>
          rw [if_neg leaf] at kind
          rw [Sv32.visit_leaf read kind]
          simp only [walkResult,markEntry,located,← accessedOrDirtyFlags_mark]
          split
          next missing => rw [writeWordPhysical_located located,ok_bind]; rfl
          next present =>
            rw [or_eq_of_and_eq (not_not.mp present),putWord_deref]
            rfl

theorem translateLevels_eq (s : State) (virtualAddress : Word) (accessType : AccessType)
    (level table : Nat) :
    translateLevels s virtualAddress accessType (level + 1) (BitVec.ofNat 32 (table * 2 ^ 12)) =
      walkResult s virtualAddress accessType
        (Sv32.walk 32 (pteAt s) virtualAddress level table) := by
  induction level generalizing table with
  | zero => exact translateLevels_visit s virtualAddress accessType 0 table _ fun _ _ => rfl
  | succ level ih =>
    exact translateLevels_visit s virtualAddress accessType (level + 1) table _ fun _ _ => ih _

theorem rootAddress_eq (s : State) : rootAddress s = BitVec.ofNat 32 (rootPpn s * 2 ^ 12) := by
  have mask (n : Nat) : n &&& 4194303 = n % 2 ^ 22 := Nat.and_two_pow_sub_one_eq_mod n 22
  apply BitVec.eq_of_toNat_eq
  simp [rootAddress,rootPpn,pteAddressBits,pageShift,Nat.shiftLeft_eq,mask]

/-- The mode is a single bit. -/
theorem memoryMode_sv32 {s : State} (h : getMemoryMode s ≠ satpModeBare) :
    getMemoryMode s = satpModeSv32 := by
  have bound := (readCsr s csrSatp).isLt
  apply BitVec.eq_of_toNat_eq
  rw [← BitVec.toNat_ne_iff_ne] at h
  simp only [getMemoryMode,BitVec.toNat_ushiftRight,Nat.shiftRight_eq_div_pow,satpModeSv32,
    satpModeBare] at h ⊢
  simp at h ⊢
  omega

/-- Below M mode with `satp.MODE = Sv32`. -/
structure Paged (s : State) : Prop where
  privilege : s.privilege = privS ∨ s.privilege = privU
  mode : (readCsr s csrSatp).getLsbD 31 = true

theorem Paged.memoryMode {s : State} (paged : Paged s) : getMemoryMode s = satpModeSv32 := by
  apply memoryMode_sv32
  intro bare
  have clear := congrArg (BitVec.getLsbD · 0) bare
  rw [getMemoryMode,BitVec.getLsbD_ushiftRight,paged.mode] at clear
  contradiction

end Emuriscv
