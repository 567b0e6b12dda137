import Emuriscv.BareMemory

/-! Which accesses of `memory.c` return. A page fault does; otherwise the physical address has
to lie in a range that can take the whole access: RAM with enough bytes left, or a device
whose callback is there and accepts the offset. -/
namespace Emuriscv

section Returns

variable {α β : Type}

/-- The computation ends in a value: no exit, no bad pointer, no loop. -/
def Returns (x : Except Stop α) : Prop := ∃ a, x = .ok a

@[simp] theorem returns_ok (a : α) : Returns (.ok a) := ⟨a,rfl⟩

@[simp] theorem not_returns_error (e : Stop) : ¬Returns (.error e : Except Stop α) := by
  rintro ⟨a,impossible⟩
  contradiction

theorem returns_bind {x : Except Stop α} {f : α → Except Stop β} :
    Returns (x >>= f) ↔ ∃ a, x = .ok a ∧ Returns (f a) := by
  cases x <;> simp

/-- A continuation that always returns adds nothing. -/
theorem returns_bind_ok {x : Except Stop α} {f : α → Except Stop β} (always : ∀ a, Returns (f a)) :
    Returns (x >>= f) ↔ Returns x := by
  rw [returns_bind]
  constructor
  · rintro ⟨a,value,_⟩
    exact ⟨a,value⟩
  · rintro ⟨a,value⟩
    exact ⟨a, value, always a⟩

end Returns

/-- The range takes a read of `2 ^ sizeLog2` bytes at an offset. -/
def MemoryRange.ServesRead (range : MemoryRange) (offset : Word) (sizeLog2 : Nat) : Prop :=
  if range.isRam then offset.toNat + 2 ^ sizeLog2 ≤ range.size.toNat
  else match range.readFunc with
    | none => False
    | some .uartRead => (offset >>> 2).toNat < 7
    | some _ => True

/-- The range takes a write; a device gets the value, not the size. -/
def MemoryRange.ServesWrite (range : MemoryRange) (vm : RiscVMachine) (offset value : Word)
    (sizeLog2 : Nat) : Prop :=
  if range.isRam then offset.toNat + 2 ^ sizeLog2 ≤ range.size.toNat
  else match range.writeFunc with
    | none => False
    | some .clintWrite => True
    -- the upper half of the command register starts the command, and 1 is the power-off
    | some .htifWrite => offset = 4 → setHighHalf vm.htifTohost value ≠ 1
    | some .uartWrite => (offset >>> 2).toNat < 7

theorem load_returns_iff (s : State) (buffer offset k : Nat) :
    Returns (s.load ⟨some buffer,offset⟩ k) ↔ offset + k < s.bufferSize buffer := by
  by_cases inside : offset + k < s.bufferSize buffer
  · simp [State.load,inside]
  · simp [State.load,inside]

theorem store_returns_iff (s : State) (buffer offset k : Nat) (value : Byte) :
    Returns (s.store ⟨some buffer,offset⟩ k value) ↔ offset + k < s.bufferSize buffer := by
  by_cases inside : offset + k < s.bufferSize buffer
  · simp [State.store,inside]
  · simp [State.store,inside]

/-- The last byte decides. -/
theorem readCommonRam_returns_iff (s : State) (buffer offset : Nat) {sizeLog2 : Nat}
    (size : sizeLog2 ≤ 2) :
    Returns (readCommonRam s ⟨some buffer,offset⟩ sizeLog2) ↔
      offset + 2 ^ sizeLog2 ≤ s.bufferSize buffer := by
  constructor
  · intro returns
    have last : Returns (s.load ⟨some buffer,offset⟩ (2 ^ sizeLog2 - 1)) := by
      unfold readCommonRam at returns
      interval_cases sizeLog2
      · obtain ⟨b0,value,_⟩ := returns_bind.mp returns
        exact ⟨b0,value⟩
      · obtain ⟨_,_,rest⟩ := returns_bind.mp returns
        obtain ⟨b1,value,_⟩ := returns_bind.mp rest
        exact ⟨b1,value⟩
      · obtain ⟨_,_,rest⟩ := returns_bind.mp returns
        obtain ⟨_,_,rest⟩ := returns_bind.mp rest
        obtain ⟨_,_,rest⟩ := returns_bind.mp rest
        obtain ⟨b3,value,_⟩ := returns_bind.mp rest
        exact ⟨b3,value⟩
    have inside := (load_returns_iff ..).mp last
    have positive := Nat.two_pow_pos sizeLog2
    omega
  · intro inside
    obtain ⟨value,read,_⟩ := readCommonRam_flat s buffer offset size inside
    exact ⟨value,read⟩

/-- The last byte is stored first. -/
theorem writeCommonRam_returns_iff (s : State) (buffer offset : Nat) (value : Word) {sizeLog2 : Nat}
    (size : sizeLog2 ≤ 2) :
    Returns (writeCommonRam s ⟨some buffer,offset⟩ value sizeLog2) ↔
      offset + 2 ^ sizeLog2 ≤ s.bufferSize buffer := by
  constructor
  · intro returns
    have last : ∃ byte, Returns (s.store ⟨some buffer,offset⟩ (2 ^ sizeLog2 - 1) byte) := by
      unfold writeCommonRam at returns
      interval_cases sizeLog2
      · exact ⟨_,returns⟩
      all_goals
        obtain ⟨t,stored,_⟩ := returns_bind.mp returns
        exact ⟨_,t,stored⟩
    obtain ⟨byte,stored⟩ := last
    have inside := (store_returns_iff ..).mp stored
    have positive := Nat.two_pow_pos sizeLog2
    omega
  · intro inside
    exact ⟨_, writeCommonRam_flat s buffer offset value size inside⟩

theorem callRead_returns_iff (range : MemoryRange) (device : range.isRam = false) (s : State)
    (offset : Word) (sizeLog2 : Nat) :
    Returns (callRead range.readFunc s offset) ↔ range.ServesRead offset sizeLog2 := by
  rw [MemoryRange.ServesRead,device,if_neg (by decide)]
  cases range.readFunc with
  | none => simp [callRead]
  | some callback =>
    cases callback with
    | clintRead => simp [callRead]
    | htifRead => simp [callRead]
    | uartRead =>
      unfold callRead uartRead
      dsimp only
      by_cases first : (offset >>> 2).toNat = uartRegTxfifo
      · rw [if_pos first,first]
        simp [uartRegTxfifo]
      · rw [if_neg first]
        split
        next inside => exact iff_of_true (returns_ok _) inside
        next outside => exact iff_of_false (not_returns_error _) outside

section Write

variable [Platform]

omit [Platform] in
theorem htifHandleCmd_returns_iff (s : State) :
    Returns (htifHandleCmd s) ↔ s.vm.htifTohost ≠ 1 := by
  unfold htifHandleCmd
  dsimp only
  by_cases off : s.vm.htifTohost = 1
  · simp [off]
  · rw [if_neg off]
    simp only [ne_eq,off,not_false_eq_true,iff_true]
    split
    next => exact returns_ok _
    next => split <;> exact returns_ok _

omit [Platform] in
theorem htifWrite_returns_iff (s : State) (offset value : Word) :
    Returns (htifWrite s offset value) ↔
      (offset = 4 → setHighHalf s.vm.htifTohost value ≠ 1) := by
  unfold htifWrite
  by_cases command : offset = 4
  · subst command
    rw [if_neg (by decide),if_pos rfl,htifHandleCmd_returns_iff]
    simp
  · simp only [command,false_implies,iff_true,if_false]
    split
    next => exact returns_ok _
    next =>
      split
      next => exact returns_ok _
      next => split <;> exact returns_ok _

omit [Platform] in
theorem uartWrite_returns_iff (s : State) (offset value : Word) :
    Returns (uartWrite s offset value) ↔ (offset >>> 2).toNat < 7 := by
  unfold uartWrite
  dsimp only
  split
  next inside =>
    refine iff_of_true ?_ inside
    split
    next => split <;> exact returns_ok _
    next => exact returns_ok _
  next outside => exact iff_of_false (not_returns_error _) outside

theorem callWrite_returns_iff (range : MemoryRange) (device : range.isRam = false) (s : State)
    (offset value : Word) (sizeLog2 : Nat) :
    Returns (callWrite range.writeFunc s offset value) ↔
      range.ServesWrite s.vm offset value sizeLog2 := by
  rw [MemoryRange.ServesWrite,device,if_neg (by decide)]
  cases range.writeFunc with
  | none => simp [callWrite]
  | some callback =>
    cases callback with
    | clintWrite => simp [callWrite]
    | htifWrite => exact htifWrite_returns_iff s offset value
    | uartWrite => exact uartWrite_returns_iff s offset value

end Write

/-- The translation of an access ends at an offset in a range, and leaves a state. -/
structure Resolves (s : State) (address : Word) (accessType : AccessType) (t : State)
    (range : RangePtr) (offset : Word) : Prop where
  translated : ∃ translation physicalAddress,
    translateAddress s address accessType = .ok translation ∧
    translation.physicalAddress = some physicalAddress ∧ translation.state = t ∧
    getPhysMemRange s.memoryMap physicalAddress = some range ∧
    offset = physicalAddress - range.entry.address

def ReadServed (s : State) (address : Word) (sizeLog2 : Nat) : Prop :=
  PageFaults s address .load ∨
    ∃ t range offset, Resolves s address .load t range offset ∧ range.entry.ServesRead offset sizeLog2

def WriteServed (s : State) (address value : Word) (sizeLog2 : Nat) : Prop :=
  PageFaults s address .store ∨
    ∃ t range offset, Resolves s address .store t range offset ∧
      range.entry.ServesWrite t.vm offset value sizeLog2

theorem Resolves.looked {s : State} (resolves : Resolves s address accessType t range offset) :
    getMemoryTarget s address accessType =
      .ok ⟨translateOk, ⟨some range, some ⟨range.physMemPtr, offset.toNat⟩⟩, t⟩ := by
  obtain ⟨translation,physicalAddress,translated,assigned,rfl,found,rfl⟩ := resolves.translated
  exact getMemoryTarget_covered translated assigned found

theorem Resolves.ramOnly {s : State} (resolves : Resolves s address accessType t range offset) :
    RamOnly s t := by
  obtain ⟨_,_,translated,_,rfl,_⟩ := resolves.translated
  exact translateAddress_ramOnly translated

theorem Resolves.bufferSize {s : State} (resolves : Resolves s address accessType t range offset) :
    t.bufferSize range.index = range.entry.size.toNat := by
  obtain ⟨translation,physicalAddress,translated,_,rfl,found,_⟩ := resolves.translated
  have map : translation.state.memoryMap = s.memoryMap := by rw [translateAddress_ramOnly translated]
  apply bufferSize_eq
  rw [map]
  exact (getPhysMemRange_spec found).1

/-- RAM takes the size of a read, and a device gets the offset only. -/
theorem Resolves.readCommon {s : State} (resolves : Resolves s address .load t range offset)
    (sizeLog2 : Nat) : readCommon s address sizeLog2 =
      (if range.entry.isRam then readCommonRam t ⟨some range.index,offset.toNat⟩ sizeLog2
        else callRead range.entry.readFunc t offset) >>= fun value => .ok (value,t) := by
  rw [Emuriscv.readCommon,resolves.looked,ok_bind,if_neg (show translateOk ≠ pageFault by decide)]
  dsimp only [MemoryTarget.pointer]
  rw [pure_eq_ok,ok_bind,RangePtr.physMemPtr,BitVec.ofNat_toNat,BitVec.setWidth_eq]
  cases range.entry.isRam <;> rfl

theorem Resolves.writeCommon [Platform] {s : State}
    (resolves : Resolves s address .store t range offset) (value : Word) (sizeLog2 : Nat) :
    writeCommon s address value sizeLog2 =
      if range.entry.isRam then writeCommonRam t ⟨some range.index,offset.toNat⟩ value sizeLog2
      else callWrite range.entry.writeFunc t offset value := by
  rw [Emuriscv.writeCommon,resolves.looked,ok_bind,if_neg (show translateOk ≠ pageFault by decide)]
  dsimp only [MemoryTarget.pointer]
  rw [pure_eq_ok,ok_bind,RangePtr.physMemPtr,BitVec.ofNat_toNat,BitVec.setWidth_eq]
  cases range.entry.isRam <;> rfl

/-- A lookup without a fault has reached a range, or found none. -/
theorem getMemoryTarget_resolves {s : State} (looked : getMemoryTarget s address accessType = .ok l)
    (quiet : ¬PageFaults s address accessType) (named : l.target.range = some range) :
    ∃ offset, Resolves s address accessType l.state range offset := by
  obtain ⟨t,physicalAddress,translated,assigned,state,found⟩ := getMemoryTarget_ok looked quiet
  have map : t.state.memoryMap = s.memoryMap := by rw [translateAddress_ramOnly translated]
  have target : l.target = (getMemoryTargetPhysical t.state physicalAddress).2 :=
    congrArg Prod.snd found
  rw [getMemoryTargetPhysical,map] at target
  cases lookup : getPhysMemRange s.memoryMap physicalAddress with
  | none =>
    rw [lookup] at target
    rw [target] at named
    contradiction
  | some other =>
    rw [lookup] at target
    rw [target] at named
    obtain rfl := Option.some.inj named
    exact ⟨_, ⟨t, physicalAddress, translated, assigned, state.symm, lookup, rfl⟩⟩

/-- What an access needs, from what it needs of the range that it resolves to. -/
theorem served_iff {s : State} {access : Except Stop β} {serves : State → RangePtr → Word → Prop}
    (quiet : ¬PageFaults s address accessType)
    (named : Returns access → ∃ l range, getMemoryTarget s address accessType = .ok l ∧
      l.target.range = some range)
    (reached : ∀ t range offset, Resolves s address accessType t range offset →
      (Returns access ↔ serves t range offset)) :
    Returns access ↔ PageFaults s address accessType ∨
      ∃ t range offset, Resolves s address accessType t range offset ∧ serves t range offset := by
  constructor
  · intro returns
    obtain ⟨l,range,looked,target⟩ := named returns
    obtain ⟨offset,resolves⟩ := getMemoryTarget_resolves looked quiet target
    exact Or.inr ⟨_, range, offset, resolves, (reached _ _ _ resolves).mp returns⟩
  · rintro (faults | ⟨t,range,offset,resolves,serves⟩)
    · exact absurd faults quiet
    · exact (reached _ _ _ resolves).mpr serves

theorem readCommon_returns_iff (s : State) (address : Word) {sizeLog2 : Nat} (size : sizeLog2 ≤ 2) :
    Returns (readCommon s address sizeLog2) ↔ ReadServed s address sizeLog2 := by
  by_cases faults : PageFaults s address .load
  · rw [readCommon_fault faults]
    exact iff_of_true (returns_ok _) (Or.inl faults)
  apply served_iff faults
  · intro returns
    obtain ⟨l,looked,rest⟩ := returns_bind.mp returns
    rw [if_neg (getMemoryTarget_status looked faults)] at rest
    cases named : l.target.range with
    | none =>
      rw [named] at rest
      exact absurd rest (not_returns_error _)
    | some range => exact ⟨l,range,looked,named⟩
  · intro t range offset resolves
    rw [resolves.readCommon,returns_bind_ok fun _ => returns_ok _]
    by_cases ram : range.entry.isRam = true
    · rw [if_pos ram,MemoryRange.ServesRead,if_pos ram,← resolves.bufferSize]
      exact readCommonRam_returns_iff _ _ _ size
    · rw [if_neg ram]
      exact callRead_returns_iff _ (eq_false_of_ne_true ram) _ _ _

theorem writeCommon_returns_iff [Platform] (s : State) (address value : Word) {sizeLog2 : Nat}
    (size : sizeLog2 ≤ 2) :
    Returns (writeCommon s address value sizeLog2) ↔ WriteServed s address value sizeLog2 := by
  by_cases faults : PageFaults s address .store
  · rw [writeCommon_fault faults]
    exact iff_of_true (returns_ok _) (Or.inl faults)
  apply served_iff faults
  · intro returns
    obtain ⟨l,looked,rest⟩ := returns_bind.mp returns
    rw [if_neg (getMemoryTarget_status looked faults)] at rest
    cases named : l.target.range with
    | none =>
      rw [named] at rest
      exact absurd rest (not_returns_error _)
    | some range => exact ⟨l,range,looked,named⟩
  · intro t range offset resolves
    rw [resolves.writeCommon]
    by_cases ram : range.entry.isRam = true
    · rw [if_pos ram,MemoryRange.ServesWrite,if_pos ram,← resolves.bufferSize]
      exact writeCommonRam_returns_iff _ _ _ _ size
    · rw [if_neg ram]
      exact callWrite_returns_iff _ (eq_false_of_ne_true ram) _ _ _ _

end Emuriscv
