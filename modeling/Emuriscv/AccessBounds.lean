import Emuriscv.Cpu
import Emuriscv.Served

/-! The accesses through a pointer that `get_memory_target_physical` returned for RAM. The lookup
saw the first byte only, so each of them stays in the buffer exactly when its last byte does. -/
namespace Emuriscv

/-- `SIZE_BYTE`, `SIZE_HALF` and `SIZE_WORD`, as the sized accesses receive them. -/
inductive AccessSize where
  | byte
  | half
  | word
  deriving DecidableEq, Repr

def AccessSize.log2 : AccessSize → Nat
  | byte => sizeByte
  | half => sizeHalf
  | word => sizeWord

theorem AccessSize.log2_le (size : AccessSize) : size.log2 ≤ 2 := by cases size <;> decide

/-- What the emulator does with the pointer of a RAM range: the sized loads and stores of the
instructions, the page-table words of the walker, and the instruction word. -/
inductive RamAccess where
  | load (size : AccessSize)
  | store (size : AccessSize) (value : Word)
  | readEntry
  | writeEntry (value : Word)
  | fetch
  deriving DecidableEq, Repr

def RamAccess.width : RamAccess → Nat
  | load size => 2 ^ size.log2
  | store size _ => 2 ^ size.log2
  | readEntry => 4
  | writeEntry _ => 4
  | fetch => 4

/-- The access as the code makes it, its result dropped. The walker looks the address up
itself; the others are handed the target. -/
def RamAccess.perform (s : State) (address : Word) (target : MemoryTarget) :
    RamAccess → Except Stop Unit
  | load size => do
    let ptr ← target.pointer
    let _ ← readCommonRam s ptr size.log2
    pure ()
  | store size value => do
    let ptr ← target.pointer
    let _ ← writeCommonRam s ptr value size.log2
    pure ()
  | readEntry => do
    let _ ← readWordPhysical s address
    pure ()
  | writeEntry value => do
    let _ ← writeWordPhysical s address value
    pure ()
  | fetch => do
    let _ ← codePtr s target
    pure ()

section Bounds

variable {α β : Type}

/-- No dereference left the buffer it pointed into. -/
def StaysInside (x : Except Stop α) : Prop := x ≠ .error .outOfBounds

/-- Leaving a buffer is all that can go wrong. -/
def OnlyBounds (x : Except Stop α) : Prop := ∀ stop, x = .error stop → stop = .outOfBounds

theorem onlyBounds_ok (a : α) : OnlyBounds (.ok a) := by
  intro stop impossible
  contradiction

theorem OnlyBounds.bind {x : Except Stop α} {f : α → Except Stop β} (first : OnlyBounds x)
    (rest : ∀ a, OnlyBounds (f a)) : OnlyBounds (x >>= f) := by
  cases x with
  | ok a => exact rest a
  | error e =>
    rintro stop ⟨⟩
    exact first e rfl

/-- The computation comes through exactly when a condition holds, and leaves a buffer otherwise. -/
structure Guarded (x : Except Stop α) (inside : Prop) : Prop where
  returns : inside → Returns x
  leaves : ¬inside → x = .error .outOfBounds

theorem OnlyBounds.guarded {x : Except Stop α} {inside : Prop} (only : OnlyBounds x)
    (returns : Returns x ↔ inside) : Guarded x inside := by
  refine ⟨returns.mpr, fun outside => ?_⟩
  cases x with
  | ok a => exact absurd (returns.mp (returns_ok a)) outside
  | error e => rw [only e rfl]

theorem Guarded.dropped {x : Except Stop α} {inside : Prop} (guarded : Guarded x inside) :
    Guarded (x >>= fun _ => pure ()) inside := by
  refine ⟨fun holds => ?_, fun outside => ?_⟩
  · obtain ⟨a,value⟩ := guarded.returns holds
    exact ⟨(), by rw [value]; rfl⟩
  · rw [guarded.leaves outside,error_bind]

theorem Guarded.stays_iff {x : Except Stop α} {inside : Prop} (guarded : Guarded x inside) :
    StaysInside x ↔ inside := by
  constructor
  · intro stays
    by_contra outside
    exact stays (guarded.leaves outside)
  · intro holds left
    obtain ⟨a,value⟩ := guarded.returns holds
    rw [value] at left
    contradiction

theorem load_onlyBounds (s : State) (buffer offset k : Nat) :
    OnlyBounds (s.load ⟨some buffer,offset⟩ k) := by
  intro stop failed
  simp only [State.load] at failed
  split at failed
  next => contradiction
  next => exact (Except.error.inj failed).symm

theorem store_onlyBounds (s : State) (buffer offset k : Nat) (value : Byte) :
    OnlyBounds (s.store ⟨some buffer,offset⟩ k value) := by
  intro stop failed
  simp only [State.store] at failed
  split at failed
  next => contradiction
  next => exact (Except.error.inj failed).symm

end Bounds

theorem readCommonRam_guarded (s : State) (buffer offset : Nat) (size : AccessSize) :
    Guarded (readCommonRam s ⟨some buffer,offset⟩ size.log2)
      (offset + 2 ^ size.log2 ≤ s.bufferSize buffer) := by
  have byte (k : Nat) := load_onlyBounds s buffer offset k
  refine OnlyBounds.guarded ?_ (readCommonRam_returns_iff s buffer offset size.log2_le)
  cases size with
  | byte => exact (byte 0).bind fun _ => onlyBounds_ok _
  | half => exact (byte 0).bind fun _ => (byte 1).bind fun _ => onlyBounds_ok _
  | word =>
    exact (byte 0).bind fun _ => (byte 1).bind fun _ => (byte 2).bind fun _ =>
      (byte 3).bind fun _ => onlyBounds_ok _

theorem writeCommonRam_guarded (s : State) (buffer offset : Nat) (value : Word)
    (size : AccessSize) :
    Guarded (writeCommonRam s ⟨some buffer,offset⟩ value size.log2)
      (offset + 2 ^ size.log2 ≤ s.bufferSize buffer) := by
  have byte (t : State) (k : Nat) (b : Byte) := store_onlyBounds t buffer offset k b
  refine OnlyBounds.guarded ?_ (writeCommonRam_returns_iff s buffer offset value size.log2_le)
  cases size with
  | byte => exact byte s 0 _
  | half => exact (byte s 1 _).bind fun t => byte t 0 _
  | word =>
    exact (byte s 3 _).bind fun t => (byte t 2 _).bind fun t => (byte t 1 _).bind fun t =>
      byte t 0 _

theorem codePtr_guarded {s : State} {target : MemoryTarget}
    (pointer : target.ptr = some ⟨some buffer,offset⟩) :
    Guarded (codePtr s target) (offset + 4 ≤ s.bufferSize buffer) := by
  unfold codePtr MemoryTarget.pointer
  rw [pointer]
  refine ⟨fun inside => ⟨⟨buffer,offset⟩,?_⟩, fun outside => ?_⟩
  · exact if_pos inside
  · exact if_neg outside

/-- The pointer leads to the byte of the range's own buffer that the address names. -/
theorem getMemoryTargetPhysical_ram {s : State} {target : MemoryTarget} {range : RangePtr}
    (found : getMemoryTargetPhysical s address = (translateOk,target))
    (named : target.range = some range) (ram : range.entry.isRam = true) :
    getPhysMemRange s.memoryMap address = some range ∧
      target.ptr = some ⟨some range.index, (address - range.entry.address).toNat⟩ := by
  unfold getMemoryTargetPhysical at found
  cases looked : getPhysMemRange s.memoryMap address with
  | none =>
    rw [looked] at found
    cases found
  | some other =>
    rw [looked] at found
    obtain rfl := congrArg Prod.snd found
    obtain rfl := Option.some.inj named
    exact ⟨rfl, by simp [RangePtr.physMemPtr,ram]⟩

/-- The last byte of the access decides whether it comes through. -/
theorem perform_guarded {s : State} {target : MemoryTarget} {range : RangePtr}
    (found : getMemoryTargetPhysical s address = (translateOk,target))
    (named : target.range = some range) (ram : range.entry.isRam = true) (access : RamAccess) :
    Guarded (access.perform s address target)
      ((address - range.entry.address).toNat + access.width ≤ range.entry.size.toNat) := by
  obtain ⟨looked,pointer⟩ := getMemoryTargetPhysical_ram found named ram
  have handed : target.pointer =
      .ok ⟨some range.index, (address - range.entry.address).toNat⟩ := by
    rw [MemoryTarget.pointer,pointer]
    rfl
  rw [← bufferSize_eq (getPhysMemRange_spec looked).1]
  cases access with
  | load size =>
    rw [RamAccess.perform,handed,ok_bind]
    exact (readCommonRam_guarded s _ _ size).dropped
  | store size value =>
    rw [RamAccess.perform,handed,ok_bind]
    exact (writeCommonRam_guarded s _ _ value size).dropped
  | readEntry =>
    rw [RamAccess.perform,readWordPhysical,found]
    dsimp only
    rw [handed,ok_bind]
    exact (readCommonRam_guarded s _ _ .word).dropped
  | writeEntry value =>
    rw [RamAccess.perform,writeWordPhysical,found]
    dsimp only
    rw [handed,ok_bind]
    exact (writeCommonRam_guarded s _ _ value .word).dropped
  | fetch => exact (codePtr_guarded pointer).dropped

/-- An access stays in its buffer exactly when it ends no later than its range. -/
theorem perform_inside_iff {s : State} {target : MemoryTarget} {range : RangePtr}
    (found : getMemoryTargetPhysical s address = (translateOk,target))
    (named : target.range = some range) (ram : range.entry.isRam = true) (access : RamAccess) :
    StaysInside (access.perform s address target) ↔
      address.toNat + access.width ≤ range.entry.address.toNat + range.entry.size.toNat := by
  obtain ⟨low,_⟩ := getPhysMemRange_covers (getMemoryTargetPhysical_ram found named ram).1
  rw [(perform_guarded found named ram access).stays_iff,BitVec.toNat_sub_of_le low]
  omega

/-- The word load that ends with the range. -/
theorem perform_inside_last : StaysInside (RamAccess.perform (guest 3 []) 0x8000fffc
    ⟨some ⟨0,⟨0x80000000,0x10000,true,none,none⟩⟩, some ⟨some 0,0xfffc⟩⟩ (.load .word)) :=
  (perform_inside_iff rfl rfl rfl (.load .word)).mpr (by decide)

/-- From one byte further on the load reads past the buffer, though the lookup succeeds. -/
theorem perform_leaves : ∃ target range,
    getMemoryTargetPhysical (guest 3 []) 0x8000fffd = (translateOk,target) ∧
    target.range = some range ∧ range.entry.isRam = true ∧
    ¬StaysInside (RamAccess.perform (guest 3 []) 0x8000fffd target (.load .word)) := by
  refine ⟨⟨some ⟨0,⟨0x80000000,0x10000,true,none,none⟩⟩, some ⟨some 0,0xfffd⟩⟩, _, rfl, rfl, rfl, ?_⟩
  intro stays
  exact stays rfl

end Emuriscv
