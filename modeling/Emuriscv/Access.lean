import Emuriscv.PageFlags

/-! One data access of an instruction handler. It ends in a page fault that is left pending,
with nothing else changed, or it reaches a range and leaves no fault. Which of the two
depends on the page tables alone, not on the kind of access. -/
namespace Emuriscv

/-- The translation of an access ends in `PAGE_FAULT`. -/
def PageFaults (s : State) (virtualAddress : Word) (accessType : AccessType) : Prop :=
  ∃ t, translateAddress s virtualAddress accessType = .ok t ∧ t.result = pageFault

/-- The pending fields as `get_memory_target` leaves them after a page fault. -/
def pendFault (s : State) (virtualAddress : Word) (accessType : AccessType) : State :=
  { s with
    pendingException := pageFaultCause accessType
    pendingTval := virtualAddress
    hasPendingException := true }

/-- The access type plays no part in the decision. -/
theorem pageFaults_iff (s : State) (virtualAddress : Word) (accessType : AccessType) :
    PageFaults s virtualAddress accessType ↔
      Walks s ∧ (busWalk s virtualAddress).MeetsInvalid := by
  constructor
  · rintro ⟨t,translated,fault⟩
    rcases translateAddress_ok translated with
      ⟨_,rfl⟩ | ⟨walks,invalid,_⟩ | ⟨_,_,rfl⟩ | ⟨_,_,_,_,_,rfl⟩
    · contradiction
    · exact ⟨walks,invalid⟩
    · contradiction
    · contradiction
  · rintro ⟨walks,level,address,entry,invalid⟩
    refine ⟨⟨pageFault,none,s⟩, ?_, rfl⟩
    rw [translateAddress_walks walks,invalid]
    rfl

/-- The parts of the state that translation reads. -/
structure SameTables (s t : State) : Prop where
  privilege : t.privilege = s.privilege
  satp : readCsr t csrSatp = readCsr s csrSatp
  memoryMap : t.memoryMap = s.memoryMap
  ram : t.ram = s.ram

theorem SameTables.pageFaults {s t : State} (same : SameTables s t) :
    PageFaults t virtualAddress accessType ↔ PageFaults s virtualAddress accessType := by
  rw [pageFaults_iff,pageFaults_iff,busWalk_congr same.memoryMap same.ram same.satp]
  rw [Walks,Walks,same.privilege,getMemoryMode,getMemoryMode,same.satp]

/-- A translation stores at most page-table flags. -/
theorem translateAddress_ramOnly {s : State}
    (h : translateAddress s virtualAddress accessType = .ok t) : RamOnly s t.state := by
  rcases translateAddress_ok h with ⟨_,rfl⟩ | ⟨_,_,rfl⟩ | ⟨_,_,rfl⟩ | ⟨_,_,_,_,_,rfl⟩
  · exact .refl s
  · exact .refl s
  · exact .refl s
  · exact markEntry_ramOnly ..

theorem translateAddress_result {s : State}
    (h : translateAddress s virtualAddress accessType = .ok t)
    (quiet : ¬PageFaults s virtualAddress accessType) : t.result = translateOk := by
  rcases translateAddress_ok h with ⟨_,rfl⟩ | ⟨_,_,rfl⟩ | ⟨_,_,rfl⟩ | ⟨_,_,_,_,_,rfl⟩
  · rfl
  · exact absurd ⟨_,h,rfl⟩ quiet
  · rfl
  · rfl

/-- An address that translates once does not fault in the state that this leaves, for any
access type: a read-modify-write cannot fault in its second half alone. -/
theorem translateAddress_again {s : State}
    (h : translateAddress s virtualAddress accessType = .ok t)
    (quiet : ¬PageFaults s virtualAddress accessType) (again : AccessType) :
    ¬PageFaults t.state virtualAddress again := by
  rcases translateAddress_ok h with
    ⟨_,rfl⟩ | ⟨_,_,rfl⟩ | ⟨_,_,rfl⟩ | ⟨level,address,entry,_,leaf,rfl⟩
  · rwa [pageFaults_iff,← pageFaults_iff s virtualAddress accessType]
  · rwa [pageFaults_iff,← pageFaults_iff s virtualAddress accessType]
  · rwa [pageFaults_iff,← pageFaults_iff s virtualAddress accessType]
  · rw [pageFaults_iff,busWalk_markEntry leaf]
    rintro ⟨_,_,_,_,invalid⟩
    contradiction

theorem getMemoryTarget_fault {s : State} (faults : PageFaults s virtualAddress accessType) :
    getMemoryTarget s virtualAddress accessType =
      .ok ⟨pageFault, ⟨none,none⟩, pendFault s virtualAddress accessType⟩ := by
  obtain ⟨t,translated,fault⟩ := faults
  have same := translateAddress_fault translated fault
  rw [getMemoryTarget,translated,ok_bind,if_pos fault,fault,same]
  rfl

/-- Without a fault the status is that of the physical lookup, never `PAGE_FAULT`. -/
theorem getMemoryTarget_ok {s : State} (h : getMemoryTarget s virtualAddress accessType = .ok l)
    (quiet : ¬PageFaults s virtualAddress accessType) :
    ∃ t physicalAddress, translateAddress s virtualAddress accessType = .ok t ∧
      t.physicalAddress = some physicalAddress ∧ l.state = t.state ∧
      (l.status,l.target) = getMemoryTargetPhysical t.state physicalAddress := by
  obtain ⟨t,translated,rest⟩ := bind_eq_ok.mp h
  have ok := translateAddress_result translated quiet
  rw [if_neg (by rw [ok]; decide)] at rest
  cases assigned : t.physicalAddress with
  | none =>
    rw [assigned] at rest
    contradiction
  | some physicalAddress =>
    rw [assigned] at rest
    obtain rfl := Except.ok.inj rest
    exact ⟨t, physicalAddress, translated, assigned, rfl, rfl⟩

/-- An assigned address comes with success. -/
theorem translateAddress_assigned {s : State}
    (h : translateAddress s virtualAddress accessType = .ok t)
    (assigned : t.physicalAddress = some physicalAddress) : t.result = translateOk := by
  rcases translateAddress_ok h with ⟨_,rfl⟩ | ⟨_,_,rfl⟩ | ⟨_,_,rfl⟩ | ⟨_,_,_,_,_,rfl⟩
  · rfl
  · contradiction
  · rfl
  · rfl

theorem getMemoryTarget_assigned {s : State}
    (h : translateAddress s virtualAddress accessType = .ok t)
    (assigned : t.physicalAddress = some physicalAddress) :
    getMemoryTarget s virtualAddress accessType =
      .ok ⟨(getMemoryTargetPhysical t.state physicalAddress).1,
        (getMemoryTargetPhysical t.state physicalAddress).2, t.state⟩ := by
  have ok : t.result ≠ pageFault := by
    rw [translateAddress_assigned h assigned]
    decide
  rw [getMemoryTarget,h,ok_bind,if_neg ok,assigned]
  rfl

/-- A failed lookup is reported as -2, with nothing stored in the target. -/
theorem getMemoryTarget_uncovered {s : State}
    (h : translateAddress s virtualAddress accessType = .ok t)
    (assigned : t.physicalAddress = some physicalAddress)
    (outside : getPhysMemRange s.memoryMap physicalAddress = none) :
    getMemoryTarget s virtualAddress accessType = .ok ⟨-2, ⟨none,none⟩, t.state⟩ := by
  have map : t.state.memoryMap = s.memoryMap := by rw [translateAddress_ramOnly h]
  rw [getMemoryTarget_assigned h assigned]
  simp only [getMemoryTargetPhysical,map,outside]

theorem getMemoryTarget_covered {s : State}
    (h : translateAddress s virtualAddress accessType = .ok t)
    (assigned : t.physicalAddress = some physicalAddress)
    (found : getPhysMemRange s.memoryMap physicalAddress = some range) :
    getMemoryTarget s virtualAddress accessType = .ok ⟨translateOk,
      ⟨some range, some ⟨range.physMemPtr, (physicalAddress - range.entry.address).toNat⟩⟩,
      t.state⟩ := by
  have map : t.state.memoryMap = s.memoryMap := by rw [translateAddress_ramOnly h]
  rw [getMemoryTarget_assigned h assigned]
  simp only [getMemoryTargetPhysical,map,found]

theorem getMemoryTargetPhysical_status (s : State) (physicalAddress : Word) :
    (getMemoryTargetPhysical s physicalAddress).1 ≠ pageFault := by
  unfold getMemoryTargetPhysical
  split
  next => decide
  next => exact show translateOk ≠ pageFault by decide

theorem getMemoryTargetPhysical_outside {s : State}
    (failed : (getMemoryTargetPhysical s physicalAddress).1 ≠ translateOk) :
    getPhysMemRange s.memoryMap physicalAddress = none := by
  unfold getMemoryTargetPhysical at failed
  split at failed
  next outside => exact outside
  next => exact absurd rfl failed

theorem getMemoryTarget_status {s : State}
    (h : getMemoryTarget s virtualAddress accessType = .ok l)
    (quiet : ¬PageFaults s virtualAddress accessType) : l.status ≠ pageFault := by
  obtain ⟨t,physicalAddress,_,_,_,found⟩ := getMemoryTarget_ok h quiet
  rw [show l.status = (getMemoryTargetPhysical t.state physicalAddress).1 from congrArg Prod.fst found]
  exact getMemoryTargetPhysical_status _ _

/-- What a lookup leaves when nothing faults. -/
theorem getMemoryTarget_quiet {s : State}
    (h : getMemoryTarget s virtualAddress accessType = .ok l)
    (quiet : ¬PageFaults s virtualAddress accessType) :
    RamOnly s l.state ∧ ∀ again, ¬PageFaults l.state virtualAddress again := by
  obtain ⟨t,_,translated,_,state,_⟩ := getMemoryTarget_ok h quiet
  rw [state]
  exact ⟨translateAddress_ramOnly translated, translateAddress_again translated quiet⟩

theorem readCommon_fault {s : State} (faults : PageFaults s address .load) (sizeLog2 : Nat) :
    readCommon s address sizeLog2 = .ok (-1, pendFault s address .load) := by
  rw [readCommon,getMemoryTarget_fault faults,ok_bind]
  rfl

/-- The state after a read is the state after its lookup. -/
theorem readCommon_looked {s : State} (h : readCommon s address sizeLog2 = .ok (value,t))
    (quiet : ¬PageFaults s address .load) :
    ∃ l, getMemoryTarget s address .load = .ok l ∧ t = l.state := by
  obtain ⟨l,looked,rest⟩ := bind_eq_ok.mp h
  rw [if_neg (getMemoryTarget_status looked quiet)] at rest
  split at rest
  next => contradiction
  next range _ =>
    obtain ⟨ptr,_,rest⟩ := bind_eq_ok.mp rest
    dsimp only at rest
    split at rest
    all_goals
      obtain ⟨_,_,rest⟩ := bind_eq_ok.mp rest
      exact ⟨l, looked, (Prod.mk.inj (Except.ok.inj rest)).2.symm⟩

theorem readCommon_quiet {s : State} (h : readCommon s address sizeLog2 = .ok (value,t))
    (quiet : ¬PageFaults s address .load) :
    RamOnly s t ∧ ∀ again, ¬PageFaults t address again := by
  obtain ⟨l,looked,rfl⟩ := readCommon_looked h quiet
  exact getMemoryTarget_quiet looked quiet

/-- It is also the state after its translation. -/
theorem readCommon_translated {s : State} (h : readCommon s address sizeLog2 = .ok (value,t))
    (quiet : ¬PageFaults s address .load) :
    ∃ translation, translateAddress s address .load = .ok translation ∧ t = translation.state := by
  obtain ⟨l,looked,rfl⟩ := readCommon_looked h quiet
  obtain ⟨translation,_,translated,_,state,_⟩ := getMemoryTarget_ok looked quiet
  exact ⟨translation,translated,state⟩

/-- A write may reach RAM, a device or, through the CLINT, `mip`. -/
structure WriteFrame (s t : State) : Prop where
  rest : t = { s with csr := t.csr, ram := t.ram, vm := t.vm, uart := t.uart, console := t.console }
  csr : ∀ number, number ≠ csrMip → t.csr number = s.csr number

theorem RamOnly.writeFrame {s t : State} (only : RamOnly s t) : WriteFrame s t := by
  rw [only]
  exact ⟨rfl, fun _ _ => rfl⟩

theorem WriteFrame.trans {s t u : State} (first : WriteFrame s t) (second : WriteFrame t u) :
    WriteFrame s u := by
  refine ⟨?_, fun number other => (second.csr number other).trans (first.csr number other)⟩
  rw [second.rest,first.rest]

/-- A device changes itself, the console or, through the CLINT, `mip`, but no guest RAM. -/
structure DeviceFrame (s t : State) : Prop where
  rest : t = { s with csr := t.csr, vm := t.vm, uart := t.uart, console := t.console }
  csr : ∀ number, number ≠ csrMip → t.csr number = s.csr number

theorem DeviceFrame.refl (s : State) : DeviceFrame s s := ⟨rfl, fun _ _ => rfl⟩

theorem DeviceFrame.trans {s t u : State} (first : DeviceFrame s t) (second : DeviceFrame t u) :
    DeviceFrame s u := by
  refine ⟨?_, fun number other => (second.csr number other).trans (first.csr number other)⟩
  rw [second.rest,first.rest]

theorem DeviceFrame.writeFrame {s t : State} (frame : DeviceFrame s t) : WriteFrame s t := by
  refine ⟨?_,frame.csr⟩
  rw [frame.rest]

theorem DeviceFrame.ram {s t : State} (frame : DeviceFrame s t) : t.ram = s.ram := by
  rw [frame.rest]

theorem store_ramOnly {s : State} (h : s.store p k value = .ok t) : RamOnly s t := by
  unfold State.store at h
  split at h
  next => contradiction
  next =>
    split at h
    next =>
      obtain rfl := Except.ok.inj h
      rfl
    next => contradiction

theorem writeCommonRam_ramOnly {s : State} (h : writeCommonRam s p value sizeLog2 = .ok t) :
    RamOnly s t := by
  unfold writeCommonRam at h
  dsimp only at h
  split at h
  next =>
    obtain ⟨a,first,h⟩ := bind_eq_ok.mp h
    obtain ⟨b,second,h⟩ := bind_eq_ok.mp h
    obtain ⟨c,third,h⟩ := bind_eq_ok.mp h
    exact (store_ramOnly first).trans <| (store_ramOnly second).trans <|
      (store_ramOnly third).trans (store_ramOnly h)
  next =>
    obtain ⟨a,first,h⟩ := bind_eq_ok.mp h
    exact (store_ramOnly first).trans (store_ramOnly h)
  next => exact store_ramOnly h
  next => contradiction

theorem vm_frame (s : State) (vm : RiscVMachine) : DeviceFrame s { s with vm := vm } :=
  ⟨rfl, fun _ _ => rfl⟩

theorem htifHandleCmd_frame {s : State} (h : htifHandleCmd s = .ok t) : DeviceFrame s t := by
  unfold htifHandleCmd at h
  dsimp only at h
  split at h
  next => contradiction
  next =>
    split at h
    next =>
      rw [← Except.ok.inj h]
      exact ⟨rfl, fun _ _ => rfl⟩
    next =>
      split at h
      next =>
        rw [← Except.ok.inj h]
        exact vm_frame s _
      next =>
        rw [← Except.ok.inj h]
        exact .refl s

theorem htifWrite_frame {s : State} (h : htifWrite s offset value = .ok t) : DeviceFrame s t := by
  unfold htifWrite at h
  split at h
  next =>
    rw [← Except.ok.inj h]
    exact vm_frame s _
  next =>
    split at h
    next => exact (vm_frame s _).trans (htifHandleCmd_frame h)
    next =>
      split at h
      next =>
        rw [← Except.ok.inj h]
        exact vm_frame s _
      next =>
        split at h
        next =>
          rw [← Except.ok.inj h]
          exact vm_frame s _
        next =>
          rw [← Except.ok.inj h]
          exact .refl s

theorem uartWrite_frame {s : State} (h : uartWrite s offset value = .ok t) : DeviceFrame s t := by
  unfold uartWrite at h
  dsimp only at h
  split at h
  next =>
    split at h
    next =>
      split at h <;> rw [← Except.ok.inj h] <;> exact ⟨rfl, fun _ _ => rfl⟩
    next =>
      rw [← Except.ok.inj h]
      exact ⟨rfl, fun _ _ => rfl⟩
  next => contradiction

section Write

variable [Platform]

theorem resetMip_frame (s : State) (mask : Word) : DeviceFrame s (resetMip s mask) :=
  ⟨rfl, fun number other => writeCsr_other s csrMip number _ other⟩

theorem clintWrite_frame (s : State) (offset value : Word) :
    DeviceFrame s (clintWrite s offset value) := by
  unfold clintWrite
  split
  next => exact (vm_frame s _).trans (resetMip_frame _ mipMtip)
  next =>
    split
    next => exact (vm_frame s _).trans (resetMip_frame _ mipMtip)
    next => exact .refl s

theorem callWrite_frame {s : State} (h : callWrite f s offset value = .ok t) : DeviceFrame s t := by
  match f, h with
  | some .clintWrite, h =>
    rw [← Except.ok.inj h]
    exact clintWrite_frame s offset value
  | some .htifWrite, h => exact htifWrite_frame h
  | some .uartWrite, h => exact uartWrite_frame h

theorem writeCommon_fault {s : State} (faults : PageFaults s address .store) (value : Word)
    (sizeLog2 : Nat) :
    writeCommon s address value sizeLog2 = .ok (pendFault s address .store) := by
  rw [writeCommon,getMemoryTarget_fault faults,ok_bind]
  rfl

theorem writeCommon_quiet {s : State} (h : writeCommon s address value sizeLog2 = .ok t)
    (quiet : ¬PageFaults s address .store) : WriteFrame s t := by
  obtain ⟨l,looked,rest⟩ := bind_eq_ok.mp h
  have only := (getMemoryTarget_quiet looked quiet).1
  rw [if_neg (getMemoryTarget_status looked quiet)] at rest
  split at rest
  next => contradiction
  next range _ =>
    obtain ⟨ptr,_,rest⟩ := bind_eq_ok.mp rest
    split at rest
    next => exact (only.trans (writeCommonRam_ramOnly rest)).writeFrame
    next => exact only.writeFrame.trans (callWrite_frame rest).writeFrame

end Write

end Emuriscv
