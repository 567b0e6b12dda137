import Emuriscv.Exception
import Emuriscv.ContiguousMask
import Emuriscv.Bytes

/-! What one trap does to the hart, and what the return of the mode that took it restores.
Trap entry builds the new `mstatus` from the run status, so both results hold exactly
where the two words agree on the bits in question. -/
namespace Emuriscv

namespace Mstatus

def sie : BitField.Field 32 := { lo := 1, len := 1 }
def mie : BitField.Field 32 := { lo := 3, len := 1 }
def spie : BitField.Field 32 := { lo := 5, len := 1 }
def mpie : BitField.Field 32 := { lo := 7, len := 1 }
def spp : BitField.Field 32 := { lo := 8, len := 1 }
def mpp : BitField.Field 32 := { lo := 11, len := 2 }
def tsr : BitField.Field 32 := { lo := 22, len := 1 }

end Mstatus

theorem mstatusSie_mask : mstatusSie = Mstatus.sie.mask := rfl
theorem mstatusMie_mask : mstatusMie = Mstatus.mie.mask := rfl
theorem mstatusSpie_mask : mstatusSpie = Mstatus.spie.mask := rfl
theorem mstatusMpie_mask : mstatusMpie = Mstatus.mpie.mask := rfl
theorem mstatusSpp_mask : mstatusSpp = Mstatus.spp.mask := rfl
theorem mstatusMpp_mask : mstatusMpp = Mstatus.mpp.mask := rfl
theorem mstatusTsr_mask : mstatusTsr = Mstatus.tsr.mask := rfl

theorem getField_eq (reg mask : Word) : getField reg mask = BitField.get reg mask := rfl

theorem setField_eq (reg mask val : Word) : setField reg mask val = BitField.set reg mask val := rfl

/-- The macros write and read back what fits, leave the rest, and do not disturb each other. -/
theorem setField_laws (reg mask val : Word) (contiguous : BitField.Contiguous mask) :
    (getField (setField reg mask val) mask).toNat = val.toNat % 2 ^ mask.cpop.toNat ∧
      setField reg mask val &&& ~~~mask = reg &&& ~~~mask ∧
      setField reg mask (getField reg mask) = reg ∧
      ∀ mask' val', mask &&& mask' = 0 →
        setField (setField reg mask val) mask' val' = setField (setField reg mask' val') mask val := by
  simp only [getField_eq,setField_eq]
  refine ⟨contiguous.get_set reg val, ?_, contiguous.set_get reg,
    fun mask' val' disjoint => BitField.set_comm reg disjoint val val'⟩
  exact BitField.set_outside reg val mask (~~~mask) (by simp)

/-- The sign bit is a mask too. -/
theorem setField_laws_sign : (getField (setField 0x1888 0x80000000 7) 0x80000000).toNat = 1 ∧
    setField (setField 0x1888 0x80000000 7) mstatusMpp privS =
      setField (setField 0x1888 mstatusMpp privS) 0x80000000 7 := by
  obtain ⟨read,_,_,commute⟩ :=
    setField_laws 0x1888 _ 7 (BitField.contiguous_mask { lo := 31, len := 1 })
  exact ⟨read, commute mstatusMpp privS rfl⟩

/-- The four CSRs of a mode that a trap uses. -/
structure TrapCsrs where
  tvec : CsrNumber
  epc : CsrNumber
  cause : CsrNumber
  tval : CsrNumber
  deriving DecidableEq, Repr

def sTrapCsrs : TrapCsrs := ⟨csrStvec,csrSepc,csrScause,csrStval⟩
def mTrapCsrs : TrapCsrs := ⟨csrMtvec,csrMepc,csrMcause,csrMtval⟩

/-- The CSRs that describe a trap, of its own mode and of the other. -/
def trapCsrs (target other : TrapCsrs) : List CsrNumber :=
  [target.epc,target.cause,target.tval,other.epc,other.cause,other.tval]

theorem sTrapCsrs_apart : (csrMstatus :: trapCsrs sTrapCsrs mTrapCsrs).Nodup := by
  simp [trapCsrs,sTrapCsrs,mTrapCsrs,csrMstatus,csrSepc,csrScause,csrStval,csrMepc,csrMcause,csrMtval]

theorem mTrapCsrs_apart : (csrMstatus :: trapCsrs mTrapCsrs sTrapCsrs).Nodup := by
  simp [trapCsrs,sTrapCsrs,mTrapCsrs,csrMstatus,csrSepc,csrScause,csrStval,csrMepc,csrMcause,csrMtval]

/-- A trap into the mode that owns the given CSRs. -/
def enterTrap (s : State) (target : TrapCsrs) (privilege status cause tval : Word) : State :=
  { s with
    pc := readCsr s target.tvec
    csr := Function.update (Function.update (Function.update (Function.update s.csr
      target.epc (s.pc - 4)) target.cause cause) target.tval tval) csrMstatus status
    privilege := privilege
    pendingTval := 0
    pendingException := 0
    hasPendingException := false
    traps := ⟨s.pc,cause,tval⟩ :: s.traps }

theorem raiseException_delegated (s : State) (cause tval : Word) (delegated : trapsToSMode s cause) :
    raiseException s cause tval = enterTrap s sTrapCsrs privS (sTrapStatus s) cause tval := by
  change (if trapsToSMode s cause then _ else _) = _
  rw [if_pos delegated]
  rfl

theorem raiseException_direct (s : State) (cause tval : Word) (direct : ¬trapsToSMode s cause) :
    raiseException s cause tval = enterTrap s mTrapCsrs privM (mTrapStatus s) cause tval := by
  change (if trapsToSMode s cause then _ else _) = _
  rw [if_neg direct]
  -- the source stores `mcause` before `mepc`
  have order := Function.update_comm (show csrMcause ≠ csrMepc by decide) cause (s.pc - 4) s.csr
  simp only [enterTrap,mTrapCsrs,← order]
  rfl

theorem raiseException_cases (s : State) (cause tval : Word) :
    (trapsToSMode s cause = true ∧
      raiseException s cause tval = enterTrap s sTrapCsrs privS (sTrapStatus s) cause tval) ∨
    (trapsToSMode s cause = false ∧
      raiseException s cause tval = enterTrap s mTrapCsrs privM (mTrapStatus s) cause tval) := by
  cases mode : trapsToSMode s cause with
  | true => exact Or.inl ⟨rfl, raiseException_delegated s cause tval mode⟩
  | false => exact Or.inr ⟨rfl, raiseException_direct s cause tval (by simp [mode])⟩

/-- Registers, reservation and guest memory are not part of a trap. -/
theorem raiseException_frame (s : State) (cause tval : Word) :
    (raiseException s cause tval).x = s.x ∧ (raiseException s cause tval).ram = s.ram ∧
      (raiseException s cause tval).loadReservation = s.loadReservation := by
  rcases raiseException_cases s cause tval with ⟨_,entered⟩ | ⟨_,entered⟩ <;>
    rw [entered] <;> exact ⟨rfl,rfl,rfl⟩

theorem raiseException_traps (s : State) (cause tval : Word) :
    (raiseException s cause tval).traps = ⟨s.pc,cause,tval⟩ :: s.traps := by
  rcases raiseException_cases s cause tval with ⟨_,entered⟩ | ⟨_,entered⟩ <;> rw [entered] <;> rfl

theorem raiseException_counter (s : State) (cause tval : Word) :
    (raiseException s cause tval).instructionCounter = s.instructionCounter := by
  rcases raiseException_cases s cause tval with ⟨_,entered⟩ | ⟨_,entered⟩ <;> rw [entered] <;> rfl

theorem raiseException_pending (s : State) (cause tval : Word) :
    (raiseException s cause tval).hasPendingException = false := by
  rcases raiseException_cases s cause tval with ⟨_,entered⟩ | ⟨_,entered⟩ <;> rw [entered] <;> rfl

theorem enterTrap_csr (s : State) (target : TrapCsrs) (privilege status cause tval : Word)
    (number : CsrNumber) : readCsr (enterTrap s target privilege status cause tval) number =
      if number = csrMstatus then status else if number = target.tval then tval
      else if number = target.cause then cause else if number = target.epc then s.pc - 4
      else readCsr s number := by
  simp only [readCsr,enterTrap,Function.update_apply]

/-- The CSRs that some trap writes. -/
def trapWritten : List CsrNumber :=
  [csrMstatus,csrSepc,csrScause,csrStval,csrMepc,csrMcause,csrMtval]

theorem raiseException_csr (s : State) (cause tval : Word) (outside : number ∉ trapWritten) :
    readCsr (raiseException s cause tval) number = readCsr s number := by
  simp only [trapWritten,List.mem_cons,List.not_mem_nil,or_false,not_or] at outside
  rcases raiseException_cases s cause tval with ⟨_,entered⟩ | ⟨_,entered⟩ <;>
    rw [entered,enterTrap_csr] <;> simp [sTrapCsrs,mTrapCsrs,outside]

@[simp] theorem enterTrap_mstatus (s : State) (target : TrapCsrs) (privilege status cause tval : Word) :
    readCsr (enterTrap s target privilege status cause tval) csrMstatus = status := by
  simp [enterTrap_csr]

/-- The CSRs of the target describe the trap, those of the other mode are kept. -/
theorem enterTrap_trapCsrs (s : State) {target other : TrapCsrs} (privilege status cause tval : Word)
    (apart : (csrMstatus :: trapCsrs target other).Nodup) :
    (trapCsrs target other).map (readCsr (enterTrap s target privilege status cause tval)) =
      [s.pc - 4, cause, tval, readCsr s other.epc, readCsr s other.cause, readCsr s other.tval] := by
  simp only [trapCsrs,List.nodup_cons,List.mem_cons,List.not_mem_nil,or_false,not_or] at apart
  simp only [trapCsrs,List.map_cons,List.map_nil,enterTrap_csr]
  grind

/-- The fields of `mstatus` that stack the context of the mode a trap goes to. -/
def trapStack (s : State) (cause : Word) : Word :=
  if trapsToSMode s cause then mstatusSpp ||| mstatusSpie ||| mstatusSie
  else mstatusMpp ||| mstatusMpie ||| mstatusMie

/-- Outside these fields, trap entry leaves `mstatus` as it was. -/
def KeepsOtherFields (s : State) (cause tval : Word) : Prop :=
  readCsr (raiseException s cause tval) csrMstatus &&& ~~~trapStack s cause =
    readCsr s csrMstatus &&& ~~~trapStack s cause

/-- Outside the trap stack, the new `mstatus` is the run status. -/
theorem raiseException_outside (s : State) (cause tval : Word) :
    readCsr (raiseException s cause tval) csrMstatus &&& ~~~trapStack s cause =
      s.status.toWord &&& ~~~trapStack s cause := by
  rcases raiseException_cases s cause tval with ⟨mode,entered⟩ | ⟨mode,entered⟩
  · rw [entered,enterTrap_mstatus,trapStack,if_pos mode]
    simp (disch := decide) only [sTrapStatus,setField_eq,BitField.set_outside]
  · rw [entered,enterTrap_mstatus,trapStack,if_neg (by simp [mode])]
    simp (disch := decide) only [mTrapStatus,setField_eq,BitField.set_outside]

theorem keepsOtherFields_iff (s : State) (cause tval : Word) :
    KeepsOtherFields s cause tval ↔
      readCsr s csrMstatus &&& ~~~trapStack s cause =
        s.status.toWord &&& ~~~trapStack s cause := by
  rw [KeepsOtherFields,raiseException_outside]
  exact eq_comm

/-- An S-mode handler with `SPP` set makes an ecall that nothing delegates. -/
def nestedTrap : State := writeCsr (guest privS []) csrMstatus mstatusSpp

/-- Its `SPP` is gone when the M-mode handler starts. -/
theorem nestedTrap_loses_spp : trapsToSMode nestedTrap causeSupervisorEcall = false ∧
    getField (readCsr nestedTrap csrMstatus) mstatusSpp = 1 ∧
    getField (readCsr (raiseException nestedTrap causeSupervisorEcall 0) csrMstatus) mstatusSpp = 0 ∧
    ¬KeepsOtherFields nestedTrap causeSupervisorEcall 0 := by
  unfold KeepsOtherFields
  decide

/-- The return instruction of the mode that a trap goes to. -/
def trapReturn (s : State) (cause : Word) : State → Except Stop State :=
  if trapsToSMode s cause then sret else mret

def interruptEnable (s : State) (cause : Word) : Word :=
  if trapsToSMode s cause then mstatusSie else mstatusMie

/-- A trap followed at once by its return resumes the interrupted context. -/
def RoundTrips (s : State) (cause tval : Word) : Prop :=
  ∃ t, trapReturn s cause (raiseException s cause tval) = .ok t ∧ t.pc = s.pc - 4 ∧
    t.privilege = s.privilege ∧
    getField (readCsr t csrMstatus) (interruptEnable s cause) =
      getField (readCsr s csrMstatus) (interruptEnable s cause) ∧
    t.x = s.x ∧ t.ram = s.ram

theorem sTrapStatus_fields (s : State) :
    getField (sTrapStatus s) mstatusSie = 0 ∧
      getField (sTrapStatus s) mstatusSpie = getField s.status.toWord mstatusSie ∧
      getField (sTrapStatus s) mstatusSpp = s.privilege &&& 1 ∧
      getField (sTrapStatus s) mstatusTsr = 0 := by
  have tsr : BitField.get s.status.toWord Mstatus.tsr.mask = 0 := by
    cases s.status <;> rfl
  simp only [sTrapStatus,setField_eq,getField_eq,mstatusSie_mask,mstatusSpie_mask,mstatusSpp_mask,
    mstatusTsr_mask]
  refine ⟨?_,?_,?_,?_⟩
  · rw [BitField.get_set]
    rfl
  · simp (disch := decide) only [BitField.get_set_other,BitField.get_set_get]
  · simp (disch := decide) only [BitField.get_set_other,BitField.get_set]
    rfl
  · simp (disch := decide) only [BitField.get_set_other,tsr]

theorem mTrapStatus_fields (s : State) :
    getField (mTrapStatus s) mstatusMpie = getField s.status.toWord mstatusMie ∧
      getField (mTrapStatus s) mstatusMpp = s.privilege &&& 3 := by
  simp only [mTrapStatus,setField_eq,getField_eq,mstatusMie_mask,mstatusMpie_mask,mstatusMpp_mask]
  constructor
  · simp (disch := decide) only [BitField.get_set_other,BitField.get_set_get]
  · simp (disch := decide) only [BitField.get_set_other,BitField.get_set]
    rfl

/-- The value `mret` gives `mstatus`. -/
def mretStatus (status : Word) : Word :=
  setField (setField (setField status mstatusMie (getField status mstatusMpie)) mstatusMpie 1)
    mstatusMpp privU

/-- The value `sret` gives `mstatus`. -/
def sretStatus (status : Word) : Word :=
  setField (setField (setField status mstatusSie (getField status mstatusSpie)) mstatusSpie 1)
    mstatusSpp privU

def sretPrivilege (s : State) : Word :=
  if getField (readCsr s csrMstatus) mstatusTsr ≠ 0 then privM else privS

theorem mret_ok {s : State} (returned : mret s = .ok t) : s.privilege = privM ∧
    t = writeCsr { s with
      pc := readCsr s csrMepc
      privilege := getField (readCsr s csrMstatus) mstatusMpp } csrMstatus
        (mretStatus (readCsr s csrMstatus)) := by
  by_cases mode : s.privilege = privM
  · have result := (if_neg (not_not.mpr mode)).symm.trans returned
    exact ⟨mode, (Except.ok.inj result).symm⟩
  · have result := (if_pos mode).symm.trans returned
    contradiction

theorem sret_ok {s : State} (returned : sret s = .ok t) : s.privilege = sretPrivilege s ∧
    t = writeCsr { s with
      pc := readCsr s csrSepc
      privilege := getField (readCsr s csrMstatus) mstatusSpp } csrMstatus
        (sretStatus (readCsr s csrMstatus)) := by
  by_cases mode : s.privilege = sretPrivilege s
  · have result := (if_neg (not_not.mpr mode)).symm.trans returned
    exact ⟨mode, (Except.ok.inj result).symm⟩
  · have result := (if_pos mode).symm.trans returned
    contradiction

/-- The enable bit that a return restores is the one that was stacked. -/
theorem mretStatus_mie (status : Word) :
    getField (mretStatus status) mstatusMie = getField status mstatusMpie := by
  simp only [mretStatus,setField_eq,getField_eq,mstatusMie_mask,mstatusMpie_mask,mstatusMpp_mask]
  simp (disch := decide) only [BitField.get_set_other,BitField.get_set_get]

theorem sretStatus_fields (status : Word) :
    getField (sretStatus status) mstatusSie = getField status mstatusSpie ∧
      getField (sretStatus status) mstatusSpie = 1 ∧ getField (sretStatus status) mstatusSpp = 0 := by
  simp only [sretStatus,setField_eq,getField_eq,mstatusSie_mask,mstatusSpie_mask,mstatusSpp_mask]
  refine ⟨?_,?_,?_⟩
  · simp (disch := decide) only [BitField.get_set_other,BitField.get_set_get]
  · simp (disch := decide) only [BitField.get_set_other,BitField.get_set]
    rfl
  · rw [BitField.get_set]
    rfl

theorem sret_restores {s : State} (mode : s.privilege = privS)
    (permitted : getField (readCsr s csrMstatus) mstatusTsr = 0) :
    ∃ t, sret s = .ok t ∧ t.pc = readCsr s csrSepc ∧
      t.privilege = getField (readCsr s csrMstatus) mstatusSpp ∧
      getField (readCsr t csrMstatus) mstatusSie = getField (readCsr s csrMstatus) mstatusSpie ∧
      t.x = s.x ∧ t.ram = s.ram := by
  have allowed : ¬s.privilege ≠ sretPrivilege s := by
    rw [sretPrivilege,if_neg (not_not.mpr permitted)]
    exact not_not.mpr mode
  refine ⟨_, if_neg allowed, rfl, rfl, ?_, rfl, rfl⟩
  rw [readCsr,writeCsr_same]
  exact (sretStatus_fields _).1

theorem mret_restores {s : State} (mode : s.privilege = privM) :
    ∃ t, mret s = .ok t ∧ t.pc = readCsr s csrMepc ∧
      t.privilege = getField (readCsr s csrMstatus) mstatusMpp ∧
      getField (readCsr t csrMstatus) mstatusMie = getField (readCsr s csrMstatus) mstatusMpie ∧
      t.x = s.x ∧ t.ram = s.ram := by
  refine ⟨_, if_neg (not_not.mpr mode), rfl, rfl, ?_, rfl, rfl⟩
  rw [readCsr,writeCsr_same]
  exact mretStatus_mie _

theorem enterTrap_epc (s : State) {target other : TrapCsrs} (privilege status cause tval : Word)
    (apart : (csrMstatus :: trapCsrs target other).Nodup) :
    readCsr (enterTrap s target privilege status cause tval) target.epc = s.pc - 4 :=
  (List.cons.inj (enterTrap_trapCsrs s privilege status cause tval apart)).1

/-- Where the return gives the rest of the context back, the round trip hangs on the
enable bit alone. -/
theorem resumes_iff {s t : State} {result : Except Stop State} {enable : Word}
    (returned : result = .ok t) (pc : t.pc = s.pc - 4) (privilege : t.privilege = s.privilege)
    (restored : getField (readCsr t csrMstatus) enable = getField s.status.toWord enable)
    (x : t.x = s.x) (ram : t.ram = s.ram) :
    (∃ t, result = .ok t ∧ t.pc = s.pc - 4 ∧ t.privilege = s.privilege ∧
      getField (readCsr t csrMstatus) enable = getField (readCsr s csrMstatus) enable ∧
      t.x = s.x ∧ t.ram = s.ram) ↔
    getField s.status.toWord enable = getField (readCsr s csrMstatus) enable := by
  constructor
  · rintro ⟨t',returned',_,_,same,_⟩
    obtain rfl := Except.ok.inj (returned.symm.trans returned')
    rw [← restored,same]
  · intro same
    exact ⟨t, returned, pc, privilege, restored.trans same, x, ram⟩

/-- The round trip is right about `pc`, privilege, registers and memory; the enable bit
comes back from the run status. -/
theorem roundTrips_iff {s : State}
    (mode : s.privilege = privU ∨ s.privilege = privS ∨ s.privilege = privM) (cause tval : Word) :
    RoundTrips s cause tval ↔
      getField s.status.toWord (interruptEnable s cause) =
        getField (readCsr s csrMstatus) (interruptEnable s cause) := by
  unfold RoundTrips trapReturn interruptEnable
  rcases raiseException_cases s cause tval with ⟨delegated,entered⟩ | ⟨direct,entered⟩
  · obtain ⟨_,spie,spp,tsr⟩ := sTrapStatus_fields s
    have whole : s.privilege &&& 1 = s.privilege := by
      rcases mode with user | supervisor | machine
      · rw [user]; rfl
      · rw [supervisor]; rfl
      · rw [trapsToSMode,machine] at delegated
        contradiction
    obtain ⟨t,returned,pc,privilege,enable,x,ram⟩ := sret_restores
      (s := enterTrap s sTrapCsrs privS (sTrapStatus s) cause tval) rfl (by rwa [enterTrap_mstatus])
    rw [enterTrap_mstatus] at privilege enable
    rw [if_pos delegated,if_pos delegated,entered]
    exact resumes_iff returned (pc.trans (enterTrap_epc s _ _ _ _ sTrapCsrs_apart))
      (privilege.trans (spp.trans whole)) (enable.trans spie) x ram
  · obtain ⟨mpie,mpp⟩ := mTrapStatus_fields s
    have whole : s.privilege &&& 3 = s.privilege := by
      rcases mode with mode | mode | mode <;> rw [mode] <;> rfl
    obtain ⟨t,returned,pc,privilege,enable,x,ram⟩ := mret_restores
      (s := enterTrap s mTrapCsrs privM (mTrapStatus s) cause tval) rfl
    rw [enterTrap_mstatus] at privilege enable
    have other : ¬trapsToSMode s cause = true := by simp [direct]
    rw [if_neg other,if_neg other,entered]
    exact resumes_iff returned (pc.trans (enterTrap_epc s _ _ _ _ mTrapCsrs_apart))
      (privilege.trans (mpp.trans whole)) (enable.trans mpie) x ram

/-- An M-mode program that runs with interrupts enabled. -/
def enabledMachine : State := writeCsr (guest privM []) csrMstatus mstatusMie

theorem roundTrips_enabledMachine :
    RoundTrips enabledMachine causeMachineEcall 0 ↔
      getField enabledMachine.status.toWord (interruptEnable enabledMachine causeMachineEcall) =
        getField (readCsr enabledMachine csrMstatus)
          (interruptEnable enabledMachine causeMachineEcall) :=
  roundTrips_iff (Or.inr (Or.inr rfl)) causeMachineEcall 0

/-- After its ecall and the `mret` of the handler, interrupts are off. -/
theorem enabledMachine_disabled : trapsToSMode enabledMachine causeMachineEcall = false ∧
    ¬RoundTrips enabledMachine causeMachineEcall 0 := by
  refine ⟨by decide, ?_⟩
  rintro ⟨t,returned,_,_,same,_⟩
  obtain ⟨t',returned',_,_,enable,_⟩ :=
    mret_restores (s := raiseException enabledMachine causeMachineEcall 0) (by decide)
  have direct : trapReturn enabledMachine causeMachineEcall = mret := if_neg (by decide)
  rw [direct] at returned
  obtain rfl := Except.ok.inj (returned'.symm.trans returned)
  rw [interruptEnable,if_neg (by decide),enable] at same
  revert same
  decide

end Emuriscv
