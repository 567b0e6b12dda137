import Emuriscv.LabelledRun
import Emuriscv.TrapEntry
import Emuriscv.Zicsr

/-! `sstatus` as a view of `mstatus`. The CSR file holds the two registers as separate
words, under the numbers 0x100 and 0x300 that guest code uses, so the view lasts exactly as
long as no step moves a bit that S mode can see. -/
namespace Emuriscv

/-- The fields of `mstatus` that `sstatus` shows. -/
def sVisible : Word :=
  mstatusSie ||| mstatusSpie ||| mstatusSpp ||| mstatusFs ||| mstatusXs ||| mstatusSum |||
    mstatusMxr ||| mstatus32Sd

/-- The visible fields that neither a trap nor a return stacks. -/
def sUnstacked : Word :=
  mstatusFs ||| mstatusXs ||| mstatusSum ||| mstatusMxr ||| mstatus32Sd

def ShowsStatus (s : State) : Prop :=
  readCsr s csrSstatus = readCsr s csrMstatus &&& sVisible

inductive StatusEvent where
  | csr (op : CsrOp) (instruction : WordPtr)
  | trap (cause tval : Word)
  | mret
  | sret
  | other
  deriving DecidableEq, Repr

/-- One step as far as the two registers are concerned. -/
def StatusStep (s : State) : StatusEvent → State → Prop
  | .csr op instruction, t =>
    (csrNumber s instruction = csrSstatus ∨ csrNumber s instruction = csrMstatus) ∧
      t = op.handler s instruction
  | .trap cause tval, t => t = raiseException s cause tval
  | .mret, t => mret s = .ok t
  | .sret, t => sret s = .ok t
  | .other, t =>
    readCsr t csrSstatus = readCsr s csrSstatus ∧ readCsr t csrMstatus = readCsr s csrMstatus

/-- A write to `sstatus` replaces the visible fields of `mstatus` and no others. -/
def WritesThrough (s : State) (event : StatusEvent) (t : State) : Prop :=
  ∀ op instruction, event = .csr op instruction → csrNumber s instruction = csrSstatus →
    readCsr t csrMstatus =
      (readCsr s csrMstatus &&& ~~~sVisible) ||| (csrWritten op s instruction &&& sVisible)

/-- What a view asks of one step. -/
def RespectsView (s : State) (event : StatusEvent) (t : State) : Prop :=
  ShowsStatus t ∧ WritesThrough s event t

/-- A CSR instruction does not move the bits of a mask: it sets none that is clear, clears
none that is set, and replaces none by another. -/
def CsrKeeps (op : CsrOp) (s : State) (instruction : WordPtr) (mask : Word) : Prop :=
  let old := readCsr s (csrNumber s instruction)
  let operand := csrOperand op s instruction
  match op with
  | .csrrs | .csrrsi => operand &&& ~~~old &&& mask = 0
  | .csrrw => operand &&& mask = old &&& mask
  | .csrrc | .csrrwi | .csrrci => operand &&& old &&& mask = 0

/-- A trap does not move a visible bit: `mstatus` already is what the run status and the
trap stack make of it. -/
def TrapKeeps (s : State) (cause : Word) : Prop :=
  let status := readCsr s csrMstatus
  if trapsToSMode s cause then
    getField status mstatusSie = 0 ∧
      getField status mstatusSpie = getField s.status.toWord mstatusSie ∧
      getField status mstatusSpp = s.privilege &&& 1 ∧ status &&& sUnstacked = 0
  else status &&& sVisible = s.status.toWord &&& sVisible

/-- A step that does not move a visible bit. -/
def LeavesVisible (s : State) : StatusEvent → Prop
  | .csr op instruction =>
    CsrKeeps op s instruction
      (if csrNumber s instruction = csrSstatus then BitVec.allOnes 32 else sVisible)
  | .trap cause _ => TrapKeeps s cause
  | .sret =>
    getField (readCsr s csrMstatus) mstatusSie = 1 ∧
      getField (readCsr s csrMstatus) mstatusSpie = 1 ∧
      getField (readCsr s csrMstatus) mstatusSpp = 0
  | .mret => True
  | .other => True

theorem visible_eq_iff (a b : Word) : a &&& sVisible = b &&& sVisible ↔
    getField a mstatusSie = getField b mstatusSie ∧
      getField a mstatusSpie = getField b mstatusSpie ∧
      getField a mstatusSpp = getField b mstatusSpp ∧ a &&& sUnstacked = b &&& sUnstacked := by
  have parts : sVisible = Mstatus.sie.mask ||| (Mstatus.spie.mask ||| (Mstatus.spp.mask ||| sUnstacked)) :=
    rfl
  rw [parts,BitField.and_or_eq_iff,BitField.and_or_eq_iff,BitField.and_or_eq_iff]
  simp only [getField_eq,mstatusSie_mask,mstatusSpie_mask,mstatusSpp_mask,BitField.get_eq_iff]

theorem csrWritten_keeps (op : CsrOp) (s : State) (instruction : WordPtr) (mask : Word) :
    csrWritten op s instruction &&& mask = readCsr s (csrNumber s instruction) &&& mask ↔
      CsrKeeps op s instruction mask := by
  unfold csrWritten CsrKeeps
  cases op with
  | csrrs | csrrsi => exact BitField.or_and_eq_iff ..
  | csrrw => exact Iff.rfl
  | csrrc | csrrwi | csrrci => exact BitField.and_not_and_eq_iff ..

/-- The value a trap gives `mstatus`. -/
def trapStatus (s : State) (cause : Word) : Word :=
  if trapsToSMode s cause then sTrapStatus s else mTrapStatus s

theorem trapStatus_keeps (s : State) (cause : Word) :
    trapStatus s cause &&& sVisible = readCsr s csrMstatus &&& sVisible ↔ TrapKeeps s cause := by
  unfold trapStatus TrapKeeps
  dsimp only
  split
  next =>
    obtain ⟨sie,spie,spp,_⟩ := sTrapStatus_fields s
    have unstacked : sTrapStatus s &&& sUnstacked = 0 := by
      simp (disch := decide) only [sTrapStatus,setField_eq,BitField.set_outside]
      cases s.status <;> rfl
    rw [visible_eq_iff,sie,spie,spp,unstacked]
    simp only [eq_comm]
  next =>
    have merged : mTrapStatus s &&& sVisible = s.status.toWord &&& sVisible := by
      simp (disch := decide) only [mTrapStatus,setField_eq,BitField.set_outside]
    rw [merged]
    exact eq_comm

/-- The fields of the M-mode stack are invisible. -/
theorem mretStatus_visible (status : Word) :
    mretStatus status &&& sVisible = status &&& sVisible := by
  simp (disch := decide) only [mretStatus,setField_eq,BitField.set_outside]

/-- `sret` leaves the visible fields alone only where they already are as it sets them. -/
theorem sretStatus_visible (status : Word) :
    sretStatus status &&& sVisible = status &&& sVisible ↔
      getField status mstatusSie = 1 ∧ getField status mstatusSpie = 1 ∧
        getField status mstatusSpp = 0 := by
  obtain ⟨sie,spie,spp⟩ := sretStatus_fields status
  have unstacked : sretStatus status &&& sUnstacked = status &&& sUnstacked := by
    simp (disch := decide) only [sretStatus,setField_eq,BitField.set_outside]
  rw [visible_eq_iff,sie,spie,spp]
  constructor
  · rintro ⟨enabled,stacked,previous,_⟩
    exact ⟨enabled.symm.trans stacked.symm, stacked.symm, previous.symm⟩
  · rintro ⟨enabled,stacked,previous⟩
    exact ⟨stacked.trans enabled.symm, stacked.symm, previous.symm, unstacked⟩

/-- Visible and invisible bits together are the whole word. -/
theorem merge_visible (status : Word) :
    (status &&& ~~~sVisible) ||| (status &&& sVisible) = status := by
  rw [← BitVec.and_or_distrib_left,BitVec.or_comm,BitVec.or_not_self,BitVec.and_allOnes]

theorem csrStep_status (op : CsrOp) (s : State) (instruction : WordPtr) :
    readCsr (op.handler s instruction) csr =
      if csr = csrNumber s instruction then csrWritten op s instruction else readCsr s csr := by
  rw [readCsr,csrHandler_csr,Function.update_apply]
  rfl

theorem trap_status (s : State) (cause tval : Word) :
    readCsr (raiseException s cause tval) csrMstatus = trapStatus s cause ∧
      readCsr (raiseException s cause tval) csrSstatus = readCsr s csrSstatus := by
  rcases raiseException_cases s cause tval with ⟨mode,entered⟩ | ⟨mode,entered⟩
  · rw [entered,trapStatus,if_pos mode,enterTrap_mstatus]
    exact ⟨rfl,rfl⟩
  · rw [entered,trapStatus,if_neg (by simp [mode]),enterTrap_mstatus]
    exact ⟨rfl,rfl⟩

theorem mret_status {s : State} (returned : mret s = .ok t) :
    readCsr t csrMstatus = mretStatus (readCsr s csrMstatus) ∧
      readCsr t csrSstatus = readCsr s csrSstatus := by
  rw [(mret_ok returned).2]
  exact ⟨writeCsr_same .., writeCsr_other _ _ _ _ (by decide)⟩

theorem sret_status {s : State} (returned : sret s = .ok t) :
    readCsr t csrMstatus = sretStatus (readCsr s csrMstatus) ∧
      readCsr t csrSstatus = readCsr s csrSstatus := by
  rw [(sret_ok returned).2]
  exact ⟨writeCsr_same .., writeCsr_other _ _ _ _ (by decide)⟩

/-- The step lemma: under the view, a step keeps it exactly when it leaves the visible
bits alone. -/
theorem respectsView_step {s : State} (view : ShowsStatus s) (step : StatusStep s event t) :
    RespectsView s event t ↔ LeavesVisible s event := by
  unfold RespectsView ShowsStatus at *
  cases event with
  | csr op instruction =>
    obtain ⟨addressed,rfl⟩ := step
    rw [csrStep_status,csrStep_status,LeavesVisible,← csrWritten_keeps]
    rcases addressed with number | number
    · rw [number,if_pos rfl,if_neg (by decide),if_pos rfl,BitVec.and_allOnes,BitVec.and_allOnes,view]
      constructor
      · exact And.left
      · intro same
        refine ⟨same,?_⟩
        rintro _ _ ⟨rfl,rfl⟩ _
        rw [csrStep_status,number,if_neg (by decide),same,BitVec.and_assoc,BitVec.and_self,
          merge_visible]
    · rw [number,if_neg (by decide),if_pos rfl,if_neg (by decide),view]
      constructor
      · exact fun h => h.1.symm
      · intro same
        refine ⟨same.symm,?_⟩
        rintro _ _ ⟨rfl,rfl⟩ addressed
        rw [number] at addressed
        contradiction
  | trap cause tval =>
    obtain rfl := step
    obtain ⟨mstatus,sstatus⟩ := trap_status s cause tval
    rw [mstatus,sstatus,view,LeavesVisible,← trapStatus_keeps]
    constructor
    · exact fun h => h.1.symm
    · exact fun h => ⟨h.symm, fun _ _ other => nomatch other⟩
  | mret =>
    obtain ⟨mstatus,sstatus⟩ := mret_status step
    rw [mstatus,sstatus,view,LeavesVisible,mretStatus_visible]
    exact ⟨fun _ => trivial, fun _ => ⟨rfl, fun _ _ other => nomatch other⟩⟩
  | sret =>
    obtain ⟨mstatus,sstatus⟩ := sret_status step
    rw [mstatus,sstatus,view,LeavesVisible,← sretStatus_visible]
    constructor
    · exact fun h => h.1.symm
    · exact fun h => ⟨h.symm, fun _ _ other => nomatch other⟩
  | other =>
    obtain ⟨sstatus,mstatus⟩ := step
    rw [mstatus,sstatus,view,LeavesVisible]
    exact ⟨fun _ => trivial, fun _ => ⟨rfl, fun _ _ other => nomatch other⟩⟩

/-- Along every run from a state with the view, every step respects it if and only if no
step moves a visible bit. -/
theorem statusRun_iff {s : State} {steps : List (StatusEvent × State)} (view : ShowsStatus s)
    (run : LabelledRun.Path StatusStep s steps) :
    LabelledRun.Every RespectsView s steps ↔
      LabelledRun.Every (fun s event _ => LeavesVisible s event) s steps :=
  run.every_iff view (fun _ _ _ shown step => respectsView_step shown step) fun _ _ _ _ _ good => good.1

/-- An S-mode kernel about to execute `csrrw x0, sstatus, x1` with `SPP` in `x1`. -/
def kernelWrite : State :=
  { guest privS [0x10009073] with x := fun index => if index = 1 then mstatusSpp else 0 }

def kernelWriteRun : List (StatusEvent × State) :=
  [(.csr .csrrw ⟨0,0⟩, Handler.csrrw kernelWrite ⟨0,0⟩)]

theorem kernelWrite_shows : ShowsStatus kernelWrite := by
  unfold ShowsStatus
  decide

theorem kernelWrite_path : LabelledRun.Path StatusStep kernelWrite kernelWriteRun :=
  .cons ⟨Or.inl (by decide), rfl⟩ .nil

theorem statusRun_kernelWrite :
    LabelledRun.Every RespectsView kernelWrite kernelWriteRun ↔
      LabelledRun.Every (fun s event _ => LeavesVisible s event) kernelWrite kernelWriteRun :=
  statusRun_iff kernelWrite_shows kernelWrite_path

/-- The `SPP` it wrote is not the one that its `sret` would use. -/
theorem kernelWrite_unseen :
    ShowsStatus kernelWrite ∧ LabelledRun.Path StatusStep kernelWrite kernelWriteRun ∧
      getField (readCsr (Handler.csrrw kernelWrite ⟨0,0⟩) csrSstatus) mstatusSpp = 1 ∧
      getField (readCsr (Handler.csrrw kernelWrite ⟨0,0⟩) csrMstatus) mstatusSpp = 0 ∧
      ¬LabelledRun.Every RespectsView kernelWrite kernelWriteRun := by
  refine ⟨kernelWrite_shows, kernelWrite_path, by decide, by decide, ?_⟩
  rintro ⟨⟨shows,_⟩,_⟩
  unfold ShowsStatus at shows
  revert shows
  decide

end Emuriscv
