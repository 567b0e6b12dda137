import Emuriscv.TrapStep

/-! `mret` and `sret`, bit by bit: the stack in `mstatus` is popped, and nothing else of the word
changes. -/
namespace Emuriscv

open BitField (Field)

/-- One bit moved to another, which is then set, and a third field cleared. -/
theorem popped_bit (reg : Word) (enable previous privilege : Field 32) (single : enable.len = 1)
    (single' : previous.len = 1) (apart : enable.Apart previous) (below : enable.Apart privilege)
    (below' : previous.Apart privilege) (i : Nat) (bound : i < 32) :
    (BitField.set (BitField.set (BitField.set reg enable.mask (BitField.get reg previous.mask))
      previous.mask 1) privilege.mask privU).getLsbD i =
      if i = enable.lo then reg.getLsbD previous.lo
      else if i = previous.lo then true
      else if privilege.lo ≤ i ∧ i < privilege.lo + privilege.len then false
      else reg.getLsbD i := by
  unfold Field.Apart at apart below below'
  simp only [BitField.set_bit _ _ _ _ bound,BitField.get_bit,single,single']
  by_cases first : i = enable.lo
  · subst first
    have outside : ¬(privilege.lo ≤ enable.lo ∧ enable.lo < privilege.lo + privilege.len) := by
      have := privilege.positive
      omega
    have other : ¬(previous.lo ≤ enable.lo ∧ enable.lo < previous.lo + 1) := by omega
    have inside : enable.lo ≤ enable.lo ∧ enable.lo < enable.lo + 1 := by omega
    rw [if_neg outside,if_neg other,if_pos inside,if_pos rfl]
    simp
  · have one : ¬(enable.lo ≤ i ∧ i < enable.lo + 1) := by omega
    rw [if_neg first,if_neg one]
    by_cases second : i = previous.lo
    · subst second
      have outside : ¬(privilege.lo ≤ previous.lo ∧ previous.lo < privilege.lo + privilege.len) := by
        have := privilege.positive
        omega
      have inside : previous.lo ≤ previous.lo ∧ previous.lo < previous.lo + 1 := by omega
      rw [if_neg outside,if_pos inside,if_pos rfl]
      simp
    · have two : ¬(previous.lo ≤ i ∧ i < previous.lo + 1) := by omega
      rw [if_neg second,if_neg two]
      simp [privU]

/-- The mode whose traps an instruction returns from. -/
inductive ReturnMode where
  | machine
  | supervisor
  deriving DecidableEq, Repr

namespace ReturnMode

def op : ReturnMode → Op
  | .machine => .mret
  | .supervisor => .sret

def handler : ReturnMode → State → Except Stop State
  | .machine => mret
  | .supervisor => sret

def epc : ReturnMode → CsrNumber
  | .machine => csrMepc
  | .supervisor => csrSepc

/-- `xIE`. -/
def enable : ReturnMode → Field 32
  | .machine => Mstatus.mie
  | .supervisor => Mstatus.sie

/-- `xPIE`. -/
def previous : ReturnMode → Field 32
  | .machine => Mstatus.mpie
  | .supervisor => Mstatus.spie

/-- `xPP`. -/
def privilege : ReturnMode → Field 32
  | .machine => Mstatus.mpp
  | .supervisor => Mstatus.spp

/-- Where the instruction is accepted. -/
def Accepts (mode : ReturnMode) (s : State) : Prop :=
  let trap := (readCsr s csrMstatus).getLsbD Mstatus.tsr.lo
  match mode with
  | .machine => s.privilege = privM
  | .supervisor => s.privilege = privS ∧ trap = false ∨ s.privilege = privM ∧ trap = true

/-- Bit `i` of `mstatus` after the stack has been popped. -/
def poppedBit (mode : ReturnMode) (status : Word) (i : Nat) : Bool :=
  if i = mode.enable.lo then status.getLsbD mode.previous.lo
  else if i = mode.previous.lo then true
  else if mode.privilege.lo ≤ i ∧ i < mode.privilege.lo + mode.privilege.len then false
  else status.getLsbD i

/-- What `mstatus` becomes. -/
def status : ReturnMode → Word → Word
  | .machine => mretStatus
  | .supervisor => sretStatus

theorem status_bit (mode : ReturnMode) (status : Word) (i : Nat) (bound : i < 32) :
    (mode.status status).getLsbD i = mode.poppedBit status i := by
  cases mode
  case machine =>
    exact popped_bit status Mstatus.mie Mstatus.mpie Mstatus.mpp rfl rfl (by decide) (by decide)
      (by decide) i bound
  case supervisor =>
    exact popped_bit status Mstatus.sie Mstatus.spie Mstatus.spp rfl rfl (by decide) (by decide)
      (by decide) i bound

/-- `t` is what a return from `s` leaves, up to the counters and memory. -/
structure Returns (mode : ReturnMode) (s t : State) : Prop where
  pc : t.pc = readCsr s mode.epc
  privilege : t.privilege =
    ((readCsr s csrMstatus).extractLsb' mode.privilege.lo mode.privilege.len).setWidth 32
  mstatus : ∀ i < 32,
    (readCsr t csrMstatus).getLsbD i = mode.poppedBit (readCsr s csrMstatus) i
  csr : ∀ number, number ≠ csrMstatus → number ≠ csrTime → number ≠ csrCycle →
    readCsr t number = readCsr s number
  registers : t.x = s.x

/-- What the handler makes of an accepted state. -/
def returned (mode : ReturnMode) (s : State) : State :=
  writeCsr { s with
    pc := readCsr s mode.epc
    privilege := getField (readCsr s csrMstatus) mode.privilege.mask } csrMstatus
    (mode.status (readCsr s csrMstatus))

theorem getField_extract (reg : Word) (f : Field 32) :
    getField reg f.mask = (reg.extractLsb' f.lo f.len).setWidth 32 := by
  apply BitVec.eq_of_getLsbD_eq
  intro i bound
  rw [getField_eq,BitField.get_bit]
  simp [bound]

theorem trapField_iff (reg : Word) :
    getField reg mstatusTsr ≠ 0 ↔ reg.getLsbD Mstatus.tsr.lo = true := by
  have bit : ∀ field : BitVec 1, (field.setWidth 32 : Word) ≠ 0 ↔ field.getLsbD 0 = true := by decide
  have field := getField_extract reg Mstatus.tsr
  rw [mstatusTsr_mask,field]
  exact (bit _).trans (by simp [Mstatus.tsr])

theorem handler_accepts {mode : ReturnMode} {s : State} (accepted : mode.Accepts s) :
    mode.handler s = .ok (mode.returned s) := by
  cases mode
  case machine => exact if_neg (not_not.mpr accepted)
  case supervisor =>
    refine if_neg (not_not.mpr ?_)
    rcases accepted with ⟨supervisor,clear⟩ | ⟨machine,set⟩
    · rw [if_neg]
      · exact supervisor
      · rw [trapField_iff,clear]
        decide
    · rw [if_pos ((trapField_iff _).mpr set)]
      exact machine

theorem returned_returns (mode : ReturnMode) (s : State) : mode.Returns s (mode.returned s) where
  pc := rfl
  privilege := getField_extract ..
  mstatus := by
    intro i bound
    rw [returned,readCsr,writeCsr_same]
    exact mode.status_bit _ i bound
  csr := fun number other _ _ => writeCsr_other _ _ _ _ other
  registers := rfl

end ReturnMode

/-- Where addresses are not translated, the fetch stores nothing. -/
theorem Fetches.direct {s f : State} {p : WordPtr} (fetched : Fetches s f p op) (direct : ¬Walks s) :
    f.ram = s.ram := by
  obtain ⟨l,looked,_,rfl,_⟩ := fetched.looked
  rw [getMemoryTarget_assigned (translateAddress_direct direct s.pc .fetch) rfl] at looked
  rw [← Except.ok.inj looked]

/-- An accepted return has exactly the effect of the architecture, as an instruction and as a
step of the machine. -/
theorem emulateOp_returns [Platform] (mode : ReturnMode) (s : State) (accepted : mode.Accepts s) :
    (∃ t, mode.handler s = .ok t ∧ mode.Returns s t ∧ t.ram = s.ram) ∧
    ∀ f p, Fetches s f p mode.op → s.hasPendingException = false →
      ∃ t, emulateOp s = .ok t ∧ mode.Returns s t ∧ t.ram = f.ram ∧ (¬Walks s → t.ram = s.ram) := by
  refine ⟨⟨_,mode.handler_accepts accepted,mode.returned_returns s,rfl⟩,?_⟩
  intro f p fetched noException
  have frame := fetched.frame
  have accepted' : mode.Accepts f := by
    rw [frame]
    exact accepted
  have executed : execute mode.op f p = .ok (mode.returned f) := by
    rw [← mode.handler_accepts accepted']
    cases mode <;> rfl
  have quiet : (mode.returned f).hasPendingException = false := by
    rw [frame]
    exact noException
  obtain ⟨pc,privilege,mstatus,csr,registers⟩ := mode.returned_returns f
  have same : f.csr = s.csr := by rw [frame]
  have x : f.x = s.x := by rw [frame]
  refine ⟨_,emulateOp_executed fetched executed,?_⟩
  rw [finishOp_quiet quiet]
  have kept := retire_counters (dispatched (mode.returned f))
  simp only [readCsr,same] at pc privilege mstatus csr
  refine ⟨⟨pc,privilege,fun i bound => ?_,fun number other time cycle => ?_,registers.trans x⟩,rfl,
    fetched.direct⟩
  · rw [kept csrMstatus (by decide) (by decide)]
    exact mstatus i bound
  · rw [kept number time cycle]
    exact csr number other time cycle

/-- `mret` with `MPIE` set and `MPP` 3. -/
def returnMachine : State :=
  writeCsr { guest privM [0x30200073] with pc := 0x80000000 } csrMstatus 0x1880

theorem emulateOp_returns_returnMachine : ∃ t, @emulateOp clearingPlatform returnMachine = .ok t ∧
    ReturnMode.machine.Returns returnMachine t ∧ t.ram = returnMachine.ram := by
  have direct : ¬Walks returnMachine := fun walks => walks.1 rfl
  have located : wordLocation returnMachine.memoryMap returnMachine.pc = some ⟨0,0⟩ := by decide
  have fetched := fetches_direct direct located (show decode _ = some .mret by decide)
  obtain ⟨t,ran,returns,_,ram⟩ :=
    (@emulateOp_returns clearingPlatform .machine returnMachine rfl).2 _ _ fetched rfl
  exact ⟨t,ran,returns,ram direct⟩

end Emuriscv
