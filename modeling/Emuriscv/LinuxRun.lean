import Emuriscv.Reset

/-! The loop of `run_linux`: a step, and the machine's cycle counter set to the number of
instructions that the hart has counted. -/
namespace Emuriscv

open LabelledRun

def bootloaderAddress : Word := 0x1000
def ramBaseAddr : Word := 0x80000000
def lowRamSize : Word := 0x00010000
def vmMemorySize : Word := 96 * 1024 * 1024
def clintBaseAddr : Word := 0x02000000
def clintSize : Word := 0x000c0000
def htifBaseAddr : Word := 0x40008000
def htifSize : Word := 16
def uartBaseAddr : Word := 0x10000000
def uartSize : Word := 0x100

/-- The ranges that `initialize_riscv_machine` registers. -/
def linuxMemoryMap : MemoryMap := [
  ⟨ramBaseAddr,vmMemorySize,true,none,none⟩,
  ⟨0,lowRamSize,true,none,none⟩,
  ⟨htifBaseAddr,htifSize,false,some .htifRead,some .htifWrite⟩,
  ⟨clintBaseAddr,clintSize,false,some .clintRead,some .clintWrite⟩,
  ⟨uartBaseAddr,uartSize,false,some .uartRead,some .uartWrite⟩]

/-- The machine before the first iteration, with any boot loader, kernel and device tree. -/
def AtBoot (s : State) : Prop :=
  ∃ ram, s = { initializeStateLinux linuxMemoryMap ram ⟨0,0,0,0⟩ ⟨fun _ => 0, 0, []⟩ with
    pc := bootloaderAddress }

/-- The end of an iteration: `vm->cycles = state->instruction_counter`. -/
def setCycles (s : State) : State :=
  { s with vm := { s.vm with cycles := s.instructionCounter.setWidth 64 } }

/-- One iteration of the loop. -/
def linuxStep [Platform] (s : State) : Except Stop State := do
  let s ← emulateOp s
  pure (setCycles s)

abbrev LinuxRun [Platform] (s : State) (steps : List (Unit × State)) : Prop :=
  LabelledRun.Path (fun s _ t => linuxStep s = .ok t) s steps

theorem linuxStep_ok [Platform] (step : linuxStep s = .ok t) :
    ∃ u, emulateOp s = .ok u ∧ t = setCycles u := by
  obtain ⟨u,ran,rest⟩ := bind_eq_ok.mp step
  exact ⟨u, ran, (Except.ok.inj rest).symm⟩

/-- The CSRs that the machine itself writes: those of a trap, `mip`, and the two counters. -/
def machineWritten : List CsrNumber := csrMip :: csrTime :: csrCycle :: trapWritten

theorem finishOp_csr (s : State) (outside : number ∉ machineWritten) :
    readCsr (finishOp s) number = readCsr s number := by
  simp only [machineWritten,List.mem_cons,not_or] at outside
  obtain ⟨_,time,cycle,trap⟩ := outside
  cases pending : s.hasPendingException with
  | false =>
    rw [finishOp_quiet pending,retire_csr _ time cycle]
    rfl
  | true =>
    rw [finishOp_pending pending,retire_csr _ time cycle,raiseException_csr _ _ _ trap]
    rfl

/-- A handler writes no other CSR, unless it is that of a CSR instruction. -/
theorem execute_csr_outside [Platform] {f : State} (ran : execute op f instruction = .ok t)
    (outside : number ∉ machineWritten) :
    (∀ csrOp, op.csrOp = some csrOp → csrNumber f instruction ≠ number) ∧
        readCsr t number = readCsr f number ∨
      ∃ csrOp, op.csrOp = some csrOp ∧
        csrNumber f instruction = number ∧ readCsr t number = csrWritten csrOp f instruction := by
  simp only [machineWritten,List.mem_cons,not_or] at outside
  obtain ⟨mip,_,_,trap⟩ := outside
  have status : number ≠ csrMstatus := fun same => trap (by simp [same,trapWritten])
  cases found : op.csrOp with
  | some csrOp =>
    rw [← execute_csrOp found ran]
    by_cases addressed : csrNumber f instruction = number
    · refine Or.inr ⟨_, rfl, addressed, ?_⟩
      rw [readCsr,csrHandler_csr,← addressed,Function.update_self]
    · refine Or.inl ⟨fun _ _ => addressed, ?_⟩
      rw [readCsr,csrHandler_csr]
      exact Function.update_of_ne (Ne.symm addressed) ..
  | none =>
    refine Or.inl ⟨by simp, ?_⟩
    cases execute_cases ran with
    | framed frame => exact frame.csr number mip
    | csr given =>
      rw [found] at given
      contradiction
    | mret returned =>
      rw [(mret_ok returned).2]
      exact writeCsr_other _ _ _ _ status
    | sret returned =>
      rw [(sret_ok returned).2]
      exact writeCsr_other _ _ _ _ status
    | ecall called =>
      obtain ⟨g,traced,rest⟩ := bind_eq_ok.mp called
      rw [← Except.ok.inj rest,raiseEcall,raiseException_csr _ _ _ trap,traceEcall_traced traced]
      rfl
    | faulted accesses faults => rfl

theorem Executed.counter {f : State} (ran : Executed f instruction op t) :
    t.instructionCounter = f.instructionCounter := by
  cases ran with
  | framed frame => rw [frame.rest]
  | csr found => rw [csrHandler_rest]
  | mret returned =>
    rw [(mret_ok returned).2]
    rfl
  | sret returned =>
    rw [(sret_ok returned).2]
    rfl
  | ecall called =>
    obtain ⟨g,traced,rest⟩ := bind_eq_ok.mp called
    rw [← Except.ok.inj rest,raiseEcall,raiseException_counter,traceEcall_traced traced]
  | faulted accesses faults => rfl

theorem finishOp_counter (s : State) :
    (finishOp s).instructionCounter = s.instructionCounter + 1 := by
  cases pending : s.hasPendingException with
  | false =>
    rw [finishOp_quiet pending]
    rfl
  | true =>
    have raised := raiseException_counter (dispatched s) s.pendingException s.pendingTval
    rw [finishOp_pending pending]
    exact congrArg (· + 1) raised

theorem retire_counterCsrs (s : State) : readCsr (retire s) csrTime = (retire s).instructionCounter ∧
    readCsr (retire s) csrCycle = (retire s).instructionCounter :=
  ⟨(writeCsr_other _ csrCycle csrTime _ (by decide)).trans (writeCsr_same ..), writeCsr_same ..⟩

theorem finishOp_counterCsrs (s : State) :
    readCsr (finishOp s) csrTime = (finishOp s).instructionCounter ∧
      readCsr (finishOp s) csrCycle = (finishOp s).instructionCounter := by
  cases pending : s.hasPendingException with
  | false =>
    rw [finishOp_quiet pending]
    exact retire_counterCsrs _
  | true =>
    rw [finishOp_pending pending]
    exact retire_counterCsrs _

/-- What a step does to the counter and to the CSRs that the machine does not write itself. A
failed fetch counts nothing. -/
inductive Counts (s t : State) : Prop
  | unfetched (none : ∀ f instruction op, ¬Fetches s f instruction op)
      (counter : t.instructionCounter = s.instructionCounter)
      (csr : ∀ number, number ∉ trapWritten → readCsr t number = readCsr s number)
  | counted (fetched : Fetches s f instruction op)
      (counter : t.instructionCounter = s.instructionCounter + 1)
      (time : readCsr t csrTime = t.instructionCounter)
      (cycle : readCsr t csrCycle = t.instructionCounter)
      (csr : ∀ number, number ∉ machineWritten →
        (∀ csrOp, op.csrOp = some csrOp → csrNumber f instruction ≠ number) ∧
            readCsr t number = readCsr s number ∨
          ∃ csrOp, op.csrOp = some csrOp ∧ csrNumber f instruction = number ∧
            readCsr t number = csrWritten csrOp f instruction)

/-- Where the translation of `pc` reaches no range, nothing is fetched. -/
theorem unmapped_unfetched {s : State} (translated : translateAddress s s.pc .fetch = .ok t)
    (assigned : t.physicalAddress = some physicalAddress)
    (outside : getPhysMemRange s.memoryMap physicalAddress = none) : ¬Fetches s f instruction op := by
  intro fetched
  obtain ⟨l,looked,ok,_⟩ := fetched.looked
  rw [getMemoryTarget_uncovered translated assigned outside] at looked
  rw [← Except.ok.inj looked] at ok
  contradiction

theorem emulateOp_counts [Platform] (step : emulateOp s = .ok t) : Counts s t := by
  cases emulateOp_cases step with
  | fetchFault faults =>
    refine .unfetched (fun _ _ _ fetched => fetched.noFault faults) (raiseException_counter ..) ?_
    intro number outside
    rw [raiseException_csr _ _ _ outside]
    rfl
  | unmapped translated assigned outside =>
    have only := translateAddress_ramOnly translated
    refine .unfetched (fun _ _ _ => unmapped_unfetched translated assigned outside) ?_ ?_
    · rw [raiseException_counter,only]
    · intro number outside
      rw [raiseException_csr _ _ _ outside,only]
      rfl
  | @executed f instruction op t fetched ran =>
    obtain ⟨time,cycle⟩ := finishOp_counterCsrs t
    have before : f.instructionCounter = s.instructionCounter := by rw [fetched.frame]
    refine .counted fetched ?_ time cycle ?_
    · rw [finishOp_counter,(execute_cases ran).counter,before]
    · intro number outside
      rw [finishOp_csr t outside,← fetched.midStep.readCsr]
      exact execute_csr_outside ran outside

/-- The clock the hart counts, the two CSRs that show it and the copy of the machine agree. -/
structure Clocks (s : State) : Prop where
  time : readCsr s csrTime = s.instructionCounter
  cycle : readCsr s csrCycle = s.instructionCounter
  cycles : s.vm.cycles = s.instructionCounter.setWidth 64

theorem AtBoot.clocks (boot : AtBoot s) : Clocks s := by
  obtain ⟨_,rfl⟩ := boot
  exact ⟨rfl,rfl,rfl⟩

/-- The CLINT and the CSR show an instruction the same time. -/
theorem Clocks.agree (clocks : Clocks s) : clintRead s sifiveTimeLow = readCsr s csrTime := by
  have low : clintRead s sifiveTimeLow = s.vm.cycles.setWidth 32 := rfl
  rw [low,clocks.cycles,clocks.time]
  simp

theorem Clocks.fetched (clocks : Clocks s) (fetched : Fetches s f instruction op) : Clocks f := by
  have frame := fetched.frame
  constructor
  · rw [fetched.midStep.readCsr,clocks.time,frame]
  · rw [fetched.midStep.readCsr,clocks.cycle,frame]
  · rw [frame]
    exact clocks.cycles

/-- The step lemma: whatever a guest writes to the two CSRs is gone at the end of the step. -/
theorem linuxStep_clocks [Platform] (clocks : Clocks s) (step : linuxStep s = .ok t) : Clocks t := by
  obtain ⟨u,ran,rfl⟩ := linuxStep_ok step
  cases emulateOp_counts ran with
  | unfetched none counter csr =>
    refine ⟨?_,?_,rfl⟩
    · exact (csr csrTime (by decide)).trans (clocks.time.trans counter.symm)
    · exact (csr csrCycle (by decide)).trans (clocks.cycle.trans counter.symm)
  | counted fetched counter time cycle csr => exact ⟨time,cycle,rfl⟩

/-- An iteration that starts with the clocks in agreement, for its instruction too. -/
structure ClocksAgree (s : State) : Prop where
  clocks : Clocks s
  reads : ∀ f instruction op, Fetches s f instruction op →
    clintRead f sifiveTimeLow = readCsr f csrTime

theorem Clocks.clocksAgree (clocks : Clocks s) : ClocksAgree s :=
  ⟨clocks, fun _ _ _ fetched => (clocks.fetched fetched).agree⟩

/-- The run lemma. -/
theorem linuxRun_clocks [Platform] (boot : AtBoot s) (run : LinuxRun s steps) :
    ∀ t ∈ states s steps, ClocksAgree t := by
  have clocks : ∀ t ∈ states s steps, Clocks t := run.states_invariant boot.clocks
    fun _ _ _ clocks step => linuxStep_clocks clocks step
  exact fun t member => (clocks t member).clocksAgree

/-- A machine that boots with one word at the boot loader's address. -/
def bootWord (word : Word) : State :=
  { initializeStateLinux linuxMemoryMap
      (fun buffer offset => if buffer = 1 ∧ 0x1000 ≤ offset ∧ offset < 0x1004
        then byteOf word (offset - 0x1000) else 0)
      ⟨0,0,0,0⟩ ⟨fun _ => 0, 0, []⟩ with pc := bootloaderAddress }

theorem bootWord_boot (word : Word) : AtBoot (bootWord word) := ⟨_,rfl⟩

/-- `csrrwi x0, time, 5`. -/
theorem linuxRun_clocks_bootWord : ∃ t, @LinuxRun clearingPlatform (bootWord 0xc012d073) [((),t)] ∧
    ∀ u ∈ [bootWord 0xc012d073, t], ClocksAgree u := by
  obtain ⟨t,ran,_⟩ := exists_ok (x := @linuxStep clearingPlatform (bootWord 0xc012d073))
    (fun _ => true) (by decide +kernel)
  have run : @LinuxRun clearingPlatform (bootWord 0xc012d073) [((),t)] := .cons ran .nil
  exact ⟨t, run, @linuxRun_clocks _ _ clearingPlatform (bootWord_boot _) run⟩

end Emuriscv
