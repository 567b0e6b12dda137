import Emuriscv.TrapStep
import Emuriscv.LabelledRun

/-! Runs of the machine from reset. The three pending fields are set in translation and by an
environment call and cleared in `raise_exception`; every way out of a step passes there, so
that no step ever starts with an exception of an earlier one. -/
namespace Emuriscv

open LabelledRun

/-- `1 << 0 | 1 << 8 | 1 << 12 | 1 << 18 | 1 << 30`. -/
def misaImas : Word := 0x40041101

/-- `initialize_state_linux`, with the memory map and the machine that its caller attaches. -/
def initializeStateLinux (memoryMap : MemoryMap) (ram : Nat → Nat → Byte) (vm : RiscVMachine)
    (uart : Uart) : State where
  pc := 0
  x := fun _ => 0
  csr := Function.update (Function.update (fun _ => 0) csrMisa misaImas) csrMhartid 0
  mhartid := 0
  status := .running
  memoryMap := memoryMap
  instructionCounter := 0
  pendingTval := 0
  pendingException := 0
  hasPendingException := false
  privilege := privM
  loadReservation := 0
  pcHistory := fun _ => 0
  ram := ram
  vm := vm
  uart := uart
  console := []
  traps := []

/-- The state of a machine at reset: any memory, any devices, and any start address, since
`run_linux` moves `pc` to its boot loader. -/
def AtReset (s : State) : Prop :=
  ∃ memoryMap ram vm uart pc, s = { initializeStateLinux memoryMap ram vm uart with pc := pc }

/-- A run of `emulate_op`, up to a call that starts the monitor. -/
abbrev MachineRun [Platform] (s : State) (steps : List (Unit × State)) : Prop :=
  LabelledRun.Path (fun s _ t => emulateOp s = .ok t) s steps

/-- No exception is pending, in any of the three fields. -/
structure Quiet (s : State) : Prop where
  flag : s.hasPendingException = false
  exception : s.pendingException = 0
  tval : s.pendingTval = 0

theorem AtReset.quiet (reset : AtReset s) : Quiet s := by
  obtain ⟨_,_,_,_,_,rfl⟩ := reset
  exact ⟨rfl,rfl,rfl⟩

theorem raiseException_quiet (s : State) (cause tval : Word) : Quiet (raiseException s cause tval) := by
  rcases raiseException_cases s cause tval with ⟨_,entered⟩ | ⟨_,entered⟩
  · rw [entered]
    exact ⟨rfl,rfl,rfl⟩
  · rw [entered]
    exact ⟨rfl,rfl,rfl⟩

/-- Only the pending fields matter. -/
theorem Quiet.congr {s t : State} (quiet : Quiet s)
    (flag : t.hasPendingException = s.hasPendingException)
    (exception : t.pendingException = s.pendingException) (tval : t.pendingTval = s.pendingTval) :
    Quiet t :=
  ⟨flag.trans quiet.flag, exception.trans quiet.exception, tval.trans quiet.tval⟩

theorem HandlerFrame.quiet {s t : State} (frame : HandlerFrame s t) (quiet : Quiet s) : Quiet t := by
  refine quiet.congr ?_ ?_ ?_ <;> rw [frame.rest]

theorem Fetches.quiet (fetched : Fetches s f instruction op) (quiet : Quiet s) : Quiet f := by
  have frame := fetched.frame
  refine quiet.congr ?_ ?_ ?_ <;> rw [frame]

theorem retire_quiet {s : State} (quiet : Quiet s) : Quiet (retire s) := quiet.congr rfl rfl rfl

/-- The end of a step raises what is pending, so only the fields without the flag could
survive it. -/
theorem finishOp_quietens {t : State} (clean : t.hasPendingException = false → Quiet t) :
    Quiet (finishOp t) := by
  cases pending : t.hasPendingException with
  | false =>
    rw [finishOp_quiet pending]
    exact retire_quiet ((clean pending).congr rfl rfl rfl)
  | true =>
    rw [finishOp_pending pending]
    exact retire_quiet (raiseException_quiet ..)

/-- A handler sets the pending flag, or it leaves nothing pending. -/
theorem Executed.quiet {f : State} (ran : Executed f instruction op t) (quiet : Quiet f)
    (clear : t.hasPendingException = false) : Quiet t := by
  cases ran with
  | framed frame => exact frame.quiet quiet
  | csr number =>
    refine quiet.congr ?_ ?_ ?_ <;> rw [csrHandler_rest]
  | mret returned =>
    refine quiet.congr ?_ ?_ ?_ <;> rw [(mret_ok returned).2] <;> rfl
  | sret returned =>
    refine quiet.congr ?_ ?_ ?_ <;> rw [(sret_ok returned).2] <;> rfl
  | ecall called =>
    obtain ⟨g,_,rest⟩ := bind_eq_ok.mp called
    rw [← Except.ok.inj rest,raiseEcall]
    exact raiseException_quiet ..
  | faulted accesses faults => contradiction

/-- The step lemma: whatever a step does, it leaves nothing pending. -/
theorem emulateOp_quiet [Platform] (quiet : Quiet s) (step : emulateOp s = .ok s') : Quiet s' := by
  cases emulateOp_cases step with
  | fetchFault faults => exact raiseException_quiet ..
  | unmapped translated assigned outside => exact raiseException_quiet ..
  | executed fetched ran =>
    exact finishOp_quietens ((execute_cases ran).quiet (fetched.quiet quiet))

section Loads

variable {read : State → Word → Except Stop (Word × State)} {f : State} {op : Op}

/-- The sized reader that a load instruction calls. -/
def Op.loadReader : Op → Option (State → Word → Except Stop (Word × State))
  | .lb => some readByteSigned
  | .lbu => some readByteUnsigned
  | .lh => some readHalfwordSigned
  | .lhu => some readHalfwordUnsigned
  | .lw | .lr => some readWord
  | _ => none

/-- Apart from page-table flags of a load, a reader that does not fault changes nothing. -/
def FlagsReader (read : State → Word → Except Stop (Word × State)) : Prop :=
  ∀ {s address value t}, read s address = .ok (value,t) → ¬PageFaults s address .load →
    RamOnly s t ∧ FlagsOnly .load s t

theorem readCommon_flagsReader (sizeLog2 : Nat) :
    FlagsReader fun s address => readCommon s address sizeLog2 := by
  intro s address value t h quiet
  obtain ⟨translation,translated,rfl⟩ := readCommon_translated h quiet
  exact ⟨translateAddress_ramOnly translated, translateAddress_flagsOnly translated⟩

theorem extended_flagsReader (sizeLog2 : Nat) (extend : Word → Word) :
    FlagsReader (fun s address => do
      let (value, s) ← readCommon s address sizeLog2
      pure (extend value, s)) := by
  intro s address value t h quiet
  obtain ⟨⟨_,middle⟩,first,rest⟩ := bind_eq_ok.mp h
  obtain ⟨_,rfl⟩ := Prod.mk.inj (Except.ok.inj rest)
  exact readCommon_flagsReader sizeLog2 first quiet

theorem Op.loadReader_flags (reader : op.loadReader = some read) : FlagsReader read := by
  cases op <;> simp only [Op.loadReader,Option.some.injEq,reduceCtorEq] at reader
  all_goals subst reader
  case lb =>
    exact extended_flagsReader sizeByte fun value =>
      if value &&& 0x80 = 0x80 then value ||| 0xffffff00 else value
  case lbu => exact readCommon_flagsReader sizeByte
  case lh =>
    exact extended_flagsReader sizeHalf fun value =>
      if value &&& 0x8000 = 0x8000 then value ||| 0xffff0000 else value
  case lhu => exact readCommon_flagsReader sizeHalf
  case lw => exact readCommon_flagsReader sizeWord
  case lr => exact readCommon_flagsReader sizeWord

/-- A load whose access is translated: the value that its reader returns is in `rd`. -/
def LoadWrites (s t : State) : Prop :=
  ∀ f instruction op read access, Fetches s f instruction op → op.loadReader = some read →
    op.dataAccess = some access → ¬DataFaults f instruction access →
    ∃ value g, read f (access.address f instruction) = .ok (value,g) ∧
      t.x = writeX s.x (getRd (deref f instruction)) value

theorem loadOp_writes (reader : FlagsReader read)
    (h : Handler.loadOp read f instruction = .ok t) (quiet : Quiet f)
    (faultless : ¬DataFaults f instruction .load) :
    ∃ value g, read f (DataAccess.load.address f instruction) = .ok (value,g) ∧
      t.x = writeX f.x (getRd (deref f instruction)) value ∧ t.hasPendingException = false := by
  obtain ⟨⟨value,g⟩,first,rest⟩ := bind_eq_ok.mp h
  obtain ⟨only,flags⟩ := reader first faultless
  have clear : ¬g.pendingException ≠ 0 := by
    rw [only]
    exact not_not.mpr quiet.exception
  have x : g.x = f.x := by rw [only]
  have pending : g.hasPendingException = f.hasPendingException := by rw [only]
  dsimp only at rest
  rw [if_neg clear,setRdValue_eq,getRd_flags flags,x] at rest
  rw [← Except.ok.inj rest]
  exact ⟨value, g, first, rfl, pending.trans quiet.flag⟩

theorem lr_writes (h : Handler.lr f instruction = .ok t) (quiet : Quiet f)
    (faultless : ¬DataFaults f instruction .loadReserved) :
    ∃ value g, readWord f (DataAccess.loadReserved.address f instruction) = .ok (value,g) ∧
      t.x = writeX f.x (getRd (deref f instruction)) value ∧ t.hasPendingException = false := by
  obtain ⟨⟨value,g⟩,first,rest⟩ := bind_eq_ok.mp h
  obtain ⟨only,flags⟩ := readCommon_flagsReader sizeWord first faultless
  have x : g.x = f.x := by rw [only]
  have pending : g.hasPendingException = f.hasPendingException := by rw [only]
  dsimp only at rest
  rw [setRdValue_eq,getRd_flags flags,x] at rest
  rw [← Except.ok.inj rest]
  exact ⟨value, g, first, rfl, pending.trans quiet.flag⟩

theorem execute_load [Platform] (reader : op.loadReader = some read)
    (accesses : op.dataAccess = some access) (h : execute op f instruction = .ok t) (quiet : Quiet f)
    (faultless : ¬DataFaults f instruction access) :
    ∃ value g, read f (access.address f instruction) = .ok (value,g) ∧
      t.x = writeX f.x (getRd (deref f instruction)) value ∧ t.hasPendingException = false := by
  have flags : FlagsReader read := Op.loadReader_flags reader
  cases op <;> simp only [Op.loadReader,Option.some.injEq,reduceCtorEq] at reader
  all_goals
    obtain rfl := Option.some.inj accesses
    subst reader
  case lr => exact lr_writes h quiet faultless
  all_goals exact loadOp_writes flags h quiet faultless

theorem emulateOp_loadWrites [Platform] (quiet : Quiet s) (step : emulateOp s = .ok t) :
    LoadWrites s t := by
  intro f instruction op read access fetched reader accesses faultless
  rw [emulateOp_fetched fetched] at step
  obtain ⟨g,ran,rest⟩ := bind_eq_ok.mp step
  obtain ⟨value,h,returned,x,pending⟩ :=
    execute_load reader accesses ran (fetched.quiet quiet) faultless
  have same : f.x = s.x := by rw [fetched.frame]
  refine ⟨value, h, returned, ?_⟩
  rw [← Except.ok.inj rest,finishOp_quiet pending,← same,← x]
  rfl

end Loads

/-- What a step itself may take a trap for, with the cause and value that are reported: its
fetch faults or reaches no range, its data access faults, or it is an environment call. -/
inductive OwnCause (s : State) : Word → Word → Prop
  | fetch (faults : PageFaults s s.pc .fetch) : OwnCause s causeFetchPageFault s.pc
  | unmapped (translated : translateAddress s s.pc .fetch = .ok t)
      (assigned : t.physicalAddress = some physicalAddress)
      (outside : getPhysMemRange s.memoryMap physicalAddress = none) : OwnCause s 0 0
  | data (fetched : Fetches s f instruction op) (accesses : op.dataAccess = some access)
      (faults : DataFaults f instruction access) :
      OwnCause s (pageFaultCause access.accessType) (access.address f instruction)
  | ecall (fetched : Fetches s f instruction .ecall) (tval : Word) : OwnCause s (ecallCause s) tval

/-- No trap is taken, or one for a cause of this step. -/
def OwnTrap (s t : State) : Prop :=
  t.traps = s.traps ∨
    ∃ cause tval, OwnCause s cause tval ∧ t.traps = ⟨s.pc + 4, cause, tval⟩ :: s.traps

theorem traceEcall_cause {s : State} (h : traceEcall s = .ok t) : ecallCause t = ecallCause s := by
  by_cases user : s.privilege = privU
  · have same : t.privilege = s.privilege := by rw [traceEcall_traced h]
    unfold ecallCause
    rw [same,user]
    rfl
  · rw [traceEcall,if_neg user] at h
    rw [← Except.ok.inj h]

theorem Fetches.ecallCause (fetched : Fetches s f instruction op) : ecallCause f = ecallCause s := by
  rw [fetched.frame]
  rfl

theorem emulateOp_ownTrap [Platform] (quiet : Quiet s) (step : emulateOp s = .ok t) : OwnTrap s t := by
  cases emulateOp_cases step with
  | fetchFault faults => exact Or.inr ⟨_, _, .fetch faults, raiseException_traps ..⟩
  | unmapped translated assigned outside =>
    refine Or.inr ⟨_, _, .unmapped translated assigned outside, ?_⟩
    rw [raiseException_traps,quiet.exception,quiet.tval,translateAddress_ramOnly translated]
  | executed fetched ran =>
    cases execute_cases ran with
    | framed frame =>
      refine Or.inl (finishOp_silent fetched quiet.flag ?_ ?_) <;> rw [frame.rest]
    | csr number =>
      refine Or.inl (finishOp_silent fetched quiet.flag ?_ ?_) <;> rw [csrHandler_rest]
    | mret returned =>
      refine Or.inl (finishOp_silent fetched quiet.flag ?_ ?_) <;> rw [(mret_ok returned).2] <;> rfl
    | sret returned =>
      refine Or.inl (finishOp_silent fetched quiet.flag ?_ ?_) <;> rw [(sret_ok returned).2] <;> rfl
    | ecall called =>
      obtain ⟨g,traced,rest⟩ := bind_eq_ok.mp called
      have frame := traceEcall_traced traced
      have pc : g.pc = s.pc + 4 := by
        rw [frame]
        exact fetched.midStep.pc
      have traps : g.traps = s.traps := by
        rw [frame]
        exact fetched.midStep.traps
      have taken : (raiseEcall g).traps = ⟨g.pc, ecallCause g, g.pendingTval⟩ :: g.traps :=
        raiseException_traps ..
      rw [pc,traps,traceEcall_cause traced,fetched.ecallCause] at taken
      have pending : (raiseEcall g).hasPendingException = false := raiseException_pending ..
      rw [← Except.ok.inj rest,finishOp_quiet pending]
      exact Or.inr ⟨_, _, .ecall fetched g.pendingTval, taken⟩
    | faulted accesses faults =>
      rename_i access
      rw [finishOp_pending (show (access.faulted _ _).hasPendingException = true from rfl)]
      refine Or.inr ⟨_, _, .data fetched accesses faults, (raiseException_traps ..).trans ?_⟩
      rw [← fetched.midStep.pc,← fetched.midStep.traps]
      rfl

/-- A step from a state without a pending exception to one without, in which a load writes
`rd` and no trap is left over from an earlier step. -/
structure CleanStep (s t : State) : Prop where
  start : Quiet s
  done : Quiet t
  loads : LoadWrites s t
  trap : OwnTrap s t

/-- The run lemma. -/
theorem machineRun_clean [Platform] (reset : AtReset s) (run : MachineRun s steps) :
    Quiet s ∧ Every (fun s _ t => CleanStep s t) s steps := by
  refine ⟨reset.quiet, run.every reset.quiet ?_ ?_⟩
  · intro s _ t quiet step
    exact emulateOp_quiet quiet step
  · intro s _ t quiet step
    exact ⟨quiet, emulateOp_quiet quiet step, emulateOp_loadWrites quiet step,
      emulateOp_ownTrap quiet step⟩

/-- A machine whose only RAM range holds the words from its start, where it begins. -/
def bootMachine (words : List Word) : State :=
  { initializeStateLinux (guest privM words).memoryMap (guest privM words).ram ⟨0,0,0,0⟩
      ⟨fun _ => 0, 0, []⟩ with pc := 0x80000000 }

theorem bootMachine_reset (words : List Word) : AtReset (bootMachine words) := ⟨_,_,_,_,_,rfl⟩

/-- `auipc x6, 0` and `lw x5, 0(x6)`. -/
def bootLoad : State := bootMachine [0x00000317,0x00032283]

/-- A computation that ends with some property. -/
theorem exists_ok {x : Except Stop α} (test : α → Bool)
    (computed : x.toOption.any test = true) : ∃ t, x = .ok t ∧ test t = true := by
  cases x with
  | ok t => exact ⟨t,rfl,computed⟩
  | error e => contradiction

theorem bootLoad_steps : ∃ t u, @emulateOp clearingPlatform bootLoad = .ok t ∧
    @emulateOp clearingPlatform t = .ok u := by
  obtain ⟨u,both,_⟩ := exists_ok
    (x := @emulateOp clearingPlatform bootLoad >>= @emulateOp clearingPlatform)
    (fun _ => true) (by decide +kernel)
  obtain ⟨t,first,second⟩ := bind_eq_ok.mp both
  exact ⟨t,u,first,second⟩

theorem machineRun_clean_bootLoad :
    ∃ t u, @emulateOp clearingPlatform bootLoad = .ok t ∧ @emulateOp clearingPlatform t = .ok u ∧
      Quiet bootLoad ∧ Every (fun s _ t => CleanStep s t) bootLoad [((),t),((),u)] := by
  obtain ⟨t,u,first,second⟩ := bootLoad_steps
  exact ⟨t, u, first, second,
    @machineRun_clean _ _ clearingPlatform (bootMachine_reset _) (.cons first (.cons second .nil))⟩

end Emuriscv
