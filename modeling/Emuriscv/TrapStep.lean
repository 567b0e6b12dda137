import Emuriscv.PreciseTrap

/-! The traps of a step. Whatever takes the trap (the fetch, a data access, an `ecall`), it is
taken once, in the mode that `medeleg` selects, with the CSRs of that mode describing the
instruction and those of the other mode left alone. -/
namespace Emuriscv

/-- Delegation as the architecture states it. -/
def RoutedToS (s : State) (cause : Word) : Prop :=
  (s.privilege = privU ∨ s.privilege = privS) ∧
    (readCsr s csrMedeleg).getLsbD cause.toNat = true

theorem shifted_bit (deleg : Word) (n : Nat) :
    (deleg >>> n) &&& 1 ≠ 0 ↔ deleg.getLsbD n = true := by
  have flag : (deleg >>> n) &&& 1 = if deleg.getLsbD n then 1 else 0 := by
    have low : (1 : Word) = BitVec.twoPow 32 0 := rfl
    rw [low,BitVec.and_twoPow,BitVec.getLsbD_ushiftRight,Nat.add_zero]
    rfl
  rw [flag]
  cases deleg.getLsbD n <;> decide

theorem interrupt_clear {cause : Word} (synchronous : cause.toNat < 32) :
    cause &&& ((1 : Word) <<< (xlen - 1)) = 0 := by
  have high : (1 : Word) <<< (xlen - 1) = BitVec.twoPow 32 31 := by decide
  have clear : cause.getLsbD 31 = false :=
    Nat.testBit_lt_two_pow (Nat.lt_trans synchronous (by decide))
  rw [high,BitVec.and_twoPow,if_neg (by rw [clear]; decide)]
  rfl

/-- The branch of `raise_exception` is the architecture's choice. -/
theorem trapsToSMode_iff {s : State}
    (mode : s.privilege = privU ∨ s.privilege = privS ∨ s.privilege = privM)
    (synchronous : cause.toNat < 32) : trapsToSMode s cause = true ↔ RoutedToS s cause := by
  have below : s.privilege.sle privS = true ↔ s.privilege = privU ∨ s.privilege = privS := by
    rcases mode with mode | mode | mode <;> rw [mode] <;> decide
  have small : cause < BitVec.ofNat 32 xlen := synchronous
  have exception : ¬(cause &&& ((1 : Word) <<< (xlen - 1)) ≠ 0) :=
    not_not.mpr (interrupt_clear synchronous)
  rw [trapsToSMode,Bool.and_eq_true,below,RoutedToS,delegateToSMode]
  simp only [exception,if_false,Bool.and_eq_true,decide_eq_true_eq,small,true_and,shifted_bit]

/-- A trap from `s` into one mode, the other mode's CSRs untouched. -/
structure Enters (s s' : State) (target other : TrapCsrs) (privilege cause tval : Word) : Prop where
  epc : readCsr s' target.epc = s.pc
  cause : readCsr s' target.cause = cause
  tval : readCsr s' target.tval = tval
  pc : s'.pc = readCsr s target.tvec
  privilege : s'.privilege = privilege
  otherEpc : readCsr s' other.epc = readCsr s other.epc
  otherCause : readCsr s' other.cause = readCsr s other.cause
  otherTval : readCsr s' other.tval = readCsr s other.tval

/-- Exactly one trap is taken between the two states, and it is routed by `medeleg`. -/
structure TrapTaken (s s' : State) (cause tval : Word) : Prop where
  once : s'.traps = ⟨s.pc + 4, cause, tval⟩ :: s.traps
  delegated : RoutedToS s cause → Enters s s' sTrapCsrs mTrapCsrs privS cause tval
  direct : ¬RoutedToS s cause → Enters s s' mTrapCsrs sTrapCsrs privM cause tval

/-- A point inside the step that started in `s`: `pc` has moved on, the rest of what a trap
reads has not. -/
structure MidStep (s f : State) : Prop where
  pc : f.pc = s.pc + 4
  csr : f.csr = s.csr
  privilege : f.privilege = s.privilege
  traps : f.traps = s.traps

theorem MidStep.readCsr {s f : State} (mid : MidStep s f) : readCsr f = readCsr s :=
  funext fun number => congrFun mid.csr number

theorem enterTrap_enters {s f : State} (mid : MidStep s f) {target other : TrapCsrs}
    (privilege status cause tval : Word) (apart : (csrMstatus :: trapCsrs target other).Nodup) :
    Enters s (enterTrap f target privilege status cause tval) target other privilege cause tval := by
  have values := enterTrap_trapCsrs f privilege status cause tval apart
  have pc : f.pc - 4 = s.pc := by
    rw [mid.pc]
    exact BitVec.add_sub_cancel ..
  simp only [trapCsrs,List.map_cons,List.map_nil,List.cons.injEq,pc,mid.readCsr] at values
  obtain ⟨epc,cause,tval,otherEpc,otherCause,otherTval,_⟩ := values
  exact ⟨epc, cause, tval, congrFun mid.csr target.tvec, rfl, otherEpc, otherCause, otherTval⟩

theorem raise_taken {s f : State} (mid : MidStep s f)
    (mode : s.privilege = privU ∨ s.privilege = privS ∨ s.privilege = privM) {cause : Word}
    (synchronous : cause.toNat < 32) (tval : Word) :
    TrapTaken s (raiseException f cause tval) cause tval := by
  have routed : trapsToSMode f cause = true ↔ RoutedToS s cause := by
    rw [← mid.privilege] at mode
    rw [trapsToSMode_iff mode synchronous,RoutedToS,RoutedToS,readCsr,readCsr,mid.privilege,mid.csr]
  have once := raiseException_traps f cause tval
  rw [mid.pc,mid.traps] at once
  refine ⟨once,?_,?_⟩
  · intro delegated
    rw [raiseException_delegated f cause tval (routed.mpr delegated)]
    exact enterTrap_enters mid _ _ _ _ sTrapCsrs_apart
  · intro direct
    rw [raiseException_direct f cause tval (mt routed.mp direct)]
    exact enterTrap_enters mid _ _ _ _ mTrapCsrs_apart

theorem Enters.after {s t t' : State} (enters : Enters s t target other mode reason value)
    (pc : t'.pc = t.pc) (privilege : t'.privilege = t.privilege)
    (csr : ∀ number ∈ trapCsrs target other, readCsr t' number = readCsr t number) :
    Enters s t' target other mode reason value := by
  simp only [trapCsrs,List.mem_cons,List.not_mem_nil,or_false,forall_eq_or_imp,forall_eq] at csr
  obtain ⟨epc,cause,tval,otherEpc,otherCause,otherTval⟩ := csr
  exact ⟨epc.trans enters.epc, cause.trans enters.cause, tval.trans enters.tval,
    pc.trans enters.pc, privilege.trans enters.privilege, otherEpc.trans enters.otherEpc,
    otherCause.trans enters.otherCause, otherTval.trans enters.otherTval⟩

theorem sTrapCsrs_counters :
    ∀ number ∈ trapCsrs sTrapCsrs mTrapCsrs, number ≠ csrTime ∧ number ≠ csrCycle := by
  simp [trapCsrs,sTrapCsrs,mTrapCsrs,csrSepc,csrScause,csrStval,csrMepc,csrMcause,csrMtval,csrTime,
    csrCycle]

theorem mTrapCsrs_counters :
    ∀ number ∈ trapCsrs mTrapCsrs sTrapCsrs, number ≠ csrTime ∧ number ≠ csrCycle := by
  simp [trapCsrs,sTrapCsrs,mTrapCsrs,csrSepc,csrScause,csrStval,csrMepc,csrMcause,csrMtval,csrTime,
    csrCycle]

/-- All but the two counter CSRs is as it was. -/
def UpToCounters (t t' : State) : Prop :=
  ∀ number, number ≠ csrTime → number ≠ csrCycle → readCsr t' number = readCsr t number

theorem retire_counters (s : State) : UpToCounters s (retire s) :=
  fun _ time cycle => retire_csr s time cycle

theorem Enters.afterCounters {s t t' : State} (enters : Enters s t target other mode reason value)
    (apart : ∀ number ∈ trapCsrs target other, number ≠ csrTime ∧ number ≠ csrCycle)
    (pc : t'.pc = t.pc) (privilege : t'.privilege = t.privilege) (csr : UpToCounters t t') :
    Enters s t' target other mode reason value :=
  enters.after pc privilege fun number member => csr number (apart number member).1 (apart number member).2

/-- A trap is still taken as described after changes to anything else, the two counter
CSRs included. -/
theorem TrapTaken.after {s t t' : State} (taken : TrapTaken s t cause tval) (pc : t'.pc = t.pc)
    (privilege : t'.privilege = t.privilege) (traps : t'.traps = t.traps)
    (csr : UpToCounters t t') : TrapTaken s t' cause tval := by
  refine ⟨traps.trans taken.once, fun delegated => ?_, fun direct => ?_⟩
  · exact (taken.delegated delegated).afterCounters sTrapCsrs_counters pc privilege csr
  · exact (taken.direct direct).afterCounters mTrapCsrs_counters pc privilege csr

/-- Tracing reads guest memory: it stores flags of page tables and may leave a fault pending. -/
def Traced (s t : State) : Prop := t = { s with
  ram := t.ram
  pendingTval := t.pendingTval
  pendingException := t.pendingException
  hasPendingException := t.hasPendingException }

theorem Traced.trans {s t u : State} (first : Traced s t) (second : Traced t u) : Traced s u := by
  rw [Traced,second,first]

theorem RamOnly.traced {s t : State} (only : RamOnly s t) : Traced s t := by
  rw [only]
  rfl

theorem getMemoryTarget_traced {s : State}
    (h : getMemoryTarget s virtualAddress accessType = .ok l) : Traced s l.state := by
  by_cases faults : PageFaults s virtualAddress accessType
  · rw [getMemoryTarget_fault faults] at h
    rw [← Except.ok.inj h]
    rfl
  · exact (getMemoryTarget_quiet h faults).1.traced

theorem readWord_traced {s : State} (h : readWord s address = .ok (value,t)) : Traced s t := by
  by_cases faults : PageFaults s address .load
  · rw [readWord,readCommon_fault faults] at h
    rw [← (Prod.mk.inj (Except.ok.inj h)).2]
    rfl
  · exact (readCommon_quiet h faults).1.traced

theorem dumpStringLoop_traced {s : State} (h : dumpStringLoop s address rounds = .ok t) :
    Traced s t := by
  induction rounds generalizing s address with
  | zero => contradiction
  | succ rounds ih =>
    obtain ⟨l,looked,rest⟩ := bind_eq_ok.mp h
    have first := getMemoryTarget_traced looked
    split at rest
    next => rwa [← Except.ok.inj rest]
    next =>
      obtain ⟨⟨data,middle⟩,read,rest⟩ := bind_eq_ok.mp rest
      have second := first.trans (readWord_traced read)
      dsimp only at rest
      split at rest
      next => rwa [← Except.ok.inj rest]
      next => exact second.trans (ih rest)

theorem traceEcall_traced {s : State} (h : traceEcall s = .ok t) : Traced s t := by
  unfold traceEcall at h
  dsimp only at h
  split at h
  next =>
    split at h
    next => exact dumpStringLoop_traced h
    next =>
      split at h
      next => contradiction
      next => rw [← Except.ok.inj h]; rfl
  next => rw [← Except.ok.inj h]; rfl

theorem ecallCause_cases {s : State}
    (mode : s.privilege = privU ∨ s.privilege = privS ∨ s.privilege = privM) :
    (s.privilege = privU ∧ ecallCause s = causeUserEcall) ∨
    (s.privilege = privS ∧ ecallCause s = causeSupervisorEcall) ∨
    (s.privilege = privM ∧ ecallCause s = causeMachineEcall) := by
  unfold ecallCause
  rcases mode with mode | mode | mode <;> rw [mode]
  · exact Or.inl ⟨rfl,rfl⟩
  · exact Or.inr (Or.inl ⟨rfl,rfl⟩)
  · exact Or.inr (Or.inr ⟨rfl,rfl⟩)

/-- An environment call raises its exception itself. -/
theorem ecall_taken {s f : State} (mid : MidStep s f)
    (mode : s.privilege = privU ∨ s.privilege = privS ∨ s.privilege = privM)
    (called : ecall f = .ok t) :
    t.hasPendingException = false ∧ ∃ tval, TrapTaken s t (ecallCause s) tval := by
  obtain ⟨g,traced,rest⟩ := bind_eq_ok.mp called
  have frame := traceEcall_traced traced
  have privilege : g.privilege = s.privilege := by
    rw [frame]
    exact mid.privilege
  have cause : ecallCause g = ecallCause s := by
    unfold ecallCause
    rw [privilege]
    rcases mode with mode | mode | mode <;> rw [mode] <;> rfl
  have midway : MidStep s { g with pendingException := ecallCause s } := by
    rw [frame]
    exact ⟨mid.pc,mid.csr,mid.privilege,mid.traps⟩
  have small : (ecallCause s).toNat < 32 := by
    rcases ecallCause_cases mode with ⟨_,cause⟩ | ⟨_,cause⟩ | ⟨_,cause⟩ <;> rw [cause] <;> decide
  rw [← Except.ok.inj rest,raiseEcall,cause]
  exact ⟨raiseException_pending .., g.pendingTval, raise_taken midway mode small _⟩

/-- What may take a trap in a step: the fetch, a data access, or an environment call, with
the cause and, where the architecture fixes it, the value that the trap has to report. -/
inductive StepCause (s : State) : Word → Word → Prop
  | fetch (faults : PageFaults s s.pc .fetch) : StepCause s causeFetchPageFault s.pc
  | data (fetched : Fetches s f instruction op) (accesses : op.dataAccess = some access)
      (faults : DataFaults f instruction access) :
      StepCause s (pageFaultCause access.accessType) (access.address f instruction)
  | ecall (fetched : Fetches s f instruction .ecall)
      (level : (s.privilege = privU ∧ cause = causeUserEcall) ∨
        (s.privilege = privS ∧ cause = causeSupervisorEcall) ∨
        (s.privilege = privM ∧ cause = causeMachineEcall)) (tval : Word) : StepCause s cause tval

theorem pageFaultCause_small (accessType : AccessType) : (pageFaultCause accessType).toNat < 32 := by
  cases accessType <;> decide

theorem Fetches.midStep (fetched : Fetches s f instruction op) : MidStep s f := by
  have frame := fetched.frame
  constructor <;> rw [frame]

/-- A handler that leaves the log and the pending flag alone takes no trap. -/
theorem finishOp_silent {s f t : State} (fetched : Fetches s f instruction op)
    (noException : s.hasPendingException = false) (traps : t.traps = f.traps)
    (pending : t.hasPendingException = f.hasPendingException) : (finishOp t).traps = s.traps := by
  have quiet : f.hasPendingException = s.hasPendingException := by rw [fetched.frame]
  rw [finishOp_quiet (pending.trans (quiet.trans noException))]
  exact traps.trans fetched.midStep.traps

section Traps

variable [Platform] {s s' : State}

theorem stepped_cause
    (mode : s.privilege = privU ∨ s.privilege = privS ∨ s.privilege = privM)
    (noException : s.hasPendingException = false)
    (registered : ∀ t physicalAddress, translateAddress s s.pc .fetch = .ok t →
      t.physicalAddress = some physicalAddress →
      getPhysMemRange s.memoryMap physicalAddress ≠ none)
    (stepped : Stepped s s') :
    s'.traps = s.traps ∨ ∃ cause tval, StepCause s cause tval ∧ TrapTaken s s' cause tval := by
  cases stepped with
  | fetchFault faults =>
    have mid : MidStep s { pendFault s s.pc .fetch with pc := s.pc + 4 } := ⟨rfl,rfl,rfl,rfl⟩
    exact Or.inr ⟨_, _, .fetch faults, raise_taken mid mode (by decide) _⟩
  | unmapped translated assigned outside => exact absurd outside (registered _ _ translated assigned)
  | @executed f instruction op t fetched ran =>
    cases execute_cases ran with
    | framed frame =>
      refine Or.inl (finishOp_silent fetched noException ?_ ?_) <;> rw [frame.rest]
    | csr number =>
      refine Or.inl (finishOp_silent fetched noException ?_ ?_) <;> rw [csrHandler_rest]
    | mret returned =>
      refine Or.inl (finishOp_silent fetched noException ?_ ?_) <;> rw [(mret_ok returned).2] <;> rfl
    | sret returned =>
      refine Or.inl (finishOp_silent fetched noException ?_ ?_) <;> rw [(sret_ok returned).2] <;> rfl
    | ecall called =>
      obtain ⟨pending,tval,taken⟩ := ecall_taken fetched.midStep mode called
      rw [finishOp_quiet pending]
      refine Or.inr ⟨_, tval, .ecall fetched (ecallCause_cases mode) tval, ?_⟩
      exact taken.after rfl rfl rfl (retire_counters _)
    | faulted accesses faults =>
      rename_i access
      have mid : MidStep s (dispatched (access.faulted f instruction)) :=
        ⟨fetched.midStep.pc,fetched.midStep.csr,fetched.midStep.privilege,fetched.midStep.traps⟩
      rw [finishOp_pending (show (access.faulted f instruction).hasPendingException = true from rfl)]
      refine Or.inr ⟨_, _, .data fetched accesses faults, ?_⟩
      exact (raise_taken mid mode (pageFaultCause_small _) _).after rfl rfl rfl (retire_counters _)

/-- Every cause takes its trap. -/
theorem cause_traps (mode : s.privilege = privU ∨ s.privilege = privS ∨ s.privilege = privM)
    (step : emulateOp s = .ok s') (because : StepCause s cause tval) : s'.traps ≠ s.traps := by
  cases because with
  | fetch faults =>
    cases emulateOp_cases step with
    | fetchFault faults =>
      rw [raiseException_traps]
      exact List.cons_ne_self _ _
    | unmapped translated assigned outside =>
      obtain ⟨_,again,fault⟩ := faults
      obtain rfl := Except.ok.inj (again.symm.trans translated)
      rw [translateAddress_assigned translated assigned] at fault
      contradiction
    | executed fetched ran => exact absurd faults fetched.noFault
  | data fetched accesses faults =>
    obtain ⟨s'',stepped,trapped,_⟩ := faulting_step fetched accesses faults
    obtain rfl := Except.ok.inj (stepped.symm.trans step)
    rw [trapped]
    exact List.cons_ne_self _ _
  | ecall fetched level tval =>
    rw [emulateOp_fetched fetched] at step
    obtain ⟨t,called,rest⟩ := bind_eq_ok.mp step
    obtain ⟨pending,tval,taken⟩ := ecall_taken fetched.midStep mode called
    rw [← Except.ok.inj rest,finishOp_quiet pending]
    exact fun same => List.cons_ne_self _ _ (taken.once.symm.trans same)

/-- A trap of a step has a cause, and is taken once and as the architecture has it; and
every cause takes its trap. -/
theorem emulateOp_traps (mode : s.privilege = privU ∨ s.privilege = privS ∨ s.privilege = privM)
    (noException : s.hasPendingException = false)
    (registered : ∀ t physicalAddress, translateAddress s s.pc .fetch = .ok t →
      t.physicalAddress = some physicalAddress →
      getPhysMemRange s.memoryMap physicalAddress ≠ none)
    (step : emulateOp s = .ok s') :
    (s'.traps ≠ s.traps → ∃ cause tval, StepCause s cause tval ∧ TrapTaken s s' cause tval) ∧
    ∀ cause tval, StepCause s cause tval → s'.traps ≠ s.traps := by
  constructor
  · intro trapped
    exact (stepped_cause mode noException registered (emulateOp_cases step)).resolve_left trapped
  · intro cause tval because
    exact cause_traps mode step because

end Traps

theorem emulateOp_traps_demandPaged :
    ∃ s', @emulateOp clearingPlatform demandPaged = .ok s' ∧
      (s'.traps ≠ demandPaged.traps →
        ∃ cause tval, StepCause demandPaged cause tval ∧ TrapTaken demandPaged s' cause tval) ∧
      ∀ cause tval, StepCause demandPaged cause tval → s'.traps ≠ demandPaged.traps := by
  obtain ⟨s',stepped,_⟩ :=
    @faulting_step _ _ _ _ _ clearingPlatform demandPaged_fetches rfl demandPaged_faults
  refine ⟨s', stepped,
    @emulateOp_traps clearingPlatform _ _ (Or.inr (Or.inl rfl)) rfl ?_ stepped⟩
  intro t physicalAddress translated assigned
  have fetch := translateAddress_leaf demandPaged_paged .fetch demandPaged_leaf
  obtain rfl := Except.ok.inj (fetch.symm.trans translated)
  obtain rfl := Option.some.inj assigned
  decide

end Emuriscv
