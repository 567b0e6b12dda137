import Emuriscv.Execute
import Emuriscv.TrapEntry

/-! One call of `emulate_op`, taken apart: the fetch, the handler, and the trap at the end.
Every later result about a step is read off these cases. -/
namespace Emuriscv

/-- The fetch of a step succeeds: the state, with `pc` moved on, and the instruction that
its handler is called with. -/
structure Fetches (s f : State) (instruction : WordPtr) (op : Op) : Prop where
  looked : ∃ l, getMemoryTarget s s.pc .fetch = .ok l ∧ l.status = translateOk ∧
    f = { l.state with pc := l.state.pc + 4 } ∧ codePtr f l.target = .ok instruction
  decoded : decode (deref f instruction) = some op

section Fetch

variable {s f : State} {instruction : WordPtr} {op : Op}

theorem Fetches.noFault (fetched : Fetches s f instruction op) : ¬PageFaults s s.pc .fetch := by
  obtain ⟨l,looked,ok,_⟩ := fetched.looked
  intro faults
  rw [getMemoryTarget_fault faults] at looked
  rw [← Except.ok.inj looked] at ok
  contradiction

/-- A successful fetch moves `pc` and may set page-table flags. -/
theorem Fetches.frame (fetched : Fetches s f instruction op) :
    f = { s with pc := s.pc + 4, ram := f.ram } := by
  obtain ⟨l,looked,_,rfl,_⟩ := fetched.looked
  have only := (getMemoryTarget_quiet looked fetched.noFault).1
  rw [only]

end Fetch

/-- A step fetches one instruction. -/
theorem Fetches.unique {s f g : State} {p q : WordPtr} (first : Fetches s f p op)
    (second : Fetches s g q op') : f = g ∧ p = q ∧ op = op' := by
  obtain ⟨⟨l,looked,_,rfl,located⟩,decoded⟩ := first
  obtain ⟨⟨l',looked',_,rfl,located'⟩,decoded'⟩ := second
  obtain rfl := Except.ok.inj (looked.symm.trans looked')
  obtain rfl := Except.ok.inj (located.symm.trans located')
  exact ⟨rfl, rfl, Option.some.inj (decoded.symm.trans decoded')⟩

/-- An instruction on a mapped page whose word lies in RAM is fetched. -/
theorem fetches_of_leaf {s : State} {instruction : WordPtr} (paged : Paged s)
    (leaf : busWalk s s.pc = .leaf level address entry)
    (located : wordLocation s.memoryMap (leafPhysical level entry s.pc) = some instruction)
    (decoded : decode (deref (markEntry s address entry .fetch) instruction) = some op) :
    Fetches s { markEntry s address entry .fetch with
      pc := (markEntry s address entry .fetch).pc + 4 } instruction op := by
  refine ⟨?_,decoded⟩
  have map : (markEntry s address entry .fetch).memoryMap = s.memoryMap := by
    rw [markEntry_ramOnly s address entry .fetch]
  have inside := wordLocation_inside located
  obtain ⟨range,found,ram,rfl,_⟩ := wordLocation_some located
  have looked := getMemoryTarget_covered (translateAddress_leaf paged .fetch leaf) rfl found
  have base : range.physMemPtr = some range.index := if_pos ram
  rw [base] at looked
  have bound : (leafPhysical level entry s.pc - range.entry.address).toNat + 3 <
      (markEntry s address entry .fetch).bufferSize range.index := by
    rw [State.bufferSize,map]
    exact inside
  exact ⟨_, looked, rfl, rfl, if_pos bound⟩

/-- Where addresses are not translated, the word at `pc` is fetched. -/
theorem looked_direct {s : State} {instruction : WordPtr} (direct : ¬Walks s)
    (located : wordLocation s.memoryMap s.pc = some instruction) :
    ∃ l, getMemoryTarget s s.pc .fetch = .ok l ∧ l.status = translateOk ∧
      { s with pc := s.pc + 4 } = { l.state with pc := l.state.pc + 4 } ∧
      codePtr { s with pc := s.pc + 4 } l.target = .ok instruction := by
  have inside := wordLocation_inside located
  obtain ⟨range,found,ram,rfl,_⟩ := wordLocation_some located
  have looked := getMemoryTarget_covered (translateAddress_direct direct s.pc .fetch) rfl found
  have base : range.physMemPtr = some range.index := if_pos ram
  rw [base] at looked
  exact ⟨_, looked, rfl, rfl, if_pos inside⟩

theorem fetches_direct {s : State} {instruction : WordPtr} (direct : ¬Walks s)
    (located : wordLocation s.memoryMap s.pc = some instruction)
    (decoded : decode (deref s instruction) = some op) :
    Fetches s { s with pc := s.pc + 4 } instruction op :=
  ⟨looked_direct direct located, decoded⟩

/-- Once the fetch has succeeded, the step is the handler and the end of the step. -/
theorem emulateOp_fetched [Platform] (fetched : Fetches s f instruction op) :
    emulateOp s = execute op f instruction >>= fun t => pure (finishOp t) := by
  obtain ⟨l,looked,ok,rfl,located⟩ := fetched.looked
  have decoded := fetched.decoded
  unfold emulateOp
  rw [looked,ok_bind]
  dsimp only
  rw [if_neg (not_not.mpr ok),located,ok_bind,decoded]

/-- The fetch of a step reaches a word in RAM, whatever the word is. -/
def FetchesWord (s f : State) (instruction : WordPtr) : Prop :=
  ∃ l, getMemoryTarget s s.pc .fetch = .ok l ∧ l.status = translateOk ∧
    f = { l.state with pc := l.state.pc + 4 } ∧ codePtr f l.target = .ok instruction

theorem emulateOp_undecoded [Platform] (fetched : FetchesWord s f instruction)
    (undecoded : decode (deref f instruction) = none) :
    emulateOp s = .error (.exit exitIllegalInstruction) := by
  obtain ⟨l,looked,ok,rfl,located⟩ := fetched
  unfold emulateOp
  rw [looked,ok_bind]
  dsimp only
  rw [if_neg (not_not.mpr ok),located,ok_bind,undecoded]
  rfl

theorem emulateOp_executed [Platform] (fetched : Fetches s f instruction op)
    (ran : execute op f instruction = .ok t) : emulateOp s = .ok (finishOp t) := by
  rw [emulateOp_fetched fetched,ran]
  rfl

/-- All the ways in which a step returns. -/
inductive Stepped [Platform] (s : State) : State → Prop
  | fetchFault (faults : PageFaults s s.pc .fetch) : Stepped s
      (raiseException { pendFault s s.pc .fetch with pc := s.pc + 4 } causeFetchPageFault s.pc)
  | unmapped (translated : translateAddress s s.pc .fetch = .ok t)
      (assigned : t.physicalAddress = some physicalAddress)
      (outside : getPhysMemRange s.memoryMap physicalAddress = none) : Stepped s
      (raiseException { t.state with pc := s.pc + 4 } s.pendingException s.pendingTval)
  | executed (fetched : Fetches s f instruction op) (ran : execute op f instruction = .ok t) :
      Stepped s (finishOp t)

theorem emulateOp_cases [Platform] (h : emulateOp s = .ok s') : Stepped s s' := by
  obtain ⟨l,looked,rest⟩ := bind_eq_ok.mp h
  dsimp only at rest
  by_cases faults : PageFaults s s.pc .fetch
  · rw [getMemoryTarget_fault faults] at looked
    obtain rfl := Except.ok.inj looked
    rw [if_pos (show pageFault ≠ translateOk by decide)] at rest
    rw [← Except.ok.inj rest]
    exact .fetchFault faults
  · by_cases ok : l.status = translateOk
    · rw [if_neg (not_not.mpr ok)] at rest
      obtain ⟨instruction,located,rest⟩ := bind_eq_ok.mp rest
      cases decoded : decode (deref { l.state with pc := l.state.pc + 4 } instruction) with
      | none =>
        rw [decoded] at rest
        contradiction
      | some op =>
        rw [decoded] at rest
        obtain ⟨t,ran,rest⟩ := bind_eq_ok.mp rest
        rw [← Except.ok.inj rest]
        exact .executed ⟨⟨l,looked,ok,rfl,located⟩,decoded⟩ ran
    · rw [if_pos ok] at rest
      rw [← Except.ok.inj rest]
      obtain ⟨t,physicalAddress,translated,assigned,state,found⟩ := getMemoryTarget_ok looked faults
      have only := translateAddress_ramOnly translated
      have outside : getPhysMemRange t.state.memoryMap physicalAddress = none := by
        refine getMemoryTargetPhysical_outside fun status => ok ?_
        rw [← status]
        exact congrArg Prod.fst found
      have pc : t.state.pc = s.pc := by rw [only]
      have exception : t.state.pendingException = s.pendingException := by rw [only]
      have tval : t.state.pendingTval = s.pendingTval := by rw [only]
      have map : t.state.memoryMap = s.memoryMap := by rw [only]
      change Stepped s (raiseException { l.state with pc := l.state.pc + 4 }
        l.state.pendingException l.state.pendingTval)
      rw [state,pc,exception,tval]
      rw [map] at outside
      exact .unmapped translated assigned outside

/-- The bookkeeping of a step, after the trap if there was one. -/
def retire (s : State) : State :=
  let s := { s with pcHistory := Function.update s.pcHistory (Fin.last 7) s.pc }
  let s := { s with instructionCounter := s.instructionCounter + 1 }
  let s := writeCsr s csrTime s.instructionCounter
  writeCsr s csrCycle s.instructionCounter

/-- The state in which `emulate_op` tests for a pending exception. -/
def dispatched (s : State) : State := { s with pcHistory := shiftPcHistory s.pcHistory }

theorem finishOp_quiet {s : State} (quiet : s.hasPendingException = false) :
    finishOp s = retire (dispatched s) := by
  have skip : ¬(dispatched s).hasPendingException = true := by
    rw [dispatched,quiet]
    decide
  exact congrArg retire (if_neg skip)

/-- A pending exception is raised with the pending cause and value. -/
theorem finishOp_pending {s : State} (pending : s.hasPendingException = true) :
    finishOp s = retire (raiseException (dispatched s) s.pendingException s.pendingTval) :=
  congrArg retire (if_pos (show (dispatched s).hasPendingException = true from pending))

theorem retire_csr (s : State) {number : CsrNumber} (time : number ≠ csrTime)
    (cycle : number ≠ csrCycle) : readCsr (retire s) number = readCsr s number :=
  (writeCsr_other _ _ _ _ cycle).trans (writeCsr_other _ _ _ _ time)

end Emuriscv
