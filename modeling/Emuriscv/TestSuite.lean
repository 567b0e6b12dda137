import Emuriscv.HartRefinement
import Emuriscv.ImagePlacement
import Emuriscv.Registration

/-! The build that runs the test suite. Its `ecall` goes to a callback that ends a test, and its
loop runs each binary in a machine of its own. The verdict is that of the program. -/
namespace Emuriscv

open LabelledRun Segment

def syscallReg : RegisterIndex := 17
def exitCall : Word := 93
def syscallArg0 : RegisterIndex := 10
def testFail : Word := 0
def testRamSize : Word := 1 * 1024 * 1024
def exitTestFailed : Nat := 0x1001

/-- The hart of a test, and `last_exit_code`. -/
structure TestBench where
  state : State
  lastExitCode : Word

def testEcallCallback (b : TestBench) : TestBench :=
  if b.state.x syscallReg = exitCall then
    ⟨{ b.state with status := .exitTermination }, b.state.x syscallArg0⟩
  else b

def checkTestExitCode (b : TestBench) : Except Stop Unit :=
  if b.lastExitCode = testFail then throw (.exit exitTestFailed) else pure ()

/-- The handlers of this build. -/
def executeTest [Platform] (op : Op) (b : TestBench) (instruction : WordPtr) :
    Except Stop TestBench :=
  match op with
  | .ecall => pure (testEcallCallback b)
  | op => do
    let s ← execute op b.state instruction
    pure { b with state := s }

/-- `emulate_op` of this build. -/
def emulateOpTest [Platform] (b : TestBench) : Except Stop TestBench := do
  let l ← getMemoryTarget b.state b.state.pc .fetch
  let s := { l.state with pc := l.state.pc + 4 }
  if l.status ≠ translateOk then
    pure { b with state := raiseException s s.pendingException s.pendingTval }
  else
    let instruction ← codePtr s l.target
    match decode (deref s instruction) with
    | some op =>
      let b ← executeTest op { b with state := s } instruction
      pure { b with state := finishOp b.state }
    | none => throw (.exit exitIllegalInstruction)

/-- The loop of `test_bin`, which prints each instruction before it is executed. -/
def testLoop [Platform] : Nat → TestBench → Except Stop (Option TestBench)
  | 0, _ => pure none
  | fuel + 1, b => do
    let l ← getMemoryTarget b.state b.state.pc .fetch
    let _ ← codePtr l.state l.target
    let b ← emulateOpTest { b with state := l.state }
    if b.state.status = .exitTermination then
      checkTestExitCode b
      pure (some b)
    else testLoop fuel b

def testMap : MemoryMap := [⟨0,testRamSize,true,none,none⟩]

/-- The word `ecall` at `pc`. -/
def Calls (h : Rv32ima.Hart) : Prop := InsideRam testMap h.pc 4 ∧ h.wordAt h.pc = 0x73

/-- An instruction that the handlers execute as the architecture has it, or a call that is not
`exit` and does nothing. -/
inductive TestStep (h : Rv32ima.Hart) : Option (Rv32ima.Instruction × Word) → Rv32ima.Hart → Prop
  | instruction (step : Rv32ima.Step Encoded (InsideRam testMap) h executed h')
      (conforms : Conforms h executed.1 executed.2) : TestStep h (some executed) h'
  | call (calls : Calls h) (other : h.x syscallReg ≠ exitCall) :
      TestStep h none { h with pc := h.pc + 4 }

section Steps

variable [Platform] {b : TestBench} {h h' : Rv32ima.Hart}

theorem emulateOpTest_fetched (fetched : Fetches b.state f p op) :
    emulateOpTest b = executeTest op { b with state := f } p >>= fun b =>
      pure { b with state := finishOp b.state } := by
  obtain ⟨l,looked,ok,rfl,located⟩ := fetched.looked
  have decoded := fetched.decoded
  unfold emulateOpTest
  rw [looked,ok_bind]
  dsimp only
  rw [if_neg (not_not.mpr ok),located,ok_bind,decoded]

/-- But for `ecall` the builds agree. -/
theorem emulateOpTest_eq (fetched : Fetches b.state f p op) (other : op ≠ .ecall) :
    emulateOpTest b = emulateOp b.state >>= fun s => pure { b with state := s } := by
  have handler : executeTest op { b with state := f } p =
      execute op f p >>= fun s => pure { b with state := s } := by
    cases op <;> first | contradiction | rfl
  rw [emulateOpTest_fetched fetched,emulateOp_fetched fetched,handler]
  cases execute op f p <;> rfl

/-- A test that runs: the state carries out the hart. -/
structure Running (h : Rv32ima.Hart) (b : TestBench) : Prop where
  refines : Refines (.bare testMap) h b.state
  quiet : Quiet b.state
  status : b.state.status = .running

omit [Platform] in
theorem testMap_separate : Separate testMap := by
  refine ⟨?_, List.pairwise_singleton _ _⟩
  intro range member
  obtain rfl := List.mem_singleton.mp member
  decide

theorem testMap_lawful : (AddressSpace.bare testMap).Lawful :=
  AddressSpace.bare_lawful testMap_separate

theorem Running.fetch (running : Running h b) (inside : InsideRam testMap h.pc 4) :
    ∃ f p, FetchesWord b.state f p ∧ RamOnly (pastPc b.state) f ∧ Handles (.bare testMap) h f p ∧
      deref f p = h.wordAt h.pc := by
  obtain ⟨f,p,fetched,only,handles⟩ := running.refines.fetch testMap_lawful running.quiet inside
  exact ⟨f, p, fetched, only, handles, handles.word testMap_lawful⟩

theorem Running.fetchCall (running : Running h b) (calls : Calls h) :
    ∃ f p, Fetches b.state f p .ecall ∧ RamOnly (pastPc b.state) f ∧ Handles (.bare testMap) h f p := by
  obtain ⟨f,p,fetched,only,handles,word⟩ := running.fetch calls.1
  refine ⟨f, p, ⟨fetched, ?_⟩, only, handles⟩
  rw [word,calls.2]
  decide

omit [Platform] in
theorem Op.Means.notCall {op : Op} {instruction : Rv32ima.Instruction}
    (means : op.Means instruction) : op ≠ .ecall := by
  rintro rfl
  generalize same : Op.ecall = op at means
  cases means with
  | computation given | transfer given | multiply given | load given | store given =>
    rw [← same] at given
    contradiction
  | shift which | amo which => cases which <;> contradiction
  | jalr | loadReserved | storeConditional | fence => contradiction

/-- The step lemma. -/
theorem Running.step (running : Running h b) (step : TestStep h executed h') :
    ∃ c, emulateOpTest b = .ok c ∧ Running h' c := by
  cases step with
  | instruction step conforms =>
    obtain ⟨f,p,fetched,_,_,word⟩ := running.fetch step.fetch
    obtain ⟨op,means,encodes⟩ := step.encoded.handled conforms
    rw [step.word,← word] at encodes
    have fetches : Fetches b.state f p op := ⟨fetched, decode_of_encodes encodes⟩
    obtain ⟨t,stepped,refines,programmed⟩ :=
      emulateOp_refines running.refines testMap_lawful running.quiet step conforms
    refine ⟨{ b with state := t }, ?_, refines, programmed.quiet running.quiet, ?_⟩
    · rw [emulateOpTest_eq fetches means.notCall,stepped]
      rfl
    · rw [programmed.rest]
      exact running.status
  | call calls other =>
    obtain ⟨f,p,fetches,only,handles⟩ := running.fetchCall calls
    have answers := handles.stored (.refl _) handles.memory
    obtain ⟨refines,programmed⟩ :=
      answers.finish testMap_lawful only running.quiet running.refines.alignedNext
    have ignored : testEcallCallback { b with state := f } = { b with state := f } := by
      refine if_neg ?_
      change f.x syscallReg ≠ exitCall
      rwa [handles.x]
    refine ⟨{ b with state := finishOp f }, ?_, refines, programmed.quiet running.quiet, ?_⟩
    · rw [emulateOpTest_fetched fetches,executeTest,ignored]
      rfl
    · rw [programmed.rest]
      exact running.status

/-- The call of `exit` ends the test with its argument. -/
theorem Running.exit (running : Running h b) (calls : Calls h) (exits : h.x syscallReg = exitCall) :
    ∃ c, emulateOpTest b = .ok c ∧ c.state.status = .exitTermination ∧
      c.lastExitCode = h.x syscallArg0 := by
  obtain ⟨f,p,fetches,_,handles⟩ := running.fetchCall calls
  have called : testEcallCallback { b with state := f } =
      ⟨{ f with status := .exitTermination }, f.x syscallArg0⟩ := by
    refine if_pos ?_
    change f.x syscallReg = exitCall
    rwa [handles.x]
  refine ⟨⟨finishOp { f with status := .exitTermination }, f.x syscallArg0⟩, ?_, ?_, ?_⟩
  · rw [emulateOpTest_fetched fetches,executeTest,called]
    rfl
  · have flag : ({ f with status := .exitTermination } : State).hasPendingException = false :=
      handles.quiet.flag
    rw [finishOp_quiet flag]
    rfl
  · rw [handles.x]

omit [Platform] in
theorem looked_here {s : State} (direct : ¬Walks s) (located : wordLocation s.memoryMap s.pc = some p) :
    ∃ target, getMemoryTarget s s.pc .fetch = .ok ⟨translateOk,target,s⟩ ∧ codePtr s target = .ok p := by
  have inside := wordLocation_inside located
  obtain ⟨range,found,ram,rfl,_⟩ := wordLocation_some located
  have looked := getMemoryTarget_covered (translateAddress_direct direct s.pc .fetch) rfl found
  have base : range.physMemPtr = some range.index := if_pos ram
  rw [base] at looked
  exact ⟨_, looked, if_pos inside⟩

/-- Where a fetch succeeds, what is printed makes no difference. -/
theorem Running.round (running : Running h b) (inside : InsideRam testMap h.pc 4) (fuel : Nat) :
    testLoop (fuel + 1) b = emulateOpTest b >>= fun b =>
      if b.state.status = .exitTermination then do
        checkTestExitCode b
        pure (some b)
      else testLoop fuel b := by
  obtain ⟨map,direct,_⟩ := running.refines.memory
  rw [← running.refines.pc,← map] at inside
  obtain ⟨p,located⟩ := InsideRam.word (map ▸ testMap_separate) inside
  obtain ⟨target,looked,pointer⟩ := looked_here direct located
  rw [testLoop,looked,ok_bind]
  dsimp only
  rw [pointer,ok_bind]

omit [Platform] in
theorem TestStep.fetch (step : TestStep h executed h') : InsideRam testMap h.pc 4 := by
  cases step with
  | instruction step _ => exact step.fetch
  | call calls _ => exact calls.1

end Steps

section Verdicts

variable [Platform]

end Verdicts

end Emuriscv
