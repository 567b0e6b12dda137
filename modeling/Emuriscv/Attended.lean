import Emuriscv.MonitorLine
import Emuriscv.Step

/-! The emulator with an operator. Two calls of a user program stop in the monitor, whose `step` may
execute such a call again; whoever types is asked for a line at a time, and the functions below pass
on what is left of the input. -/
namespace Emuriscv.Attended

open Monitor Numeral

/-- A part of the emulator that may read from the input. -/
abbrev Emulator := State → Text → Except Stop (State × Text)

/-- The calls that stop in the monitor; 98 is `futex`. -/
def OpensMonitor (s : State) : Prop :=
  s.privilege = privU ∧ (s.x (regA 7) = 422 ∨ s.x (regA 7) = 98)

/-- No file name is dumped for them. -/
theorem OpensMonitor.unnamed {s : State} (opens : OpensMonitor s) :
    ¬(s.x (regA 7) = 56 ∨ s.x (regA 7) = 48 ∨ s.x (regA 7) = 291 ∨ s.x (regA 7) = 78) := by
  rcases opens.2 with number | number <;> rw [number] <;> decide

section Source

variable [Platform] (sizeBits : Nat) (symbols : List Symbol) (files : Files)

omit [Platform] in
/-- The traced calls, with `run_monitor` for an argument. The `getch` at the end waits for a key. -/
def traceEcall (session : Emulator) (s : State) (input : Text) : Except Stop (State × Text) :=
  if s.privilege = privU then
    let nr := s.x (regA 7)
    if nr = 56 ∨ nr = 48 ∨ nr = 291 ∨ nr = 78 then do
      let s ← dumpStringVirtual s (s.x (regA 1))
      pure (s,input)
    else if nr = 422 ∨ nr = 98 then session s input
    else pure (s,input)
  else pure (s,input)

omit [Platform] in
def ecall (session : Emulator) (s : State) (input : Text) : Except Stop (State × Text) := do
  let (s, input) ← traceEcall session s input
  pure (raiseEcall s,input)

def execute (session : Emulator) (op : Op) (s : State) (input : Text) (instruction : WordPtr) :
    Except Stop (State × Text) :=
  match op with
  | .ecall => ecall session s input
  | op => do
    let s ← Emuriscv.execute op s instruction
    pure (s,input)

/-- `emulate_op`, with `run_monitor` for an argument. -/
def emulateOpWith (session : Emulator) (s : State) (input : Text) : Except Stop (State × Text) := do
  let l ← getMemoryTarget s s.pc .fetch
  let s := { l.state with pc := l.state.pc + 4 }
  if l.status ≠ translateOk then
    pure (raiseException s s.pendingException s.pendingTval,input)
  else
    let instruction ← codePtr s l.target
    match decode (deref s instruction) with
    | some op =>
      let (s, input) ← execute session op s input instruction
      pure (finishOp s,input)
    | none => throw (.exit exitIllegalInstruction)

omit [Platform] in
def stepLoop (emulate : Emulator) : Nat → State → Text → Except Stop (State × Text)
  | 0, s, input => pure (s,input)
  | n + 1, s, input => do
    let (s, input) ← emulate s input
    stepLoop emulate n s input

/-- The body of a branch. All but that of `step` are as they were. -/
def perform (emulate : Emulator) (s : State) (input : Text) : Action → Except Stop (State × Text)
  | .step count => stepLoop emulate count s input
  | action => do
    let s ← action.perform sizeBits symbols files s
    pure (s,input)

/-- `run_monitor_loop`, with `emulate_op` for an argument. -/
def runMonitorLoopWith (emulate : Emulator) (s : State) (input : Text) :
    Except Stop (Int × State × Text) :=
  if input = [] then pure (-1,s,[])
  else do
    let (buffer, rest) := fgets 63 input
    let action ← interpret sizeBits (chomp buffer)
    let (s, rest) ← perform sizeBits symbols files emulate s rest action
    pure (if action = .quit then 1 else 0,s,rest)

/-- The loop of `run_monitor`, in that many rounds. -/
def runMonitorRounds (emulate : Emulator) : Nat → Emulator
  | 0, _, _ => throw .diverges
  | rounds + 1, s, input => do
    let (status, s, rest) ← runMonitorLoopWith sizeBits symbols files emulate s input
    if status ≠ 0 then pure (s,rest) else runMonitorRounds emulate rounds s rest

/-- Every round but the last takes a character at least. -/
def runMonitorWith (emulate : Emulator) : Emulator := fun s input =>
  runMonitorRounds sizeBits symbols files emulate (input.length + 1) s input

/-- `emulate_op`, where sessions are nested no deeper than that. -/
def emulateOpAt : Nat → Emulator
  | 0, _, _ => throw .diverges
  | depth + 1, s, input =>
    emulateOpWith (runMonitorWith sizeBits symbols files (emulateOpAt depth)) s input

/-- `emulate_op`. A session opens another one only after it has read a line. -/
def emulateOp : Emulator := fun s input =>
  emulateOpAt sizeBits symbols files (input.length + 1) s input

def runMonitorLoop : State → Text → Except Stop (Int × State × Text) :=
  runMonitorLoopWith sizeBits symbols files (emulateOp sizeBits symbols files)

def runMonitor : Emulator := runMonitorWith sizeBits symbols files (emulateOp sizeBits symbols files)

end Source

/-- What is left of the input is no longer than the input. -/
def Shrinks (emulate : Emulator) : Prop :=
  ∀ s input t rest, emulate s input = .ok (t,rest) → rest.length ≤ input.length

/-- Both do the same while less than `n` characters are left. -/
def Agree (n : Nat) (emulate emulate' : Emulator) : Prop :=
  ∀ s input, input.length < n → emulate s input = emulate' s input

section Depth

variable [Platform] {sizeBits : Nat} {symbols : List Symbol} {files : Files} {emulate emulate' : Emulator}

omit [Platform] in
theorem stepLoop_shrinks (shrinks : Shrinks emulate) (n : Nat) : Shrinks (stepLoop emulate n) := by
  induction n with
  | zero =>
    intro s input t rest ran
    obtain ⟨_,rfl⟩ := Prod.mk.inj (Except.ok.inj ran)
    exact Nat.le_refl _
  | succ n ih =>
    intro s input t rest ran
    obtain ⟨⟨u,middle⟩,first,later⟩ := bind_eq_ok.mp ran
    exact (ih _ _ _ _ later).trans (shrinks _ _ _ _ first)

/-- An action other than `step` reads nothing. -/
theorem perform_other {action : Action} (other : ∀ n, action ≠ .step n) (s : State) (input : Text) :
    perform sizeBits symbols files emulate s input action =
      (action.perform sizeBits symbols files s).map (·,input) := by
  have own : perform sizeBits symbols files emulate s input action =
      action.perform sizeBits symbols files s >>= fun t => pure (t,input) := by
    cases action with
    | step n => exact absurd rfl (other n)
    | _ => rfl
  rw [own]
  cases action.perform sizeBits symbols files s <;> rfl

theorem perform_cases {action : Action}
    (ran : perform sizeBits symbols files emulate s input action = .ok (t,rest)) :
    (∃ n, action = .step n ∧ stepLoop emulate n s input = .ok (t,rest)) ∨
      (∀ n, action ≠ .step n) ∧ action.perform sizeBits symbols files s = .ok t ∧ rest = input := by
  by_cases steps : ∃ n, action = .step n
  · obtain ⟨n,rfl⟩ := steps
    exact Or.inl ⟨n,rfl,ran⟩
  · have other := not_exists.mp steps
    rw [perform_other other] at ran
    obtain ⟨u,performed,same⟩ := map_eq_ok.mp ran
    obtain ⟨rfl,rfl⟩ := Prod.mk.inj same
    exact Or.inr ⟨other,performed,rfl⟩

/-- A round that returns has met the end of the input, or performed what its line asks for. -/
theorem runMonitorLoopWith_cases
    (ran : runMonitorLoopWith sizeBits symbols files emulate s input = .ok (status,t,rest)) :
    input = [] ∧ status = -1 ∧ t = s ∧ rest = [] ∨
      input ≠ [] ∧ ∃ action, interpret sizeBits (lineOf input) = .ok action ∧
        perform sizeBits symbols files emulate s (fgets 63 input).2 action = .ok (t,rest) ∧
        status = if action = .quit then 1 else 0 := by
  rw [runMonitorLoopWith] at ran
  split at ran
  next ended =>
    obtain ⟨rfl,rest⟩ := Prod.mk.inj (Except.ok.inj ran)
    obtain ⟨rfl,rfl⟩ := Prod.mk.inj rest
    exact Or.inl ⟨ended,rfl,rfl,rfl⟩
  next more =>
    obtain ⟨action,read,later⟩ := bind_eq_ok.mp ran
    obtain ⟨⟨u,left⟩,performed,same⟩ := bind_eq_ok.mp later
    obtain ⟨rfl,rest⟩ := Prod.mk.inj (Except.ok.inj same)
    obtain ⟨rfl,rfl⟩ := Prod.mk.inj rest
    exact Or.inr ⟨more, action, read, performed, rfl⟩

theorem perform_shrinks (shrinks : Shrinks emulate) (action : Action) :
    Shrinks fun s input => perform sizeBits symbols files emulate s input action := by
  intro s input t rest ran
  rcases perform_cases ran with ⟨n,_,stepped⟩ | ⟨_,_,rfl⟩
  · exact stepLoop_shrinks shrinks n _ _ _ _ stepped
  · exact Nat.le_refl _

/-- A round reads its line at least. -/
theorem runMonitorLoopWith_shorter (shrinks : Shrinks emulate) (more : input ≠ [])
    (ran : runMonitorLoopWith sizeBits symbols files emulate s input = .ok (status,t,rest)) :
    rest.length < input.length := by
  rcases runMonitorLoopWith_cases ran with ⟨ended,_⟩ | ⟨_,action,_,performed,_⟩
  · exact absurd ended more
  · exact (perform_shrinks shrinks action _ _ _ _ performed).trans_lt (fgets_shorter 62 more)

/-- The loop goes on with less to read. -/
theorem runMonitorLoopWith_again (shrinks : Shrinks emulate)
    (ran : runMonitorLoopWith sizeBits symbols files emulate s input = .ok (status,t,rest))
    (again : ¬status ≠ 0) : rest.length < input.length := by
  rcases runMonitorLoopWith_cases ran with ⟨_,rfl,_⟩ | ⟨more,_⟩
  · contradiction
  · exact runMonitorLoopWith_shorter shrinks more ran

theorem runMonitorRounds_shrinks (shrinks : Shrinks emulate) (rounds : Nat) :
    Shrinks (runMonitorRounds sizeBits symbols files emulate rounds) := by
  induction rounds with
  | zero => exact fun _ _ _ _ ran => nomatch ran
  | succ rounds ih =>
    intro s input t rest ran
    obtain ⟨⟨status,u,left⟩,first,later⟩ := bind_eq_ok.mp ran
    have shorter : left.length ≤ input.length := by
      rcases runMonitorLoopWith_cases first with ⟨_,_,_,rfl⟩ | ⟨more,_⟩
      · exact Nat.zero_le _
      · exact (runMonitorLoopWith_shorter shrinks more first).le
    dsimp only at later
    split at later
    next =>
      obtain ⟨_,rfl⟩ := Prod.mk.inj (Except.ok.inj later)
      exact shorter
    next => exact (ih _ _ _ _ later).trans shorter

omit [Platform] in
/-- Where no session is opened, nothing is read. -/
theorem traceEcall_alone {session : Emulator} {s : State} (closed : ¬OpensMonitor s) (input : Text) :
    traceEcall session s input = (Emuriscv.traceEcall s).map (·,input) := by
  unfold traceEcall Emuriscv.traceEcall
  split
  next user =>
    have other : ¬(s.x (regA 7) = 422 ∨ s.x (regA 7) = 98) := fun opens => closed ⟨user,opens⟩
    dsimp only
    rw [if_neg other,if_neg other]
    split
    next => cases dumpStringVirtual s (s.x (regA 1)) <;> rfl
    next => rfl
  next => rfl

theorem execute_alone (session : Emulator) {s : State} {op : Op}
    (closed : op = .ecall → ¬OpensMonitor s) (input : Text) (instruction : WordPtr) :
    execute session op s input instruction =
      (Emuriscv.execute op s instruction).map (·,input) := by
  by_cases called : op = .ecall
  · subst called
    change ecall session s input = (Emuriscv.ecall s).map (·,input)
    rw [ecall,traceEcall_alone (closed rfl),Emuriscv.ecall]
    cases Emuriscv.traceEcall s <;> rfl
  · have own : execute session op s input instruction =
        Emuriscv.execute op s instruction >>= fun t => pure (t,input) := by
      cases op <;> first | rfl | contradiction
    rw [own]
    cases Emuriscv.execute op s instruction <;> rfl

theorem emulateOpWith_fetched {session : Emulator} (fetched : Fetches s f instruction op) (input : Text) :
    emulateOpWith session s input =
      (execute session op f input instruction).map fun (t, rest) => (finishOp t,rest) := by
  obtain ⟨l,looked,ok,rfl,located⟩ := fetched.looked
  have decoded := fetched.decoded
  unfold emulateOpWith
  rw [looked,ok_bind]
  dsimp only
  rw [if_neg (not_not.mpr ok),located,ok_bind,decoded]
  dsimp only
  cases execute session op _ input instruction <;> rfl

/-- A step that opens no session is the step of the machine alone. -/
theorem emulateOpWith_alone {session : Emulator} {s : State}
    (closed : ∀ f p, Fetches s f p .ecall → ¬OpensMonitor f) (input : Text) :
    emulateOpWith session s input = (Emuriscv.emulateOp s).map (·,input) := by
  unfold emulateOpWith Emuriscv.emulateOp
  cases looked : getMemoryTarget s s.pc .fetch with
  | error e => rfl
  | ok l =>
    rw [ok_bind,ok_bind]
    dsimp only
    by_cases ok : l.status = translateOk
    · rw [if_neg (not_not.mpr ok),if_neg (not_not.mpr ok)]
      cases located : codePtr { l.state with pc := l.state.pc + 4 } l.target with
      | error e => rfl
      | ok instruction =>
        rw [ok_bind,ok_bind]
        cases decoded : decode (deref { l.state with pc := l.state.pc + 4 } instruction) with
        | none => rfl
        | some op =>
          have fetched : Fetches s { l.state with pc := l.state.pc + 4 } instruction op :=
            ⟨⟨l,looked,ok,rfl,located⟩,decoded⟩
          have quiet : op = .ecall → ¬OpensMonitor { l.state with pc := l.state.pc + 4 } :=
            fun called => closed _ _ (called ▸ fetched)
          have alone := execute_alone session quiet input instruction
          dsimp only
          rw [alone]
          cases Emuriscv.execute op _ instruction <;> rfl
    · rw [if_pos ok,if_pos ok]
      rfl

/-- A step that opens a session is the session, and the trap after it. -/
theorem emulateOpWith_session {session : Emulator} (fetched : Fetches s f p .ecall)
    (opens : OpensMonitor f) (input : Text) :
    emulateOpWith session s input =
      (session f input).map fun (u, rest) => (finishOp (raiseEcall u),rest) := by
  have traced : traceEcall session f input = session f input := by
    unfold traceEcall
    rw [if_pos opens.1]
    dsimp only
    rw [if_neg opens.unnamed,if_pos opens.2]
  rw [emulateOpWith_fetched fetched]
  change (ecall session f input).map _ = _
  rw [ecall,traced]
  cases session f input <;> rfl

/-- The ways in which a step returns: by itself, or after a session. -/
theorem emulateOpWith_cases {session : Emulator}
    (ran : emulateOpWith session s input = .ok (t,rest)) :
    Emuriscv.emulateOp s = .ok t ∧ rest = input ∨
      ∃ f p u, Fetches s f p .ecall ∧ OpensMonitor f ∧ session f input = .ok (u,rest) ∧
        t = finishOp (raiseEcall u) := by
  by_cases closed : ∀ f p, Fetches s f p .ecall → ¬OpensMonitor f
  · rw [emulateOpWith_alone closed] at ran
    obtain ⟨u,stepped,same⟩ := map_eq_ok.mp ran
    obtain ⟨rfl,rfl⟩ := Prod.mk.inj same
    exact Or.inl ⟨stepped,rfl⟩
  · push Not at closed
    obtain ⟨f,p,fetched,opens⟩ := closed
    rw [emulateOpWith_session fetched opens] at ran
    obtain ⟨⟨u,left⟩,returned,same⟩ := map_eq_ok.mp ran
    obtain ⟨rfl,rfl⟩ := Prod.mk.inj same
    exact Or.inr ⟨f, p, u, fetched, opens, returned, rfl⟩

theorem emulateOpWith_shrinks {session : Emulator} (shrinks : Shrinks session) :
    Shrinks (emulateOpWith session) := by
  intro s input t rest ran
  rcases emulateOpWith_cases ran with ⟨_,rfl⟩ | ⟨f,_,u,_,_,returned,_⟩
  · exact Nat.le_refl _
  · exact shrinks _ _ _ _ returned

omit [Platform] in
theorem stepLoop_agree (agree : Agree bound emulate emulate') (shrinks : Shrinks emulate) (n : Nat) :
    Agree bound (stepLoop emulate n) (stepLoop emulate' n) := by
  induction n with
  | zero => exact fun _ _ _ => rfl
  | succ n ih =>
    intro s input short
    rw [stepLoop,stepLoop,← agree s input short]
    cases ran : emulate s input with
    | error e => rfl
    | ok result => exact ih _ _ ((shrinks _ _ _ _ ran).trans_lt short)

theorem perform_agree (agree : Agree bound emulate emulate') (shrinks : Shrinks emulate)
    (short : input.length < bound) (s : State) (action : Action) :
    perform sizeBits symbols files emulate s input action =
      perform sizeBits symbols files emulate' s input action := by
  cases action with
  | step n => exact stepLoop_agree agree shrinks n s input short
  | _ => rfl

/-- The line of a round is not there for the instructions that it counts. -/
theorem runMonitorLoopWith_agree (agree : Agree bound emulate emulate') (shrinks : Shrinks emulate) :
    ∀ s input, input.length ≤ bound →
      runMonitorLoopWith sizeBits symbols files emulate s input =
        runMonitorLoopWith sizeBits symbols files emulate' s input := by
  intro s input short
  rw [runMonitorLoopWith,runMonitorLoopWith]
  split
  next => rfl
  next more =>
    have shorter : (fgets 63 input).2.length < input.length := fgets_shorter 62 more
    simp only [perform_agree agree shrinks (shorter.trans_le short)]

theorem runMonitorRounds_agree (agree : Agree bound emulate emulate') (shrinks : Shrinks emulate)
    (rounds : Nat) : Agree (bound + 1) (runMonitorRounds sizeBits symbols files emulate rounds)
      (runMonitorRounds sizeBits symbols files emulate' rounds) := by
  induction rounds with
  | zero => exact fun _ _ _ => rfl
  | succ rounds ih =>
    intro s input short
    rw [runMonitorRounds,runMonitorRounds,
      ← runMonitorLoopWith_agree agree shrinks s input (Nat.le_of_lt_succ short)]
    cases ran : runMonitorLoopWith sizeBits symbols files emulate s input with
    | error e => rfl
    | ok result =>
      obtain ⟨status,t,rest⟩ := result
      rw [ok_bind,ok_bind]
      dsimp only
      split
      next => rfl
      next again => exact ih _ _ ((runMonitorLoopWith_again shrinks ran again).trans short)

/-- Rounds beyond the characters of the input are not needed. -/
theorem runMonitorRounds_enough (shrinks : Shrinks emulate) (rounds rounds' : Nat) :
    ∀ s input, input.length < rounds → input.length < rounds' →
      runMonitorRounds sizeBits symbols files emulate rounds s input =
        runMonitorRounds sizeBits symbols files emulate rounds' s input := by
  induction rounds generalizing rounds' with
  | zero => exact fun _ _ none => absurd none (Nat.not_lt_zero _)
  | succ rounds ih =>
    intro s input enough enough'
    obtain ⟨rounds',rfl⟩ := Nat.exists_eq_succ_of_ne_zero (Nat.ne_zero_of_lt enough')
    rw [runMonitorRounds,runMonitorRounds]
    cases ran : runMonitorLoopWith sizeBits symbols files emulate s input with
    | error e => rfl
    | ok result =>
      obtain ⟨status,t,rest⟩ := result
      rw [ok_bind,ok_bind]
      dsimp only
      split
      next => rfl
      next again =>
        have shorter := runMonitorLoopWith_again shrinks ran again
        exact ih rounds' t rest (by omega) (by omega)

/-- A step depends on what the monitor does with the input that there is. -/
theorem emulateOpWith_agree {session session' : Emulator} {input : Text}
    (same : ∀ s, session s input = session' s input) (s : State) :
    emulateOpWith session s input = emulateOpWith session' s input := by
  by_cases closed : ∀ f p, Fetches s f p .ecall → ¬OpensMonitor f
  · rw [emulateOpWith_alone closed,emulateOpWith_alone closed]
  · push Not at closed
    obtain ⟨f,p,fetched,opens⟩ := closed
    rw [emulateOpWith_session fetched opens,emulateOpWith_session fetched opens,same]

variable (sizeBits symbols files)

theorem emulateOpAt_shrinks (depth : Nat) : Shrinks (emulateOpAt sizeBits symbols files depth) := by
  induction depth with
  | zero => exact fun _ _ _ _ ran => nomatch ran
  | succ depth ih =>
    exact emulateOpWith_shrinks fun s input => runMonitorRounds_shrinks ih (input.length + 1) s input

/-- Sessions are nested no deeper than the input has characters. -/
theorem emulateOpAt_depth (depth depth' : Nat) : ∀ s input, input.length < depth → input.length < depth' →
    emulateOpAt sizeBits symbols files depth s input =
      emulateOpAt sizeBits symbols files depth' s input := by
  induction depth generalizing depth' with
  | zero => exact fun _ _ none => absurd none (Nat.not_lt_zero _)
  | succ depth ih =>
    intro s input enough enough'
    obtain ⟨depth',rfl⟩ := Nat.exists_eq_succ_of_ne_zero (Nat.ne_zero_of_lt enough')
    have agree : Agree input.length (emulateOpAt sizeBits symbols files depth)
        (emulateOpAt sizeBits symbols files depth') :=
      fun s shorter short => ih depth' s shorter (by omega) (by omega)
    exact emulateOpWith_agree (fun s => runMonitorRounds_agree agree
      (emulateOpAt_shrinks sizeBits symbols files depth) _ s input (Nat.lt_succ_self _)) s

theorem emulateOp_shrinks : Shrinks (emulateOp sizeBits symbols files) :=
  fun s input => emulateOpAt_shrinks sizeBits symbols files (input.length + 1) s input

/-- `emulate_op` and `run_monitor` call each other. -/
theorem emulateOp_eq (s : State) (input : Text) : emulateOp sizeBits symbols files s input =
    emulateOpWith (runMonitor sizeBits symbols files) s input := by
  have agree : Agree input.length (emulateOpAt sizeBits symbols files input.length)
      (emulateOp sizeBits symbols files) :=
    fun s shorter short => emulateOpAt_depth sizeBits symbols files _ _ s shorter short (by omega)
  exact emulateOpWith_agree (fun s => runMonitorRounds_agree agree
    (emulateOpAt_shrinks sizeBits symbols files _) _ s input (Nat.lt_succ_self _)) s

/-- `for (;;) { if (run_monitor_loop(state) != 0) return; }` -/
theorem runMonitor_eq (s : State) (input : Text) : runMonitor sizeBits symbols files s input =
    runMonitorLoop sizeBits symbols files s input >>= fun (status, s, rest) =>
      if status ≠ 0 then pure (s,rest) else runMonitor sizeBits symbols files s rest := by
  have shrinks := emulateOp_shrinks sizeBits symbols files
  change runMonitorRounds _ _ _ _ (input.length + 1) s input = _
  rw [runMonitorRounds]
  change (runMonitorLoop sizeBits symbols files s input >>= _) = _
  cases ran : runMonitorLoop sizeBits symbols files s input with
  | error e => rfl
  | ok result =>
    obtain ⟨status,t,rest⟩ := result
    rw [ok_bind,ok_bind]
    dsimp only
    split
    next => rfl
    next again =>
      have shorter := runMonitorLoopWith_again shrinks ran again
      exact runMonitorRounds_enough shrinks _ _ t rest shorter (Nat.lt_succ_self _)

end Depth

/-- Without an operator the call cannot be completed. -/
theorem emulateOp_unattended [Platform] (fetched : Fetches s f p .ecall) (opens : OpensMonitor f) :
    Emuriscv.emulateOp s = .error .monitor := by
  have stops : Emuriscv.traceEcall f = .error .monitor := by
    unfold Emuriscv.traceEcall
    rw [if_pos opens.1]
    dsimp only
    rw [if_neg opens.unnamed,if_pos opens.2]
    rfl
  rw [emulateOp_fetched fetched]
  change Emuriscv.ecall f >>= _ = _
  rw [Emuriscv.ecall,stops]
  rfl

/-- A step that the machine can make alone is not changed by an operator. -/
theorem emulateOp_alone [Platform] (sizeBits : Nat) (symbols : List Symbol) (files : Files) {s t : State}
    (step : Emuriscv.emulateOp s = .ok t) (input : Text) :
    emulateOp sizeBits symbols files s input = .ok (t,input) := by
  have closed : ∀ f p, Fetches s f p .ecall → ¬OpensMonitor f := by
    intro f p fetched opens
    rw [emulateOp_unattended fetched opens] at step
    contradiction
  rw [emulateOp_eq,emulateOpWith_alone closed,step]
  rfl

end Emuriscv.Attended
