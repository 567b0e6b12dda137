import Emuriscv.HartRefinement
import Emuriscv.MonitorLine

/-! A session with the monitor, from its prompt to `q` or the end of the input. Where no address is
translated a line that shows something leaves the machine alone, so that a session advances it by
the instructions that its `step` lines count, and by nothing else. -/
namespace Emuriscv.Monitor

open LabelledRun Numeral

section Session

variable [Platform] (sizeBits : Nat) (symbols : List Symbol) (files : Files)

/-- The loop of `run_monitor`, in that many rounds; also what it leaves of the input. -/
def runMonitorRounds : Nat → State → Text → Except Stop (State × Text)
  | 0, _, _ => throw .diverges
  | rounds + 1, s, input => do
    let (status, s, rest) ← runMonitorLoop sizeBits symbols files s input
    if status ≠ 0 then pure (s,rest) else runMonitorRounds rounds s rest

/-- `run_monitor`. Every round but the last takes a character at least. -/
def monitorSession (s : State) (input : Text) : Except Stop (State × Text) :=
  runMonitorRounds sizeBits symbols files (input.length + 1) s input

/-- The actions that are typed before the session ends, and the input behind its end. -/
inductive Typed : Text → List Action → Text → Prop
  | ended : Typed [] [] []
  | quit : input ≠ [] → interpret sizeBits (lineOf input) = .ok .quit →
      Typed input [] (fgets 63 input).2
  | line : input ≠ [] → interpret sizeBits (lineOf input) = .ok action → action ≠ .quit →
      Typed (fgets 63 input).2 actions rest → Typed input (action :: actions) rest

/-- What the actions do, one after the other. -/
def performAllTyped (s : State) (actions : List Action) : Except Stop State :=
  actions.foldlM (fun s action => action.perform sizeBits symbols files s) s

/-- A session is what is typed. -/
theorem Typed.rounds {input : Text} (typed : Typed sizeBits input actions rest) {rounds : Nat}
    (enough : input.length < rounds) (s : State) :
    runMonitorRounds sizeBits symbols files rounds s input =
      (performAllTyped sizeBits symbols files s actions).map (·,rest) := by
  induction typed generalizing rounds s with
  | ended =>
    cases rounds with
    | zero => contradiction
    | succ rounds => rfl
  | quit some read =>
    cases rounds with
    | zero => contradiction
    | succ rounds =>
      rw [runMonitorRounds,runMonitorLoop_eq sizeBits symbols files s some read]
      rfl
  | @line input action actions rest some read more _ ih =>
    cases rounds with
    | zero => contradiction
    | succ rounds =>
      rw [runMonitorRounds,runMonitorLoop_eq sizeBits symbols files s some read,performAllTyped,
        List.foldlM_cons]
      cases ran : action.perform sizeBits symbols files s with
      | error e => rfl
      | ok t =>
        have shorter : (fgets 63 input).2.length < input.length := fgets_shorter 62 some
        have later := ih (show _ < rounds by omega) t
        rw [Except.map,if_neg more]
        exact later

theorem Typed.session {input : Text} (typed : Typed sizeBits input actions rest) (s : State) :
    monitorSession sizeBits symbols files s input =
      (performAllTyped sizeBits symbols files s actions).map (·,rest) :=
  typed.rounds sizeBits symbols files (Nat.lt_succ_self _) s

end Session

section Direct

variable {s t : State} (direct : ¬Walks s)

include direct

theorem getMemoryTarget_direct (looked : getMemoryTarget s a accessType = .ok l) : l.state = s := by
  rw [getMemoryTarget,translateAddress_direct direct,ok_bind,
    if_neg (show translateOk ≠ pageFault by decide)] at looked
  rw [← Except.ok.inj looked]

theorem readWord_direct (read : readWord s a = .ok (value,t)) : t = s := by
  obtain ⟨l,looked,rest⟩ := bind_eq_ok.mp read
  refine Eq.trans ?_ (getMemoryTarget_direct direct looked)
  split at rest
  next => exact (congrArg Prod.snd (Except.ok.inj rest)).symm
  next =>
    split at rest
    next => contradiction
    next =>
      obtain ⟨_,_,rest⟩ := bind_eq_ok.mp rest
      split at rest
      all_goals
        obtain ⟨_,_,rest⟩ := bind_eq_ok.mp rest
        exact (congrArg Prod.snd (Except.ok.inj rest)).symm

theorem dumpOne_direct (ran : dumpOne s a = .ok t) : t = s := by
  obtain ⟨l,looked,rest⟩ := bind_eq_ok.mp ran
  rw [getMemoryTarget_direct direct looked] at rest
  obtain ⟨_,read,rest⟩ := bind_eq_ok.mp rest
  rw [← Except.ok.inj rest]
  exact readWord_direct direct read

theorem dumpStringLoop_direct (rounds : Nat) (ran : dumpStringLoop s a rounds = .ok t) : t = s := by
  induction rounds generalizing a with
  | zero => contradiction
  | succ rounds ih =>
    obtain ⟨l,looked,rest⟩ := bind_eq_ok.mp ran
    have same := getMemoryTarget_direct direct looked
    split at rest
    next => rw [← Except.ok.inj rest,same]
    next =>
      obtain ⟨⟨data,u⟩,read,rest⟩ := bind_eq_ok.mp rest
      rw [same] at read
      obtain rfl := readWord_direct direct read
      dsimp only at rest
      split at rest
      next => exact (Except.ok.inj rest).symm
      next => exact ih rest

theorem dumpBacktrace_direct (ran : dumpBacktrace s = .ok t) : t = s := by
  rw [dumpBacktrace] at ran
  generalize List.finRange pcHistoryDepth = entries at ran
  induction entries with
  | nil => exact (Except.ok.inj ran).symm
  | cons i rest ih =>
    rw [List.foldlM_cons] at ran
    obtain ⟨u,first,later⟩ := bind_eq_ok.mp ran
    obtain rfl := dumpOne_direct direct first
    exact ih later

end Direct

/-- A loop whose body leaves the state as it is does so too. -/
theorem dumpLoop_same {body : State → Word → Except Stop State} {s t : State} {bound rounds : Nat}
    (same : ∀ a t, body s a = .ok t → t = s) (ran : dumpLoop body bound rounds s a = .ok t) : t = s := by
  induction rounds generalizing a with
  | zero => contradiction
  | succ rounds ih =>
    rw [dumpLoop] at ran
    split at ran
    next =>
      obtain ⟨u,first,later⟩ := bind_eq_ok.mp ran
      obtain rfl := same a u first
      exact ih later
    next => exact (Except.ok.inj ran).symm

/-- Does a line only show something, or let the machine run? -/
def Action.Observes : Action → Prop
  | .write .. | .load .. => False
  | _ => True

/-- The instructions that a line counts. -/
def Action.stepped : Action → Nat
  | .step count => count
  | _ => 0

/-- Without translation a line that observes is the run of the instructions that it counts. -/
theorem Action.Observes.perform [Platform] {action : Action} (observes : action.Observes)
    {s t : State} (direct : ¬Walks s)
    (ran : action.perform sizeBits symbols files s = .ok t) : stepLoop action.stepped s = .ok t := by
  have still (same : t = s) : stepLoop 0 s = .ok t := same ▸ rfl
  cases action with
  | nothing | help | quit | reg name => exact ran
  | regs =>
    rw [Action.perform,dumpRegisters] at ran
    split at ran
    next => exact ran
    next => contradiction
  | dumpVirtual start count | disassemble start count =>
    exact still (dumpLoop_same (fun a t => dumpOne_direct direct) ran)
  | dumpPhysical start count =>
    refine still (dumpLoop_same (fun a t one => ?_) ran)
    obtain ⟨_,_,rest⟩ := bind_eq_ok.mp one
    exact (Except.ok.inj rest).symm
  | dumpString start => exact still (dumpStringLoop_direct direct _ ran)
  | write address value => exact observes.elim
  | step count => exact ran
  | backtrace => exact still (dumpBacktrace_direct direct ran)
  | symbol =>
    obtain ⟨_,_,rest⟩ := bind_eq_ok.mp ran
    exact rest
  | save file =>
    obtain ⟨_,_,rest⟩ := bind_eq_ok.mp ran
    exact rest
  | load file => exact observes.elim

def stepsOf (actions : List Action) : Nat := (actions.map Action.stepped).sum

theorem stepLoop_add [Platform] (m n : Nat) (s : State) :
    stepLoop (m + n) s = stepLoop m s >>= stepLoop n := by
  induction m generalizing s with
  | zero => rw [Nat.zero_add]; rfl
  | succ m ih =>
    rw [Nat.succ_add,stepLoop,stepLoop,bind_assoc]
    simp only [ih]

theorem stepLoop_run [Platform] {s t : State} {steps : List (Unit × State)} (run : MachineRun s steps)
    (here : (states s steps)[n]? = some t) : stepLoop n s = .ok t := by
  induction run generalizing n with
  | nil =>
    cases n with
    | zero => exact congrArg Except.ok (Option.some.inj here)
    | succ n => simp [states] at here
  | @cons s e u rest first _ ih =>
    cases n with
    | zero => exact congrArg Except.ok (Option.some.inj here)
    | succ n =>
      rw [stepLoop,first]
      exact ih here

section Watched

variable [Platform] (sizeBits : Nat) (symbols : List Symbol) (files : Files)

/-- Every action can be carried out by itself, in the state that the instructions counted before it
lead to. -/
def Watched (s : State) (actions : List Action) : Prop :=
  ∀ before action after u, actions = before ++ action :: after →
    stepLoop (stepsOf before) s = .ok u → Returns (action.perform sizeBits symbols files u)

theorem watched_cons {s u : State} {action : Action} (ran : stepLoop action.stepped s = .ok u)
    (rest : List Action) : Watched sizeBits symbols files s (action :: rest) ↔
      Returns (action.perform sizeBits symbols files s) ∧ Watched sizeBits symbols files u rest := by
  have shifted (before : List Action) :
      stepLoop (stepsOf (action :: before)) s = stepLoop (stepsOf before) u := by
    rw [stepsOf,List.map_cons,List.sum_cons,stepLoop_add,ran]
    rfl
  constructor
  · intro watched
    refine ⟨watched [] action rest s rfl rfl, fun before action' after v split reached => ?_⟩
    exact watched (action :: before) action' after v (congrArg _ split) ((shifted before).trans reached)
  · rintro ⟨first,later⟩ before action' after v split reached
    cases before with
    | nil =>
      obtain ⟨rfl,_⟩ := List.cons.inj split
      rwa [← Except.ok.inj reached]
    | cons head before =>
      obtain ⟨rfl,tail⟩ := List.cons.inj split
      exact later before action' after v tail ((shifted before).symm.trans reached)

/-- Actions that observe are a run of the machine, if each of them can be carried out. -/
theorem performAllTyped_iff {actions : List Action} (observes : ∀ action ∈ actions, action.Observes)
    (s t : State) (direct : ∀ n ≤ stepsOf actions, ∀ u, stepLoop n s = .ok u → ¬Walks u) :
    performAllTyped sizeBits symbols files s actions = .ok t ↔
      Watched sizeBits symbols files s actions ∧ stepLoop (stepsOf actions) s = .ok t := by
  induction actions generalizing s with
  | nil => exact (and_iff_right fun before action after u split => by simp at split).symm
  | cons action rest ih =>
    obtain ⟨observed,others⟩ := List.forall_mem_cons.mp observes
    have total : stepsOf (action :: rest) = action.stepped + stepsOf rest := rfl
    have here := direct 0 (Nat.zero_le _) s rfl
    have whole : performAllTyped sizeBits symbols files s (action :: rest) =
        action.perform sizeBits symbols files s >>= (performAllTyped sizeBits symbols files · rest) := rfl
    rw [whole,bind_eq_ok,total,stepLoop_add,bind_eq_ok]
    have later {u : State} (ran : stepLoop action.stepped s = .ok u) := ih others u fun n below v reached =>
      direct (action.stepped + n) (by omega) v (by rw [stepLoop_add,ran]; exact reached)
    constructor
    · rintro ⟨u,first,performed⟩
      have ran := observed.perform here first
      obtain ⟨watched,reached⟩ := (later ran).mp performed
      exact ⟨(watched_cons _ _ _ ran rest).mpr ⟨⟨u,first⟩,watched⟩, u, ran, reached⟩
    · rintro ⟨watched,u,ran,reached⟩
      obtain ⟨⟨v,first⟩,watched⟩ := (watched_cons _ _ _ ran rest).mp watched
      have same := Except.ok.inj ((observed.perform here first).symm.trans ran)
      subst same
      exact ⟨v, first, (later ran).mpr ⟨watched,reached⟩⟩

end Watched

/-- The machine at a position of a program. -/
theorem stepLoop_refines [Platform] {map : MemoryMap} (separate : Separate map)
    (refines : Refines (.bare map) h s) (quiet : Quiet s)
    (program : Path (Rv32ima.Step Encoded (InsideRam map)) h steps)
    (conforms : Every (fun h executed _ => Conforms h executed.1 executed.2) h steps)
    (below : n ≤ steps.length) : ∃ h' t, (states h steps)[n]? = some h' ∧ stepLoop n s = .ok t ∧
      Refines (.bare map) h' t ∧ Programmed s t := by
  obtain ⟨steps',run,matches'⟩ :=
    (AddressSpace.bare_lawful separate).run refines quiet program conforms
  obtain ⟨same,matches'⟩ := List.forall₂_iff_get.mp matches'
  have inside : n < (states h steps).length := by simp [states]; omega
  have inside' : n < (states s steps').length := same ▸ inside
  exact ⟨_, _, List.getElem?_eq_getElem inside,
    stepLoop_run run (List.getElem?_eq_getElem inside'), matches' n inside inside'⟩

/-- A session on a program that runs without translation: whatever is shown on the way, the program
is afterwards where the counted instructions take it, and the session has that end exactly if
each of its lines can be carried out by itself. -/
theorem monitorSession_follows [Platform] {map : MemoryMap} (separate : Separate map)
    (refines : Refines (.bare map) h s) (quiet : Quiet s)
    (program : Path (Rv32ima.Step Encoded (InsideRam map)) h steps)
    (conforms : Every (fun h executed _ => Conforms h executed.1 executed.2) h steps)
    {input : Text} (typed : Typed sizeBits input actions rest)
    (observes : ∀ action ∈ actions, action.Observes) (within : stepsOf actions ≤ steps.length) :
    ∃ h' t, (states h steps)[stepsOf actions]? = some h' ∧ Refines (.bare map) h' t ∧ Programmed s t ∧
      ∀ outcome, monitorSession sizeBits symbols files s input = .ok outcome ↔
        Watched sizeBits symbols files s actions ∧ outcome = (t,rest) := by
  have reaches (n : Nat) (below : n ≤ steps.length) :=
    stepLoop_refines separate refines quiet program conforms below
  obtain ⟨h',t,there,ran,carried,programmed⟩ := reaches (stepsOf actions) within
  refine ⟨h', t, there, carried, programmed, fun outcome => ?_⟩
  have direct (n : Nat) (below : n ≤ stepsOf actions) (u : State) (reached : stepLoop n s = .ok u) :
      ¬Walks u := by
    obtain ⟨_,v,_,ran',carried',_⟩ := reaches n (below.trans within)
    rw [Except.ok.inj (reached.symm.trans ran')]
    exact carried'.memory.2.1
  rw [typed.session]
  constructor
  · intro returned
    cases performed : performAllTyped sizeBits symbols files s actions with
    | error e => simp [performed,Except.map] at returned
    | ok u =>
      obtain ⟨watched,reached⟩ := (performAllTyped_iff _ _ _ observes s u direct).mp performed
      rw [performed] at returned
      rw [← Except.ok.inj returned,Except.ok.inj (reached.symm.trans ran)]
      exact ⟨watched,rfl⟩
  · rintro ⟨watched,rfl⟩
    rw [(performAllTyped_iff _ _ _ observes s t direct).mpr ⟨watched,ran⟩]
    rfl

/-- Two words of the program are shown, three of its instructions run, and the registers are shown. -/
def loopingSession : Text := "x 80000000 2\nstep 3\nregs\nq\n".toList

theorem loopingSession_typed : Typed 64 loopingSession
    [.dumpVirtual (.literal 0x80000000) 2, .step 3, .regs] [] := by
  have first : interpret 64 (lineOf loopingSession) = .ok (.dumpVirtual (.literal 0x80000000) 2) := rfl
  have second : interpret 64 (lineOf "step 3\nregs\nq\n".toList) = .ok (.step 3) := rfl
  have third : interpret 64 (lineOf "regs\nq\n".toList) = .ok .regs := rfl
  exact .line (by decide) first (by decide) (.line (by decide) second (by decide)
    (.line (by decide) third (by decide) (.quit (by decide) rfl)))

/-- The session returns, with the machine where three instructions take the program. -/
theorem monitorSession_follows_looping :
    ∃ h' t, (states loopingHart (followHart loopingHart loopingProgram))[3]? = some h' ∧
      Refines (.bare loopingMachine.memoryMap) h' t ∧
      @monitorSession clearingPlatform 64 [] noFiles loopingMachine loopingSession = .ok (t,[]) := by
  let _ : Platform := clearingPlatform
  have observes : ∀ action ∈ [Action.dumpVirtual (.literal 0x80000000) 2, .step 3, .regs],
      action.Observes := by simp [Action.Observes]
  obtain ⟨h',t,there,carried,_,ends⟩ := monitorSession_follows
    (guest_separate privM []) loopingMachine_refines ⟨rfl,rfl,rfl⟩ loopingProgram_runs
    ⟨trivial,trivial,trivial,trivial,trivial⟩ loopingSession_typed observes (by decide)
  have returned : Returns (monitorSession 64 [] noFiles loopingMachine loopingSession) := ⟨_,rfl⟩
  obtain ⟨outcome,ran⟩ := returned
  obtain ⟨_,rfl⟩ := (ends outcome).mp ran
  exact ⟨h', t, there, carried, ran⟩

end Emuriscv.Monitor
