import Emuriscv.Attended
import Emuriscv.Reset

/-! Runs with an operator. A session is part of the step that opens it, and its `step` lines are
steps of the machine as well, so that a state inside a session is one that the run goes through. -/
namespace Emuriscv.Attended

open LabelledRun Monitor Numeral

section Runs

variable [Platform] (sizeBits : Nat) (symbols : List Symbol) (files : Files)

/-- Between two instructions, or at the prompt. -/
inductive Phase where
  | emulating | prompt
  deriving DecidableEq

/-- The states that a machine goes through, inside sessions and outside, with the input that is left.
The instructions of a `step` line go on for as long as they like. -/
inductive Reached (s : State) (input : Text) : Phase → State → Text → Prop
  | start : Reached s input .emulating s input
  | stepped (reached : Reached s input .emulating t rest)
      (step : emulateOp sizeBits symbols files t rest = .ok (u,left)) :
      Reached s input .emulating u left
  | opened (reached : Reached s input .emulating t rest) (fetched : Fetches t f p .ecall)
      (opens : OpensMonitor f) : Reached s input .prompt f rest
  | round (reached : Reached s input .prompt t rest)
      (ran : runMonitorLoop sizeBits symbols files t rest = .ok (0,u,left)) :
      Reached s input .prompt u left
  | typed (reached : Reached s input .prompt t rest) (more : rest ≠ [])
      (read : interpret sizeBits (lineOf rest) = .ok (.step n)) :
      Reached s input .emulating t (fgets 63 rest).2

/-- Runs of the machine alone are among them; no session is opened. -/
theorem reached_machineRun {s : State} (run : MachineRun s steps) (input : Text) :
    ∀ t ∈ states s steps, Reached sizeBits symbols files s input .emulating t input := by
  have step (u : State) (e : Unit) (t : State)
      (reached : Reached sizeBits symbols files s input .emulating u input)
      (step : Emuriscv.emulateOp u = .ok t) :
      Reached sizeBits symbols files s input .emulating t input :=
    .stepped reached (emulateOp_alone sizeBits symbols files step input)
  exact run.states_invariant .start step

/-- Every part of the emulator keeps the invariant: the step of the machine alone, the fetch before a
session and the trap after it, and every line but `step`. -/
structure Kept (invariant : State → Prop) : Prop where
  step : invariant s → Emuriscv.emulateOp s = .ok t → invariant t
  fetch : invariant s → Fetches s f p .ecall → invariant f
  trap : invariant s → invariant (finishOp (raiseEcall s))
  line (action : Action) : invariant s → (∀ n, action ≠ .step n) →
    action.perform sizeBits symbols files s = .ok t → invariant t

variable {sizeBits symbols files} {invariant : State → Prop}

omit [Platform] in
theorem stepLoop_kept {emulate : Emulator}
    (kept : ∀ s input t rest, invariant s → emulate s input = .ok (t,rest) → invariant t) (n : Nat)
    {s : State} (here : invariant s) (ran : stepLoop emulate n s input = .ok (t,rest)) :
    invariant t := by
  induction n generalizing s input with
  | zero =>
    obtain ⟨rfl,_⟩ := Prod.mk.inj (Except.ok.inj ran)
    exact here
  | succ n ih =>
    obtain ⟨⟨u,middle⟩,first,later⟩ := bind_eq_ok.mp ran
    exact ih (kept _ _ _ _ here first) later

namespace Kept

variable (kept : Kept sizeBits symbols files invariant)

include kept

theorem runMonitorLoopWith {emulate : Emulator}
    (steps : ∀ s input t rest, invariant s → emulate s input = .ok (t,rest) → invariant t)
    (here : invariant s)
    (ran : runMonitorLoopWith sizeBits symbols files emulate s input = .ok (status,t,rest)) :
    invariant t := by
  rcases runMonitorLoopWith_cases ran with ⟨_,_,rfl,_⟩ | ⟨_,action,_,performed,_⟩
  · exact here
  · rcases perform_cases performed with ⟨n,_,stepped⟩ | ⟨other,alone,_⟩
    · exact stepLoop_kept steps n here stepped
    · exact kept.line action here other alone

theorem runMonitorRounds {emulate : Emulator}
    (steps : ∀ s input t rest, invariant s → emulate s input = .ok (t,rest) → invariant t)
    (rounds : Nat) (here : invariant s)
    (ran : runMonitorRounds sizeBits symbols files emulate rounds s input = .ok (t,rest)) :
    invariant t := by
  induction rounds generalizing s input with
  | zero => contradiction
  | succ rounds ih =>
    obtain ⟨⟨status,u,left⟩,first,later⟩ := bind_eq_ok.mp ran
    have middle := kept.runMonitorLoopWith steps here first
    dsimp only at later
    split at later
    next =>
      obtain ⟨rfl,_⟩ := Prod.mk.inj (Except.ok.inj later)
      exact middle
    next => exact ih middle later

/-- The step lemma: by the depth to which sessions are nested. -/
theorem emulateOpAt (depth : Nat) : ∀ s input t rest, invariant s →
    emulateOpAt sizeBits symbols files depth s input = .ok (t,rest) → invariant t := by
  induction depth with
  | zero => exact fun _ _ _ _ _ ran => nomatch ran
  | succ depth ih =>
    intro s input t rest here ran
    rcases emulateOpWith_cases ran with ⟨step,_⟩ | ⟨f,p,u,fetched,_,session,rfl⟩
    · exact kept.step here step
    · exact kept.trap (kept.runMonitorRounds ih _ (kept.fetch here fetched) session)

theorem emulateOp (here : invariant s)
    (ran : emulateOp sizeBits symbols files s input = .ok (t,rest)) : invariant t :=
  kept.emulateOpAt (input.length + 1) s input t rest here ran

/-- The run lemma. -/
theorem reached (initial : invariant s) (reached : Reached sizeBits symbols files s input phase t rest) :
    invariant t := by
  induction reached with
  | start => exact initial
  | stepped _ step ih => exact kept.emulateOp ih step
  | opened _ fetched _ ih => exact kept.fetch ih fetched
  | round _ ran ih => exact kept.runMonitorLoopWith (fun _ _ _ _ => kept.emulateOp) ih ran
  | typed _ _ _ ih => exact ih

end Kept

theorem stepLoop_alone {s t : State} (n : Nat) (ran : Monitor.stepLoop n s = .ok t) (input : Text) :
    stepLoop (emulateOp sizeBits symbols files) n s input = .ok (t,input) := by
  induction n generalizing s with
  | zero =>
    obtain rfl := Except.ok.inj ran
    rfl
  | succ n ih =>
    obtain ⟨u,first,later⟩ := bind_eq_ok.mp ran
    rw [stepLoop,emulateOp_alone sizeBits symbols files first]
    exact ih later

/-- A round whose instructions open no session of their own. -/
theorem runMonitorLoop_alone {s : State} {result : Int × State × Text}
    (ran : Monitor.runMonitorLoop sizeBits symbols files s input = .ok result) :
    runMonitorLoop sizeBits symbols files s input = .ok result := by
  rw [Monitor.runMonitorLoop] at ran
  rw [runMonitorLoop,Attended.runMonitorLoopWith]
  split at ran
  next ended =>
    rw [if_pos ended]
    exact ran
  next more =>
    rw [if_neg more]
    obtain ⟨action,read,later⟩ := bind_eq_ok.mp ran
    obtain ⟨t,performed,same⟩ := bind_eq_ok.mp later
    have attended : perform sizeBits symbols files (emulateOp sizeBits symbols files) s
        (fgets 63 input).2 action = .ok (t,(fgets 63 input).2) := by
      by_cases steps : ∃ n, action = .step n
      · obtain ⟨n,rfl⟩ := steps
        exact stepLoop_alone n performed _
      · rw [perform_other (not_exists.mp steps),performed]
        rfl
    dsimp only
    rw [read,ok_bind,attended]
    exact same

end Runs

end Emuriscv.Attended
