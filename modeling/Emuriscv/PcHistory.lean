import Emuriscv.MonitorLine
import Emuriscv.Reset
import Mathlib.Data.List.OfFn

/-! `pc_history` as a window on the program counters of a run. A step that reaches its end moves the
window on by one; a step whose fetch fails leaves it where it was. -/
namespace Emuriscv

open LabelledRun

/-- `pc_history`, oldest first. -/
def State.backtrace (s : State) : List Word := List.ofFn s.pcHistory

theorem shiftPcHistory_snoc (history : Fin pcHistoryDepth → Word) (pc : Word) :
    List.ofFn (Function.update (shiftPcHistory history) (Fin.last 7) pc) =
      (List.ofFn history).tail ++ [pc] := rfl

theorem raiseException_pcHistory (s : State) (cause tval : Word) :
    (raiseException s cause tval).pcHistory = s.pcHistory := by
  rcases raiseException_cases s cause tval with ⟨_,entered⟩ | ⟨_,entered⟩ <;> rw [entered] <;> rfl

/-- No handler writes to the history. -/
theorem Executed.pcHistory {f : State} (ran : Executed f instruction op t) :
    t.pcHistory = f.pcHistory := by
  cases ran with
  | framed frame => rw [frame.rest]
  | csr found => rw [csrHandler_rest]
  | mret returned =>
    rw [(mret_ok returned).2]
    rfl
  | sret returned =>
    rw [(sret_ok returned).2]
    rfl
  | ecall called =>
    obtain ⟨g,traced,rest⟩ := bind_eq_ok.mp called
    rw [← Except.ok.inj rest,raiseEcall,raiseException_pcHistory,traceEcall_traced traced]
  | faulted accesses faults => rfl

theorem retire_backtrace (s : State) : (retire s).backtrace =
    List.ofFn (Function.update s.pcHistory (Fin.last 7) (retire s).pc) := rfl

/-- The handler entry is stored, if there is a trap. -/
theorem finishOp_backtrace (s : State) :
    (finishOp s).backtrace = s.backtrace.tail ++ [(finishOp s).pc] := by
  cases pending : s.hasPendingException with
  | false =>
    rw [finishOp_quiet pending,retire_backtrace]
    exact shiftPcHistory_snoc ..
  | true =>
    rw [finishOp_pending pending,retire_backtrace,raiseException_pcHistory]
    exact shiftPcHistory_snoc ..

/-- The fetch of the next step finds a memory range. -/
structure FetchMaps (s : State) : Prop where
  noFault : ¬PageFaults s s.pc .fetch
  covered : ∀ t physicalAddress, translateAddress s s.pc .fetch = .ok t →
    t.physicalAddress = some physicalAddress → getPhysMemRange s.memoryMap physicalAddress ≠ none

/-- The step lemma: the window moves on to where the next step starts. -/
theorem emulateOp_backtrace [Platform] (maps : FetchMaps s) (step : emulateOp s = .ok s') :
    s'.backtrace = s.backtrace.tail ++ [s'.pc] := by
  cases emulateOp_cases step with
  | fetchFault faults => exact absurd faults maps.noFault
  | unmapped translated assigned outside => exact absurd outside (maps.covered _ _ translated assigned)
  | executed fetched ran =>
    have history := (execute_cases ran).pcHistory
    rw [fetched.frame] at history
    rw [finishOp_backtrace,State.backtrace,history]
    rfl

/-- After any run, the last eight program counters of it. -/
def ShowsRecent (s : State) (steps : List (Unit × State)) : Prop :=
  (final s steps).backtrace = ((states s steps).map State.pc).drop (steps.length - 7)

/-- The last entry is the current `pc`. -/
theorem ShowsRecent.current {s : State} {steps : List (Unit × State)} (shows : ShowsRecent s steps)
    (long : 7 ≤ steps.length) :
    (final s steps).pcHistory (Fin.last 7) = (final s steps).pc := by
  have length : ((states s steps).map State.pc).length = steps.length + 1 := by simp [states]
  have size : ¬((states s steps).map State.pc).length ≤ steps.length - 7 := by omega
  have last := congrArg List.getLast? shows
  rw [List.getLast?_drop,if_neg size,List.getLast?_map,states_getLast] at last
  exact Option.some.inj last

/-- The run lemma: while the last eight steps fetch, the history is that of these steps, whatever they
do and whatever came before. -/
theorem machineRun_backtrace [Platform] (run : MachineRun s (before ++ recent))
    (eight : recent.length = 8) (maps : Every (fun s _ _ => FetchMaps s) (final s before) recent) :
    ShowsRecent s (before ++ recent) := by
  have wide : ∀ s : State, s.backtrace.length = 8 := fun s => List.length_ofFn
  have slid := run.of_append.2.slides maps
    (fun none => by simpa [none] using wide (final s before))
    fun s _ t step maps => emulateOp_backtrace maps step
  have whole : recent.map (fun step => step.2.pc) =
      ((states s (before ++ recent)).map State.pc).drop (before.length + 1) := by
    simp [states]
  rw [List.drop_append_of_le_length (by rw [wide,eight]),eight,
    List.drop_of_length_le (by rw [wide]),List.nil_append] at slid
  rw [ShowsRecent,final_append,slid,whole,List.length_append,eight]
  rfl

/-- The next `n` steps return, each after a fetch that has found a memory range. -/
def fetchesFor [Platform] : Nat → State → Bool
  | 0, _ => true
  | n + 1, s =>
    ((getMemoryTarget s s.pc .fetch).toOption.any fun l => l.status == translateOk) &&
      (emulateOp s).toOption.any (fetchesFor n)

theorem fetchMaps_of_lookup {s : State} (looked : getMemoryTarget s s.pc .fetch = .ok l)
    (ok : l.status = translateOk) : FetchMaps s where
  noFault := by
    intro faults
    rw [getMemoryTarget_fault faults] at looked
    rw [← Except.ok.inj looked] at ok
    contradiction
  covered := by
    intro t physicalAddress translated assigned outside
    rw [getMemoryTarget_uncovered translated assigned outside] at looked
    rw [← Except.ok.inj looked] at ok
    contradiction

theorem fetchesFor_run [Platform] (fetches : fetchesFor n s = true) :
    ∃ steps, MachineRun s steps ∧ steps.length = n ∧ Every (fun s _ _ => FetchMaps s) s steps := by
  induction n generalizing s with
  | zero => exact ⟨[], .nil, rfl, trivial⟩
  | succ n ih =>
    rw [fetchesFor,Bool.and_eq_true] at fetches
    obtain ⟨l,looked,ok⟩ := exists_ok _ fetches.1
    obtain ⟨t,step,later⟩ := exists_ok _ fetches.2
    obtain ⟨steps,run,length,maps⟩ := ih later
    exact ⟨((),t) :: steps, .cons step run, by rw [List.length_cons,length],
      fetchMaps_of_lookup looked (beq_iff_eq.mp ok), maps⟩

/-- `auipc x1, 0`, `addi x1, x1, 16`, `csrrw x0, mtvec, x1` and `nop`, and for a handler an `ecall`. -/
def bootEcall : State := bootMachine [0x00000097,0x01008093,0x30509073,0x00000013,0x00000073]

theorem machineRun_backtrace_bootEcall : ∃ steps, @MachineRun clearingPlatform bootEcall steps ∧
    steps.length = 8 ∧ ShowsRecent bootEcall steps := by
  obtain ⟨steps,run,length,maps⟩ := @fetchesFor_run 8 bootEcall clearingPlatform (by decide +kernel)
  exact ⟨steps, run, length,
    @machineRun_backtrace bootEcall [] steps clearingPlatform run length maps⟩

/-- A number of steps that come to an end are a run. -/
theorem machineRun_of_stepLoop [Platform] (ran : Monitor.stepLoop n s = .ok t) :
    ∃ steps, MachineRun s steps ∧ steps.length = n ∧ final s steps = t := by
  induction n generalizing s with
  | zero => exact ⟨[], .nil, rfl, Except.ok.inj ran⟩
  | succ n ih =>
    obtain ⟨u,head,rest⟩ := bind_eq_ok.mp ran
    obtain ⟨steps,run,length,ends⟩ := ih rest
    exact ⟨((),u) :: steps, .cons head run, by rw [List.length_cons,length], ends⟩

/-- `auipc x1, 0`, `csrrw x0, mtvec, x1`, four times `nop`, and a jump to address 0, where no memory
is. -/
def bootJump : State :=
  bootMachine [0x00000097,0x30509073,0x00000013,0x00000013,0x00000013,0x00000013,0x00000067]

/-- The handler is entered in the eighth step, and the history ends with the address before. -/
theorem bootJump_steps : ∃ t, @Monitor.stepLoop clearingPlatform 8 bootJump = .ok t ∧
    t.pc = 0x80000000 ∧ t.pcHistory (Fin.last 7) = 0 := by
  obtain ⟨t,ran,stale⟩ := exists_ok (x := @Monitor.stepLoop clearingPlatform 8 bootJump)
    (fun t => t.pc == 0x80000000 && t.pcHistory (Fin.last 7) == 0) (by decide +kernel)
  rw [Bool.and_eq_true,beq_iff_eq,beq_iff_eq] at stale
  exact ⟨t,ran,stale⟩

theorem bootJump_stale : AtReset bootJump ∧ ∃ steps, @MachineRun clearingPlatform bootJump steps ∧
    steps.length = 8 ∧ (final bootJump steps).pc = 0x80000000 ∧
    (final bootJump steps).pcHistory (Fin.last 7) = 0 ∧ ¬ShowsRecent bootJump steps := by
  obtain ⟨t,ran,pc,last⟩ := bootJump_steps
  obtain ⟨steps,run,length,rfl⟩ := @machineRun_of_stepLoop _ _ _ clearingPlatform ran
  refine ⟨bootMachine_reset _, steps, run, length, pc, last, fun shows => ?_⟩
  have current := shows.current (by omega)
  rw [pc,last] at current
  contradiction

end Emuriscv
