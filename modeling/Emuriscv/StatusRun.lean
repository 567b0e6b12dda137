import Emuriscv.StatusView
import Emuriscv.TrapStep

/-! The machine as a run of status steps. Whatever a step of `emulate_op` does, the two status
registers move only in CSR instructions, traps and returns. -/
namespace Emuriscv

open LabelledRun

/-- Neither register moves where the CSR file stays the same. -/
theorem reaches_of_csr {s t : State} (csr : t.csr = s.csr) : Reaches StatusStep s t :=
  .single .other ⟨congrFun csr csrSstatus, congrFun csr csrMstatus⟩

theorem reaches_trap {s g : State} (csr : g.csr = s.csr) (cause tval : Word) :
    Reaches StatusStep s (raiseException g cause tval) :=
  (reaches_of_csr csr).trans (.single (.trap cause tval) rfl)

theorem HandlerFrame.reaches (frame : HandlerFrame s t) : Reaches StatusStep s t :=
  .single .other ⟨frame.csr csrSstatus (by decide), frame.csr csrMstatus (by decide)⟩

/-- A CSR instruction on another number moves neither register. -/
theorem csrHandler_reaches (op : CsrOp) (s : State) (instruction : WordPtr) :
    Reaches StatusStep s (op.handler s instruction) := by
  by_cases addressed : csrNumber s instruction = csrSstatus ∨ csrNumber s instruction = csrMstatus
  · exact .single (.csr op instruction) ⟨addressed,rfl⟩
  · obtain ⟨sstatus,mstatus⟩ := not_or.mp addressed
    refine .single .other ⟨?_,?_⟩
    · rw [csrStep_status,if_neg (Ne.symm sstatus)]
    · rw [csrStep_status,if_neg (Ne.symm mstatus)]

theorem ecall_reaches {s : State} (called : ecall s = .ok t) : Reaches StatusStep s t := by
  obtain ⟨g,traced,rest⟩ := bind_eq_ok.mp called
  have csr : g.csr = s.csr := by rw [traceEcall_traced traced]
  rw [← Except.ok.inj rest,raiseEcall]
  exact reaches_trap csr (ecallCause g) g.pendingTval

theorem Executed.reaches (ran : Executed s instruction op t) : Reaches StatusStep s t := by
  cases ran with
  | framed frame => exact frame.reaches
  | csr number => exact csrHandler_reaches ..
  | mret returned => exact .single .mret returned
  | sret returned => exact .single .sret returned
  | ecall called => exact ecall_reaches called
  | faulted accesses faults => exact reaches_of_csr rfl

theorem retire_reaches (s : State) : Reaches StatusStep s (retire s) :=
  .single .other ⟨retire_csr s (by decide) (by decide), retire_csr s (by decide) (by decide)⟩

theorem finishOp_reaches (s : State) : Reaches StatusStep s (finishOp s) := by
  cases pending : s.hasPendingException with
  | false =>
    rw [finishOp_quiet pending]
    have shifted : Reaches StatusStep s (dispatched s) := reaches_of_csr rfl
    exact shifted.trans (retire_reaches _)
  | true =>
    rw [finishOp_pending pending]
    have shifted : (dispatched s).csr = s.csr := rfl
    exact (reaches_trap shifted ..).trans (retire_reaches _)

/-- One step of the machine. -/
theorem emulateOp_reaches [Platform] (stepped : emulateOp s = .ok s') :
    Reaches StatusStep s s' := by
  cases emulateOp_cases stepped with
  | fetchFault faults =>
    have csr : ({ pendFault s s.pc .fetch with pc := s.pc + 4 } : State).csr = s.csr := rfl
    exact reaches_trap csr ..
  | @unmapped t _ translated assigned outside =>
    have csr : ({ t.state with pc := s.pc + 4 } : State).csr = s.csr := by
      rw [translateAddress_ramOnly translated]
    exact reaches_trap csr ..
  | executed fetched ran =>
    have fetch : Reaches StatusStep s _ := reaches_of_csr fetched.midStep.csr
    exact (fetch.trans (execute_cases ran).reaches).trans (finishOp_reaches _)

/-- A whole run of the machine is a run of status steps. -/
theorem emulateRun_reaches [Platform] {s : State} {steps : List (Unit × State)}
    (run : Path (fun s _ t => emulateOp s = .ok t) s steps) :
    Reaches StatusStep s (final s steps) :=
  run.reaches fun _ _ _ stepped => emulateOp_reaches stepped

end Emuriscv
