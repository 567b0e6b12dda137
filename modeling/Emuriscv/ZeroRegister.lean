import Emuriscv.AttendedRun
import Emuriscv.Inspection
import Emuriscv.Rereads

/-! `x0`. Every write of a handler to the register file is guarded, and no trap writes a
register, so that the zero of reset stays; of the lines of the monitor only `step` and `load`
reach a register. -/
namespace Emuriscv

open Attended LabelledRun Monitor Numeral

theorem writeX_zero (x : RegisterIndex → Word) (index : RegisterIndex) (value : Word) :
    writeX x index value 0 = x 0 := by
  unfold writeX
  split
  next => rfl
  next other => exact Function.update_of_ne (Ne.symm other) ..

theorem setRdValue_zero (s : State) (p : WordPtr) (value : Word) :
    (setRdValue s p value).x 0 = s.x 0 := by
  rw [setRdValue_eq]
  exact writeX_zero ..

section Step

variable [Platform] {s f : State} {p : WordPtr} {op : Op}

theorem RegistersSet.zero (registers : RegistersSet f p op t) : t.x 0 = f.x 0 := by
  cases registers with
  | kept same => rw [same]
  | early value same => rw [same,writeX_zero]
  | late reads value same => rw [same,writeX_zero]

/-- No extraction of a register field finds `x0` changed. -/
theorem Rereads.zero (reads : Rereads f p op field u) : u.x 0 = f.x 0 := by
  cases reads with
  | loaded reader accesses ran free => rw [Op.loadReader_x reader ran]
  | operand arithmetic ran => rw [readCommon_x ran]
  | stored arithmetic ran wrote => rw [writeCommon_x wrote,readCommon_x ran]
  | swapped ran => rw [readCommon_x ran]
  | swapOperand ran => rw [setRdValue_zero,readCommon_x ran]
  | conditional reserved wrote => rw [writeCommon_x wrote]
  | csrrs => exact setRdValue_zero ..
  | csrrc =>
    rw [readCsrToRd_eq]
    exact writeX_zero ..

omit [Platform] in
theorem Fetches.x (fetched : Fetches s f p op) : f.x = s.x := by rw [fetched.frame]

/-- The step lemma. -/
theorem emulateOp_zero (step : emulateOp s = .ok t) : t.x 0 = s.x 0 := by
  cases emulateOp_cases step with
  | fetchFault faults => rw [(raiseException_frame ..).1]; rfl
  | unmapped translated assigned outside =>
    rw [(raiseException_frame ..).1,translateAddress_ramOnly translated]
  | executed fetched ran => rw [(finishOp_frame _).1,(execute_registers ran).zero,fetched.x]

end Step

/-- `x0` is zero, also where an instruction takes a register field of its word to be 0: when its
handler is entered, and later on. -/
structure ZeroSeen [Platform] (s : State) : Prop where
  zero : s.x 0 = 0
  early : ∀ f p op, Fetches s f p op → (getRs1 (deref f p) = 0 → getRs1Value f p = 0) ∧
    (getRs2 (deref f p) = 0 → getRs2Value f p = 0)
  late : ∀ f p op field u, Fetches s f p op → Rereads f p op field u →
    (getRs1 (deref u p) = 0 → getRs1Value u p = 0) ∧ (getRs2 (deref u p) = 0 → getRs2Value u p = 0)

theorem getRsValue_zero {s : State} (zero : s.x 0 = 0) (p : WordPtr) :
    (getRs1 (deref s p) = 0 → getRs1Value s p = 0) ∧ (getRs2 (deref s p) = 0 → getRs2Value s p = 0) := by
  constructor
  · intro named
    rw [getRs1Value,named,getReg,zero]
  · intro named
    rw [getRs2Value,named,getReg,zero]

theorem zeroSeen [Platform] (zero : s.x 0 = 0) : ZeroSeen s := by
  constructor
  case zero => exact zero
  case early =>
    intro f p op fetched
    exact getRsValue_zero (by rw [fetched.x,zero]) p
  case late =>
    intro f p op field u fetched reads
    exact getRsValue_zero (by rw [reads.zero,fetched.x,zero]) p

section Operator

variable {sizeBits : Nat} {symbols : List Symbol} {files : Files}

theorem dumpOne_x {s : State} (ran : dumpOne s a = .ok t) : t.x = s.x := by
  rw [dumpOne_eq] at ran
  rw [performAll_traced ran]

theorem dumpLoop_x {body : State → Word → Except Stop State}
    (keeps : ∀ s a t, body s a = .ok t → t.x = s.x) {s : State}
    (ran : dumpLoop body bound rounds s a = .ok t) : t.x = s.x := by
  induction rounds generalizing s a with
  | zero => contradiction
  | succ rounds ih =>
    rw [dumpLoop] at ran
    split at ran
    next =>
      obtain ⟨u,first,later⟩ := bind_eq_ok.mp ran
      exact (ih later).trans (keeps _ _ _ first)
    next => rw [← Except.ok.inj ran]

/-- A line other than `step` and `load` leaves the registers alone. -/
theorem perform_x [Platform] (action : Action) {s : State} (other : ∀ n, action ≠ .step n)
    (kept : ∀ file, action ≠ .load file) (ran : action.perform sizeBits symbols files s = .ok t) :
    t.x = s.x := by
  have still (same : (.ok s : Except Stop State) = .ok t) : t.x = s.x := by rw [Except.ok.inj same]
  cases action with
  | nothing | help | quit | reg name => exact still ran
  | regs =>
    rw [Action.perform,dumpRegisters] at ran
    split at ran
    next => exact still ran
    next => contradiction
  | dumpVirtual start count | disassemble start count => exact dumpLoop_x (fun _ _ _ => dumpOne_x) ran
  | dumpPhysical start count =>
    refine dumpLoop_x (fun s a t one => ?_) ran
    obtain ⟨_,_,same⟩ := bind_eq_ok.mp one
    rw [← Except.ok.inj same]
  | dumpString start => rw [dumpStringLoop_traced ran]
  | write address value =>
    obtain ⟨l,looked,wrote⟩ := bind_eq_ok.mp ran
    rw [writeCommon_x wrote,getMemoryTarget_traced looked]
  | step n => exact absurd rfl (other n)
  | backtrace =>
    change dumpBacktrace s = .ok t at ran
    rw [dumpBacktrace_eq] at ran
    rw [performAll_traced ran]
  | symbol | save file =>
    obtain ⟨_,_,same⟩ := bind_eq_ok.mp ran
    exact still same
  | load file => exact absurd rfl (kept file)

/-- The zero is kept by every part of the emulator but `load`. -/
theorem zero_kept [Platform] (loadsNothing : files.LoadsNothing) :
    Kept sizeBits symbols files fun s => s.x 0 = 0 := by
  constructor
  case step =>
    intro s t zero step
    rw [emulateOp_zero step,zero]
  case fetch =>
    intro s f p zero fetched
    rw [fetched.x,zero]
  case trap =>
    intro s zero
    rw [(finishOp_frame _).1,raiseEcall]
    dsimp only
    rw [(raiseException_frame ..).1]
    exact zero
  case line =>
    intro s t action zero other ran
    have kept (file : Text) : action ≠ .load file := by
      rintro rfl
      exact loadsNothing file s t ran
    rw [perform_x action other kept ran,zero]

end Operator

/-- The run lemma, for runs with sessions in them: in every state between two instructions and at
every prompt. -/
theorem reached_zero [Platform] (reset : AtReset s) (loadsNothing : files.LoadsNothing)
    (reached : Reached sizeBits symbols files s input phase t rest) : ZeroSeen t := by
  have initial : s.x 0 = 0 := by
    obtain ⟨_,_,_,_,_,rfl⟩ := reset
    rfl
  exact zeroSeen ((zero_kept loadsNothing).reached initial reached)

/-- `auipc x5, 0`, `addi x5, x5, 20`, `csrrw x0, mepc, x5`, `addi x17, x0, 98` and `mret`, which
enters a user program: `ecall` and `auipc x0, 0`. -/
def bootFutex : State := bootMachine
  [0x00000297,0x01428293,0x34129073,0x06200893,0x30200073,0x00000073,0x00000017]

/-- The sixth instruction opens a session, in which the seventh is executed. -/
def steppingSession : Text := "step 1\nq\n".toList

/-- A file system without snapshots. -/
def noSnapshots : Files := ⟨fun _ _ => pure (), fun _ _ => throw .nullPointer⟩

theorem noSnapshots_loadsNothing : noSnapshots.LoadsNothing := by
  intro file s t loaded
  contradiction

/-- All that was typed has been read; the trap behind the session leads back to M mode. -/
theorem reached_zero_bootFutex :
    ∃ t, @Reached clearingPlatform 64 [] noSnapshots bootFutex steppingSession .emulating t [] ∧
      t.privilege = privM ∧ @ZeroSeen clearingPlatform t := by
  let _ : Platform := clearingPlatform
  obtain ⟨⟨t,rest⟩,ran,ended⟩ := exists_ok
    (x := do
      let r ← Attended.emulateOp 64 [] noSnapshots bootFutex steppingSession
      let r ← Attended.emulateOp 64 [] noSnapshots r.1 r.2
      let r ← Attended.emulateOp 64 [] noSnapshots r.1 r.2
      let r ← Attended.emulateOp 64 [] noSnapshots r.1 r.2
      let r ← Attended.emulateOp 64 [] noSnapshots r.1 r.2
      Attended.emulateOp 64 [] noSnapshots r.1 r.2)
    (fun r => r.1.privilege = privM ∧ r.2 = []) (by decide +kernel)
  obtain ⟨privilege,rfl⟩ := of_decide_eq_true ended
  obtain ⟨_,first,ran⟩ := bind_eq_ok.mp ran
  obtain ⟨_,second,ran⟩ := bind_eq_ok.mp ran
  obtain ⟨_,third,ran⟩ := bind_eq_ok.mp ran
  obtain ⟨_,fourth,ran⟩ := bind_eq_ok.mp ran
  obtain ⟨_,fifth,sixth⟩ := bind_eq_ok.mp ran
  have reached : Reached 64 [] noSnapshots bootFutex steppingSession .emulating t [] :=
    (((((Reached.start.stepped first).stepped second).stepped third).stepped fourth).stepped fifth).stepped
      sixth
  exact ⟨t, reached, privilege, reached_zero (bootMachine_reset _) noSnapshots_loadsNothing reached⟩

end Emuriscv
