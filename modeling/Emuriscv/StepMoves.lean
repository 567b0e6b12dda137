import Emuriscv.ByteAccess
import Emuriscv.Rereads
import Mathlib.Logic.Relation

/-! All that a step can do to memory and to the devices, as a chain of moves of four kinds. What
every move preserves, every step preserves. -/
namespace Emuriscv

open Relation

/-- Registers, `pc`, the reservation and the pending fields. -/
def HartOnly (s t : State) : Prop := t = { s with
  pc := t.pc
  x := t.x
  pendingTval := t.pendingTval
  pendingException := t.pendingException
  hasPendingException := t.hasPendingException
  loadReservation := t.loadReservation }

/-- Memory changes by the flags of a translation and by a store to RAM, devices by a store to them. -/
inductive Move [Platform] (s : State) : State → Prop
  | hart (only : HartOnly s t) : Move s t
  | translated (translated : translateAddress s address accessType = .ok translation) :
      Move s translation.state
  | stored (resolves : Resolves s address .store u range offset) (ram : range.entry.isRam = true)
      (size : sizeLog2 ≤ 2)
      (ran : writeCommonRam u ⟨some range.index,offset.toNat⟩ value sizeLog2 = .ok t) : Move s t
  | device (resolves : Resolves s address .store u range offset) (device : range.entry.isRam = false)
      (ran : callWrite range.entry.writeFunc u offset value = .ok t) : Move s t

/-- Any number of moves. -/
abbrev Moves [Platform] : State → State → Prop := ReflTransGen Move

/-- The end of a step: memory and devices are left alone. -/
def Settles (s t : State) : Prop := t = { s with
  pc := t.pc
  x := t.x
  csr := t.csr
  instructionCounter := t.instructionCounter
  pendingTval := t.pendingTval
  pendingException := t.pendingException
  hasPendingException := t.hasPendingException
  privilege := t.privilege
  loadReservation := t.loadReservation
  pcHistory := t.pcHistory
  traps := t.traps }

theorem Settles.trans {s t u : State} (first : Settles s t) (second : Settles t u) : Settles s u := by
  rw [Settles,second,first]

section Moves

variable [Platform] {s t u : State}

theorem HartOnly.moves (only : HartOnly s t) : Moves s t := .single (.hart only)

theorem setRdValue_moves (p : WordPtr) (value : Word) : Moves s (setRdValue s p value) := by
  rw [setRdValue_eq]
  exact HartOnly.moves rfl

theorem pendFault_moves (address : Word) (accessType : AccessType) :
    Moves s (pendFault s address accessType) := HartOnly.moves rfl

theorem getMemoryTarget_moves (looked : getMemoryTarget s address accessType = .ok l) :
    Moves s l.state := by
  by_cases faults : PageFaults s address accessType
  · rw [getMemoryTarget_fault faults] at looked
    rw [← Except.ok.inj looked]
    exact pendFault_moves ..
  · obtain ⟨translation,_,translated,_,state,_⟩ := getMemoryTarget_ok looked faults
    rw [state]
    exact .single (.translated translated)

theorem readCommon_moves (h : readCommon s address sizeLog2 = .ok (value,t)) : Moves s t := by
  by_cases faults : PageFaults s address .load
  · rw [readCommon_fault faults] at h
    obtain ⟨_,rfl⟩ := Prod.mk.inj (Except.ok.inj h)
    exact pendFault_moves ..
  · obtain ⟨l,looked,rfl⟩ := readCommon_looked h faults
    exact getMemoryTarget_moves looked

theorem writeCommon_moves (size : sizeLog2 ≤ 2) (h : writeCommon s address value sizeLog2 = .ok t) :
    Moves s t := by
  rcases (writeCommon_returns_iff s address value size).mp ⟨t,h⟩ with faults | ⟨u,range,offset,resolves,_⟩
  · rw [writeCommon_fault faults] at h
    rw [← Except.ok.inj h]
    exact pendFault_moves ..
  · rw [resolves.writeCommon] at h
    split at h
    next ram => exact .single (.stored resolves ram size h)
    next device => exact .single (.device resolves (eq_false_of_ne_true device) h)

theorem loadOp_moves {op : Op} {read : State → Word → Except Stop (Word × State)}
    (reader : op.loadReader = some read) (h : Handler.loadOp read s p = .ok t) : Moves s t := by
  obtain ⟨⟨value,middle⟩,ran,rest⟩ := bind_eq_ok.mp h
  obtain ⟨_,_,first⟩ := Op.loadReader_common reader ran
  dsimp only at rest
  split at rest
  next =>
    rw [← Except.ok.inj rest]
    exact readCommon_moves first
  next =>
    rw [← Except.ok.inj rest]
    exact (readCommon_moves first).trans (setRdValue_moves ..)

theorem branch_moves (taken : Word → Word → Bool) (p : WordPtr) :
    Moves s (Handler.branch taken s p) := by
  unfold Handler.branch
  split
  next => exact HartOnly.moves rfl
  next => exact .refl

theorem lr_moves (h : Handler.lr s p = .ok t) : Moves s t := by
  obtain ⟨⟨value,middle⟩,first,rest⟩ := bind_eq_ok.mp h
  rw [← Except.ok.inj rest]
  exact ((readCommon_moves first).trans (setRdValue_moves ..)).trans (HartOnly.moves rfl)

theorem amoOpW_moves (h : Handler.amoOpW op s p = .ok t) : Moves s t := by
  obtain ⟨⟨value,middle⟩,first,rest⟩ := bind_eq_ok.mp h
  obtain ⟨last,second,rest⟩ := bind_eq_ok.mp rest
  rw [← Except.ok.inj rest]
  exact ((readCommon_moves first).trans (writeCommon_moves (by decide) second)).trans
    (setRdValue_moves ..)

theorem amoswapW_moves (h : Handler.amoswapW s p = .ok t) : Moves s t := by
  obtain ⟨⟨value,middle⟩,first,rest⟩ := bind_eq_ok.mp h
  exact ((readCommon_moves first).trans (setRdValue_moves ..)).trans
    (writeCommon_moves (by decide) rest)

theorem sc_moves (h : Handler.sc s p = .ok t) : Moves s t := by
  unfold Handler.sc at h
  dsimp only at h
  split at h
  next =>
    obtain ⟨written,write,rest⟩ := bind_eq_ok.mp h
    rw [← Except.ok.inj rest]
    exact ((writeCommon_moves (by decide) write).trans (setRdValue_moves ..)).trans
      (HartOnly.moves rfl)
  next =>
    rw [← Except.ok.inj h]
    exact (setRdValue_moves ..).trans (HartOnly.moves rfl)

theorem access_moves {op : Op} (accesses : op.dataAccess = some access)
    (h : execute op s p = .ok t) : Moves s t := by
  cases op <;> simp only [Op.dataAccess,Option.some.injEq,reduceCtorEq] at accesses
  case lb => exact loadOp_moves (show Op.lb.loadReader = some _ from rfl) h
  case lbu => exact loadOp_moves (show Op.lbu.loadReader = some _ from rfl) h
  case lh => exact loadOp_moves (show Op.lh.loadReader = some _ from rfl) h
  case lhu => exact loadOp_moves (show Op.lhu.loadReader = some _ from rfl) h
  case lw => exact loadOp_moves (show Op.lw.loadReader = some _ from rfl) h
  case sb => exact writeCommon_moves (by decide) h
  case sh => exact writeCommon_moves (by decide) h
  case sw => exact writeCommon_moves (by decide) h
  case amoaddW => exact amoOpW_moves h
  case amoorW => exact amoOpW_moves h
  case amoandW => exact amoOpW_moves h
  case amoxorW => exact amoOpW_moves h
  case amoswapW => exact amoswapW_moves h
  case lr => exact lr_moves h
  case sc => exact sc_moves h

theorem dumpStringLoop_moves (h : dumpStringLoop s address rounds = .ok t) : Moves s t := by
  induction rounds generalizing s address with
  | zero => contradiction
  | succ rounds ih =>
    obtain ⟨l,looked,rest⟩ := bind_eq_ok.mp h
    have first := getMemoryTarget_moves looked
    split at rest
    next => rwa [← Except.ok.inj rest]
    next =>
      obtain ⟨⟨data,u⟩,read,rest⟩ := bind_eq_ok.mp rest
      have second := first.trans (readCommon_moves read)
      dsimp only at rest
      split at rest
      next => rwa [← Except.ok.inj rest]
      next => exact second.trans (ih rest)

theorem traceEcall_moves (h : traceEcall s = .ok t) : Moves s t := by
  unfold traceEcall at h
  dsimp only at h
  split at h
  next =>
    split at h
    next => exact dumpStringLoop_moves h
    next =>
      split at h
      next => contradiction
      next => exact Except.ok.inj h ▸ .refl
  next => exact Except.ok.inj h ▸ .refl

omit [Platform] in
theorem raiseException_settles (cause tval : Word) : Settles s (raiseException s cause tval) := by
  rcases raiseException_cases s cause tval with ⟨_,entered⟩ | ⟨_,entered⟩ <;> rw [entered] <;> rfl

omit [Platform] in
theorem finishOp_settles : Settles s (finishOp s) := by
  by_cases pending : s.hasPendingException = true
  · have raised : Settles (dispatched s)
        (raiseException (dispatched s) s.pendingException s.pendingTval) := raiseException_settles ..
    rw [finishOp_pending pending]
    exact (show Settles s (dispatched s) from rfl).trans (raised.trans rfl)
  · rw [finishOp_quiet (eq_false_of_ne_true pending)]
    rfl

theorem plain_moves {op : Op} (plain : op.dataAccess = none) (notCsr : op.csrOp = none)
    (notReturn : op ≠ .mret ∧ op ≠ .sret) (notCall : op ≠ .ecall)
    (h : execute op s p = .ok t) : Moves s t := by
  cases op with
  | lb | lbu | lh | lhu | lw | sb | sh | sw | amoaddW | amoorW | amoandW | amoxorW | amoswapW | lr
  | sc => contradiction
  | csrrs | csrrw | csrrc | csrrsi | csrrwi | csrrci => contradiction
  | mret => exact absurd rfl notReturn.1
  | sret => exact absurd rfl notReturn.2
  | ecall => exact absurd rfl notCall
  | wfi => contradiction
  | slli | srli | srai =>
    obtain ⟨value,rfl⟩ := immediateShift_ok h
    exact setRdValue_moves ..
  | beq | bne | blt | bge | bltu | bgeu =>
    rw [← Except.ok.inj h]
    exact branch_moves ..
  | jal | jalr =>
    rw [← Except.ok.inj h]
    exact (setRdValue_moves ..).trans (HartOnly.moves rfl)
  | uret | ebreak | fence | fencei | sfenceVma =>
    rw [← Except.ok.inj h]
    exact HartOnly.moves rfl
  | add | addi | and | andi | auipc | lui | or | ori | sll | slt | slti | sltiu | sltu | sra | srl
  | sub | xor | xori | mul | mulh | mulhsu | mulhu | opDiv | divu | rem | remu =>
    rw [← Except.ok.inj h]
    exact setRdValue_moves ..

theorem execute_moves {op : Op} (h : execute op s p = .ok t) : ∃ u, Moves s u ∧ Settles u t := by
  cases accesses : op.dataAccess with
  | some access => exact ⟨t, access_moves accesses h, rfl⟩
  | none =>
    cases number : op.csrOp with
    | some csrOp =>
      refine ⟨s, .refl, ?_⟩
      rw [← execute_csrOp number h,csrHandler_rest]
      rfl
    | none =>
      by_cases mret : op = .mret
      · subst mret
        refine ⟨s, .refl, ?_⟩
        rw [(mret_ok h).2]
        rfl
      · by_cases sret : op = .sret
        · subst sret
          refine ⟨s, .refl, ?_⟩
          rw [(sret_ok h).2]
          rfl
        · by_cases call : op = .ecall
          · subst call
            obtain ⟨g,traced,rest⟩ := bind_eq_ok.mp h
            refine ⟨g, traceEcall_moves traced, ?_⟩
            rw [← Except.ok.inj rest,raiseEcall]
            exact (show Settles g { g with pendingException := ecallCause g } from rfl).trans
              (raiseException_settles ..)
          · exact ⟨t, plain_moves accesses number ⟨mret,sret⟩ call h, rfl⟩

/-- What a step does to memory and to the devices is what its moves do. -/
theorem emulateOp_moves (h : emulateOp s = .ok t) : ∃ u, Moves s u ∧ Settles u t := by
  cases emulateOp_cases h with
  | fetchFault faults =>
    refine ⟨_, (pendFault_moves s.pc .fetch).trans (HartOnly.moves ?_), raiseException_settles ..⟩
    rfl
  | @unmapped translation _ translated _ _ =>
    refine ⟨translation.state, .single (.translated translated), ?_⟩
    exact (show Settles translation.state { translation.state with pc := s.pc + 4 } from rfl).trans
      (raiseException_settles ..)
  | executed fetched ran =>
    obtain ⟨l,looked,_,rfl,_⟩ := fetched.looked
    obtain ⟨u,moves,settles⟩ := execute_moves ran
    refine ⟨u, ?_, settles.trans finishOp_settles⟩
    have past : HartOnly l.state { l.state with pc := l.state.pc + 4 } := rfl
    exact ((getMemoryTarget_moves looked).trans past.moves).trans moves

/-- Ranges, privilege and all CSRs but `mip`. -/
structure KeepsSetting (s t : State) : Prop where
  map : t.memoryMap = s.memoryMap
  privilege : t.privilege = s.privilege
  csr : ∀ number, number ≠ csrMip → t.csr number = s.csr number

omit [Platform] in
theorem WriteFrame.setting (frame : WriteFrame s t) : KeepsSetting s t := by
  refine ⟨?_,?_,frame.csr⟩ <;> rw [frame.rest]

theorem Move.setting (move : Move s t) : KeepsSetting s t := by
  cases move with
  | hart only =>
    rw [only]
    exact ⟨rfl, rfl, fun _ _ => rfl⟩
  | translated translated => exact (translateAddress_ramOnly translated).writeFrame.setting
  | stored resolves _ _ ran =>
    exact (resolves.ramOnly.trans (writeCommonRam_ramOnly ran)).writeFrame.setting
  | device resolves _ ran =>
    exact (resolves.ramOnly.writeFrame.trans (callWrite_frame ran).writeFrame).setting

/-- What single moves preserve, chains of them preserve. -/
theorem Moves.induct {P : State → Prop} (moves : Moves s t) (initial : P s)
    (preserved : ∀ s t, P s → Move s t → P t) : P t := by
  induction moves with
  | refl => exact initial
  | tail _ move ih => exact preserved _ _ ih move

end Moves

end Emuriscv
