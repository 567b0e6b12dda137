import Emuriscv.Reset

/-! The privilege of the hart. A step raises it by a trap only, which enters at the vector of
the new mode. A return lowers it to what `mstatus` has stacked, and `mret` does so without a
look at the value: the reserved mode is not excluded. -/
namespace Emuriscv

open LabelledRun

/-- The step took one trap: it entered S or M mode at the vector that stood in `stvec` or
`mtvec` when the step began, with `xepc` and `xcause` of that mode written. -/
def Vectored (s s' : State) : Prop :=
  ∃ cause tval, s'.traps = ⟨s.pc + 4, cause, tval⟩ :: s.traps ∧
    (Enters s s' sTrapCsrs mTrapCsrs privS cause tval ∨
      Enters s s' mTrapCsrs sTrapCsrs privM cause tval)

/-- The privilege does not rise but by a trap. -/
def RisesByTrap (s s' : State) : Prop := s'.privilege.sle s.privilege = true ∨ Vectored s s'

theorem raise_vectored {s f : State} (mid : MidStep s f) (cause tval : Word) :
    Vectored s (raiseException f cause tval) := by
  have once := raiseException_traps f cause tval
  rw [mid.pc,mid.traps] at once
  refine ⟨cause,tval,once,?_⟩
  rcases raiseException_cases f cause tval with ⟨_,entered⟩ | ⟨_,entered⟩ <;> rw [entered]
  · exact Or.inl (enterTrap_enters mid _ _ _ _ sTrapCsrs_apart)
  · exact Or.inr (enterTrap_enters mid _ _ _ _ mTrapCsrs_apart)

theorem Vectored.after {s t t' : State} (vectored : Vectored s t) (pc : t'.pc = t.pc)
    (privilege : t'.privilege = t.privilege) (traps : t'.traps = t.traps)
    (csr : UpToCounters t t') : Vectored s t' := by
  obtain ⟨cause,tval,once,entered⟩ := vectored
  refine ⟨cause, tval, traps.trans once, ?_⟩
  rcases entered with supervisor | machine
  · exact Or.inl (supervisor.afterCounters sTrapCsrs_counters pc privilege csr)
  · exact Or.inr (machine.afterCounters mTrapCsrs_counters pc privilege csr)

theorem Vectored.retired (vectored : Vectored s t) : Vectored s (retire t) :=
  vectored.after rfl rfl rfl (retire_counters _)

theorem Vectored.dispatched (vectored : Vectored s t) : Vectored s (dispatched t) :=
  vectored.after rfl rfl rfl fun _ _ _ => rfl

/-- A field of at most two bits is no more than M mode. -/
theorem getField_le (reg : Word) (f : BitField.Field 32) (short : f.len ≤ 2) :
    (getField reg f.mask).toNat ≤ 3 := by
  have bound := BitField.get_lt reg f
  have limit : 2 ^ f.len ≤ 2 ^ 2 := Nat.pow_le_pow_right (by decide) short
  rw [getField_eq]
  omega

theorem sle_of_toNat_le {a b : Word} (le : a.toNat ≤ b.toNat) (small : b.toNat < 2 ^ 31) :
    a.sle b = true := by
  rw [BitVec.sle_eq_decide,decide_eq_true_eq,BitVec.toInt_eq_toNat_of_lt (by omega),
    BitVec.toInt_eq_toNat_of_lt (by omega)]
  exact Int.ofNat_le.mpr le

theorem mret_lowers {s : State} (returned : mret s = .ok t) : t.privilege.sle s.privilege = true := by
  obtain ⟨machine,rfl⟩ := mret_ok returned
  rw [machine]
  exact sle_of_toNat_le (getField_le _ Mstatus.mpp (by decide)) (by decide)

theorem sret_lowers {s : State} (returned : sret s = .ok t) : t.privilege.sle s.privilege = true := by
  obtain ⟨mode,rfl⟩ := sret_ok returned
  have bound := BitField.get_lt (readCsr s csrMstatus) Mstatus.spp
  have stacked : (getField (readCsr s csrMstatus) mstatusSpp).toNat ≤ 1 := Nat.le_of_lt_succ bound
  rw [mode,sretPrivilege]
  split
  · exact sle_of_toNat_le (Nat.le_trans stacked (by decide)) (by decide)
  · exact sle_of_toNat_le stacked (by decide)

/-- Where a handler leaves nothing pending, the end of the step keeps the privilege. -/
theorem finishOp_lowers {s f t : State} (fetched : Fetches s f instruction op)
    (clear : t.hasPendingException = false) (lowers : t.privilege.sle f.privilege = true) :
    RisesByTrap s (finishOp t) := by
  rw [fetched.midStep.privilege] at lowers
  rw [finishOp_quiet clear]
  exact Or.inl lowers

/-- The step lemma: with nothing pending at its start, a step raises the privilege through a
vector or not at all. -/
theorem emulateOp_privilege [Platform] (noException : s.hasPendingException = false)
    (step : emulateOp s = .ok s') : RisesByTrap s s' := by
  have same (a : Word) : a.sle a = true := by simp [BitVec.sle_eq_decide]
  cases emulateOp_cases step with
  | fetchFault faults =>
    have mid : MidStep s { pendFault s s.pc .fetch with pc := s.pc + 4 } := ⟨rfl,rfl,rfl,rfl⟩
    exact Or.inr (raise_vectored mid ..)
  | @unmapped t _ translated assigned outside =>
    have mid : MidStep s { t.state with pc := s.pc + 4 } := by
      rw [translateAddress_ramOnly translated]
      exact ⟨rfl,rfl,rfl,rfl⟩
    exact Or.inr (raise_vectored mid ..)
  | @executed f instruction op t fetched ran =>
    have clear : f.hasPendingException = false := by
      rw [fetched.frame]
      exact noException
    cases execute_cases ran with
    | framed frame =>
      refine finishOp_lowers fetched ?_ ?_ <;> rw [frame.rest]
      · exact clear
      · exact same _
    | csr number =>
      refine finishOp_lowers fetched ?_ ?_ <;> rw [csrHandler_rest]
      · exact clear
      · exact same _
    | mret returned =>
      refine finishOp_lowers fetched ?_ (mret_lowers returned)
      rw [(mret_ok returned).2]
      exact clear
    | sret returned =>
      refine finishOp_lowers fetched ?_ (sret_lowers returned)
      rw [(sret_ok returned).2]
      exact clear
    | ecall called =>
      obtain ⟨g,traced,rest⟩ := bind_eq_ok.mp called
      have mid : MidStep s { g with pendingException := ecallCause g } := by
        rw [traceEcall_traced traced]
        exact ⟨fetched.midStep.pc,fetched.midStep.csr,fetched.midStep.privilege,
          fetched.midStep.traps⟩
      rw [← Except.ok.inj rest,raiseEcall,finishOp_quiet (raiseException_pending ..)]
      exact Or.inr (raise_vectored mid ..).dispatched.retired
    | faulted accesses faults =>
      rename_i access
      have mid : MidStep s (dispatched (access.faulted f instruction)) :=
        ⟨fetched.midStep.pc,fetched.midStep.csr,fetched.midStep.privilege,fetched.midStep.traps⟩
      rw [finishOp_pending (show (access.faulted f instruction).hasPendingException = true from rfl)]
      exact Or.inr (raise_vectored mid ..).retired

theorem emulateOp_privilege_demandPaged :
    ∃ s', @emulateOp clearingPlatform demandPaged = .ok s' ∧ RisesByTrap demandPaged s' := by
  obtain ⟨s',stepped,_⟩ :=
    @faulting_step _ _ _ _ _ clearingPlatform demandPaged_fetches rfl demandPaged_faults
  exact ⟨s', stepped, @emulateOp_privilege _ _ clearingPlatform rfl stepped⟩

/-- `csrrw x0, mtvec, x1` in U mode, with an exception left pending. -/
def staleWrite : State :=
  { guest privU [superpageEntry,0x30509073] with
    pc := 4
    x := fun index => if index = 1 then 0x100 else 0
    hasPendingException := true }

/-- The state after its fetch. -/
def staleFetched : State :=
  { markEntry staleWrite 0x80000000 superpageEntry .fetch with
    pc := (markEntry staleWrite 0x80000000 superpageEntry .fetch).pc + 4 }

theorem staleWrite_fetches : Fetches staleWrite staleFetched ⟨0,4⟩ .csrrw := by
  have paged : Paged staleWrite := ⟨Or.inr rfl, by decide⟩
  have leaf : busWalk staleWrite staleWrite.pc = .leaf 1 0x80000000 superpageEntry := by decide
  exact fetches_of_leaf paged leaf (by decide) (by decide)

/-- The stale exception is raised through the vector that the instruction has just written. -/
theorem staleWrite_redirected :
    ∃ s', @emulateOp clearingPlatform staleWrite = .ok s' ∧ ¬RisesByTrap staleWrite s' := by
  let _ : Platform := clearingPlatform
  refine ⟨_, emulateOp_executed staleWrite_fetches rfl, ?_⟩
  rintro (lower | ⟨cause,tval,_,supervisor | machine⟩)
  · revert lower
    decide
  · have privilege := supervisor.privilege
    revert privilege
    decide
  · have pc := machine.pc
    revert pc
    decide

/-- U, S or M mode. -/
def Architectural (s : State) : Prop :=
  s.privilege = privU ∨ s.privilege = privS ∨ s.privilege = privM

/-- The step is an `mret` that finds the reserved mode in `mstatus.MPP`. -/
def ReservedReturn (s : State) : Prop :=
  ∃ f instruction, Fetches s f instruction .mret ∧
    getField (readCsr s csrMstatus) mstatusMpp = privReserved

theorem architectural_of_lt {s : State} (bound : s.privilege.toNat < 4)
    (other : s.privilege ≠ privReserved) : Architectural s := by
  have apart : s.privilege.toNat ≠ 2 := fun same => other (BitVec.eq_of_toNat_eq same)
  have value : s.privilege.toNat = 0 ∨ s.privilege.toNat = 1 ∨ s.privilege.toNat = 3 := by omega
  rcases value with user | supervisor | machine
  · exact Or.inl (BitVec.eq_of_toNat_eq user)
  · exact Or.inr (Or.inl (BitVec.eq_of_toNat_eq supervisor))
  · exact Or.inr (Or.inr (BitVec.eq_of_toNat_eq machine))

theorem Architectural.not_reserved (architectural : Architectural s) :
    s.privilege ≠ privReserved := by
  rcases architectural with mode | mode | mode <;> rw [mode] <;> decide

theorem Architectural.congr {s t : State} (architectural : Architectural s)
    (privilege : t.privilege = s.privilege) : Architectural t := by
  rwa [Architectural,privilege]

theorem raiseException_architectural (s : State) (cause tval : Word) :
    Architectural (raiseException s cause tval) := by
  rcases raiseException_cases s cause tval with ⟨_,entered⟩ | ⟨_,entered⟩ <;> rw [entered]
  · exact Or.inr (Or.inl rfl)
  · exact Or.inr (Or.inr rfl)

theorem finishOp_architectural (architectural : Architectural t) : Architectural (finishOp t) := by
  cases pending : t.hasPendingException with
  | false =>
    rw [finishOp_quiet pending]
    exact architectural
  | true =>
    rw [finishOp_pending pending]
    exact raiseException_architectural ..

/-- No handler but `mret` can leave the modes of the architecture. -/
theorem Executed.architectural {f : State} (ran : Executed f instruction op t)
    (architectural : Architectural f)
    (stacked : op = .mret → getField (readCsr f csrMstatus) mstatusMpp ≠ privReserved) :
    Architectural t := by
  cases ran with
  | framed frame => exact architectural.congr (by rw [frame.rest])
  | csr number => exact architectural.congr (by rw [csrHandler_rest])
  | mret returned =>
    obtain ⟨_,rfl⟩ := mret_ok returned
    exact architectural_of_lt (BitField.get_lt (readCsr f csrMstatus) Mstatus.mpp) (stacked rfl)
  | sret returned =>
    obtain ⟨_,rfl⟩ := sret_ok returned
    have small := BitField.get_lt (readCsr f csrMstatus) Mstatus.spp
    have bound : (getField (readCsr f csrMstatus) mstatusSpp).toNat < 2 := small
    refine architectural_of_lt (Nat.lt_trans bound (by decide)) fun reserved => ?_
    have two : getField (readCsr f csrMstatus) mstatusSpp = privReserved := reserved
    rw [two] at bound
    exact absurd bound (by decide)
  | ecall called =>
    obtain ⟨g,_,rest⟩ := bind_eq_ok.mp called
    rw [← Except.ok.inj rest,raiseEcall]
    exact raiseException_architectural ..
  | faulted accesses faults => exact architectural.congr rfl

/-- The step lemma: what `mret` finds in `MPP` decides. -/
theorem emulateOp_architectural [Platform] (architectural : Architectural s) (quiet : Quiet s)
    (step : emulateOp s = .ok t) : Architectural t ↔ ¬ReservedReturn s := by
  constructor
  · rintro kept ⟨f,instruction,fetched,reserved⟩
    rw [emulateOp_fetched fetched] at step
    obtain ⟨g,returned,rest⟩ := bind_eq_ok.mp step
    have left := (mret_ok returned).2
    have clear : g.hasPendingException = false := by
      rw [left]
      exact (fetched.quiet quiet).flag
    have privilege : g.privilege = getField (readCsr f csrMstatus) mstatusMpp := by
      rw [left]
      rfl
    refine kept.not_reserved ?_
    rw [← Except.ok.inj rest,finishOp_quiet clear,← reserved,← fetched.midStep.readCsr,← privilege]
    rfl
  · intro other
    cases emulateOp_cases step with
    | fetchFault faults => exact raiseException_architectural ..
    | unmapped translated assigned outside => exact raiseException_architectural ..
    | @executed f instruction op t fetched ran =>
      refine finishOp_architectural ((execute_cases ran).architectural ?_ ?_)
      · exact architectural.congr fetched.midStep.privilege
      · rintro rfl reserved
        rw [fetched.midStep.readCsr] at reserved
        exact other ⟨f,instruction,fetched,reserved⟩

/-- The joint invariant of the privilege and the pending fields. -/
structure Proper (s : State) : Prop where
  architectural : Architectural s
  quiet : Quiet s

theorem AtReset.proper (reset : AtReset s) : Proper s := by
  refine ⟨?_,reset.quiet⟩
  obtain ⟨_,_,_,_,_,rfl⟩ := reset
  exact Or.inr (Or.inr rfl)

/-- The run lemma: a machine started by a reset stays in the modes of the architecture exactly
as long as no `mret` finds the reserved mode. -/
theorem machineRun_architectural [Platform] (reset : AtReset s) (run : MachineRun s steps) :
    Every (fun _ _ t => Architectural t) s steps ↔ Every (fun s _ _ => ¬ReservedReturn s) s steps := by
  refine run.every_iff reset.proper ?_ ?_
  · intro s _ t proper step
    exact emulateOp_architectural proper.architectural proper.quiet step
  · intro s _ t proper step kept
    exact ⟨kept, emulateOp_quiet proper.quiet step⟩

/-- `lui x1, 1`, `csrrw x0, mstatus, x1` and `mret`. -/
def bootReserved : State := bootMachine [0x000010b7,0x30009073,0x30200073]

theorem bootReserved_steps : ∃ t u v, @MachineRun clearingPlatform bootReserved
    [((),t),((),u),((),v)] ∧ v.privilege = privReserved := by
  let next := @emulateOp clearingPlatform
  obtain ⟨v,all,reserved⟩ := exists_ok (x := next bootReserved >>= next >>= next)
    (fun v => v.privilege == privReserved) (by decide +kernel)
  obtain ⟨u,both,third⟩ := bind_eq_ok.mp all
  obtain ⟨t,first,second⟩ := bind_eq_ok.mp both
  exact ⟨t, u, v, .cons first (.cons second (.cons third .nil)), by simpa using reserved⟩

theorem machineRun_architectural_bootReserved :
    ∃ t u v, @MachineRun clearingPlatform bootReserved [((),t),((),u),((),v)] ∧
      (Every (fun _ _ t => Architectural t) bootReserved [((),t),((),u),((),v)] ↔
        Every (fun s _ _ => ¬ReservedReturn s) bootReserved [((),t),((),u),((),v)]) := by
  obtain ⟨t,u,v,run,_⟩ := bootReserved_steps
  exact ⟨t, u, v, run, @machineRun_architectural _ _ clearingPlatform (bootMachine_reset _) run⟩

/-- Three instructions after its reset, the hart runs in the reserved mode. -/
theorem bootReserved_leaves :
    AtReset bootReserved ∧ ∃ steps, @MachineRun clearingPlatform bootReserved steps ∧
      ¬Every (fun _ _ t => Architectural t) bootReserved steps := by
  obtain ⟨t,u,v,run,reserved⟩ := bootReserved_steps
  refine ⟨bootMachine_reset _, _, run, ?_⟩
  rintro ⟨_,_,architectural,_⟩
  exact architectural.not_reserved reserved

end Emuriscv
