import Emuriscv.Reset

/-! Who may access a CSR. The number of a CSR encodes the lowest privilege that may access it
and whether it may be written; the handlers of the CSR instructions look at neither. -/
namespace Emuriscv

open LabelledRun

/-- Bits 9 and 8 of the number: the lowest privilege with access. -/
def csrPrivilege (number : CsrNumber) : Word := (number.extractLsb' 8 2).setWidth 32

/-- Bits 11 and 10 of the number are 3. -/
def CsrReadOnly (number : CsrNumber) : Prop := number.extractLsb' 10 2 = 3

instance (number : CsrNumber) : Decidable (CsrReadOnly number) := inferInstanceAs (Decidable (_ = _))

def Changes (op : CsrOp) (s : State) (instruction : WordPtr) (number : CsrNumber) : Prop :=
  readCsr (op.handler s instruction) number ≠ readCsr s number

/-- The registers after the instruction depend on the CSR. -/
def Reveals (op : CsrOp) (s : State) (instruction : WordPtr) (number : CsrNumber) : Prop :=
  ∃ value, (op.handler (writeCsr s number value) instruction).x ≠ (op.handler s instruction).x

/-- The access control of the architecture, for one instruction and one CSR. -/
def AccessControlled (op : CsrOp) (s : State) (instruction : WordPtr) (number : CsrNumber) : Prop :=
  (Changes op s instruction number ∨ Reveals op s instruction number →
    (csrPrivilege number).sle s.privilege = true) ∧
  (CsrReadOnly number → ¬Changes op s instruction number)

theorem csrHandler_x (op : CsrOp) (s : State) (instruction : WordPtr) :
    (op.handler s instruction).x =
      writeX s.x (getRd (deref s instruction)) (readCsr s (csrNumber s instruction)) := by
  cases op with
  | csrrs => simp only [CsrOp.handler,Handler.csrrs,setRdValue_eq]; rfl
  | csrrw =>
    simp only [CsrOp.handler,Handler.csrrw]
    split
    next => rw [setRdValue_eq]; rfl
    next zero =>
      have target : getRd (deref s instruction) = 0 := not_not.mp zero
      rw [writeX,if_pos target]
      rfl
  | csrrc => simp only [CsrOp.handler,Handler.csrrc,readCsrToRd_eq]; rfl
  | csrrsi =>
    simp only [CsrOp.handler,Handler.csrrsi,setRdValue_eq]
    split <;> rfl
  | csrrwi => simp only [CsrOp.handler,Handler.csrrwi,readCsrToRd_eq]; rfl
  | csrrci =>
    simp only [CsrOp.handler,Handler.csrrci,readCsrToRd_eq]
    split <;> rfl

/-- A CSR changes exactly when it is addressed and given a new value. -/
theorem changes_iff (op : CsrOp) (s : State) (instruction : WordPtr) (number : CsrNumber) :
    Changes op s instruction number ↔
      csrNumber s instruction = number ∧ csrWritten op s instruction ≠ readCsr s number := by
  rw [Changes,readCsr,csrHandler_csr,Function.update_apply]
  by_cases addressed : number = csrNumber s instruction
  · rw [if_pos addressed]
    exact ⟨fun differs => ⟨addressed.symm,differs⟩, And.right⟩
  · rw [if_neg addressed]
    exact ⟨fun differs => absurd rfl differs, fun both => absurd both.1.symm addressed⟩

/-- A CSR is revealed exactly when it is addressed and there is a register to receive it. -/
theorem reveals_iff (op : CsrOp) (s : State) (instruction : WordPtr) (number : CsrNumber) :
    Reveals op s instruction number ↔
      csrNumber s instruction = number ∧ getRd (deref s instruction) ≠ 0 := by
  have received (value : Word) : (op.handler (writeCsr s number value) instruction).x =
      writeX s.x (getRd (deref s instruction))
        (readCsr (writeCsr s number value) (csrNumber s instruction)) := csrHandler_x ..
  simp only [Reveals,received,csrHandler_x,ne_eq,writeX_eq_iff,not_or,exists_and_left]
  rw [and_comm]
  refine and_congr_left fun _ => ?_
  constructor
  · rintro ⟨value,differs⟩
    by_contra other
    exact differs (writeCsr_other s number _ value other)
  · rintro rfl
    refine ⟨readCsr s (csrNumber s instruction) + 1, fun same => ?_⟩
    rw [readCsr,writeCsr_same] at same
    exact absurd same (by simp)

/-- The CSRs that confine user mode. -/
def confiningCsrs : List CsrNumber := [csrSatp,csrMedeleg,csrStvec,csrMtvec,csrMstatus]

/-- The step executes a CSR instruction on this number. -/
def Addresses (s : State) (number : CsrNumber) : Prop :=
  ∃ f instruction op csrOp, Fetches s f instruction op ∧ op.csrOp = some csrOp ∧
    csrNumber f instruction = number

theorem logs_of_same {s t : State} (same : t.traps = s.traps) : s.traps <:+ t.traps :=
  ⟨[],same.symm⟩

/-- A call adds its trap to the log. -/
theorem ecall_traps {f : State} (called : ecall f = .ok t) : ∃ trap, t.traps = trap :: f.traps := by
  obtain ⟨g,traced,rest⟩ := bind_eq_ok.mp called
  have traps : g.traps = f.traps := by rw [traceEcall_traced traced]
  have taken : (raiseEcall g).traps = ⟨g.pc, ecallCause g, g.pendingTval⟩ :: g.traps :=
    raiseException_traps ..
  rw [← Except.ok.inj rest,taken,traps]
  exact ⟨_,rfl⟩

/-- Traps are only ever added to the log. -/
theorem Executed.logs {f : State} (ran : Executed f instruction op t) : f.traps <:+ t.traps := by
  cases ran with
  | framed frame =>
    apply logs_of_same
    rw [frame.rest]
  | csr found =>
    apply logs_of_same
    rw [csrHandler_rest]
  | mret returned =>
    apply logs_of_same
    rw [(mret_ok returned).2]
    rfl
  | sret returned =>
    apply logs_of_same
    rw [(sret_ok returned).2]
    rfl
  | ecall called =>
    obtain ⟨trap,traps⟩ := ecall_traps called
    rw [traps]
    exact List.suffix_cons ..
  | faulted accesses faults => exact logs_of_same rfl

theorem finishOp_logs (t : State) : t.traps <:+ (finishOp t).traps := by
  cases pending : t.hasPendingException with
  | false =>
    apply logs_of_same
    rw [finishOp_quiet pending]
    rfl
  | true =>
    rw [finishOp_pending pending]
    have once := raiseException_traps (dispatched t) t.pendingException t.pendingTval
    exact ⟨[_],once.symm⟩

/-- A log that is longer in the middle is longer at the end. -/
theorem logs_differ {first middle last : List Trap} (grows : first.length < middle.length)
    (logs : middle <:+ last) : last ≠ first := by
  rintro rfl
  exact absurd logs.length_le (Nat.not_le.mpr grows)

theorem finishOp_raises {t : State} (pending : t.hasPendingException = true) :
    t.traps.length < (finishOp t).traps.length := by
  rw [finishOp_pending pending]
  have once := raiseException_traps (dispatched t) t.pendingException t.pendingTval
  exact Nat.lt_of_lt_of_eq (Nat.lt_succ_self _) (congrArg List.length once).symm

theorem confining_apart : ∀ number ∈ confiningCsrs,
    number ≠ csrMip ∧ number ≠ csrTime ∧ number ≠ csrCycle := by
  simp [confiningCsrs,csrSatp,csrMedeleg,csrStvec,csrMtvec,csrMstatus,csrMip,csrTime,csrCycle]

/-- In U mode, no handler but that of a CSR instruction moves a confining CSR without a trap. -/
theorem Executed.confines {f : State} (ran : Executed f instruction op t) (user : f.privilege = privU)
    (member : number ∈ confiningCsrs) :
    readCsr t number = readCsr f number ∨ f.traps.length < t.traps.length ∨
      ∃ csrOp, op.csrOp = some csrOp ∧ csrNumber f instruction = number := by
  cases ran with
  | framed frame => exact Or.inl (frame.csr number (confining_apart number member).1)
  | csr found =>
    by_cases addressed : csrNumber f instruction = number
    · exact Or.inr (Or.inr ⟨_,found,addressed⟩)
    · refine Or.inl ?_
      rw [readCsr,csrHandler_csr]
      exact Function.update_of_ne (Ne.symm addressed) ..
  | mret returned =>
    have machine := (mret_ok returned).1
    rw [user] at machine
    contradiction
  | sret returned =>
    have mode := (sret_ok returned).1
    rw [user,sretPrivilege] at mode
    split at mode <;> contradiction
  | ecall called =>
    obtain ⟨trap,traps⟩ := ecall_traps called
    rw [traps]
    exact Or.inr (Or.inl (Nat.lt_succ_self _))
  | faulted accesses faults => exact Or.inl rfl

/-- The step lemma: a step in U mode moves a confining CSR by a trap, or by a CSR instruction
that names it. -/
theorem emulateOp_confines [Platform] (user : s.privilege = privU) (step : emulateOp s = .ok t)
    (member : number ∈ confiningCsrs) :
    readCsr t number = readCsr s number ∨ t.traps ≠ s.traps ∨ Addresses s number := by
  obtain ⟨_,time,cycle⟩ := confining_apart number member
  cases emulateOp_cases step with
  | fetchFault faults =>
    refine Or.inr (Or.inl ?_)
    rw [raiseException_traps]
    exact List.cons_ne_self _ _
  | unmapped translated assigned outside =>
    refine Or.inr (Or.inl ?_)
    rw [raiseException_traps,translateAddress_ramOnly translated]
    exact List.cons_ne_self _ _
  | @executed f instruction op t fetched ran =>
    have mid := fetched.midStep
    have ran := execute_cases ran
    rw [← mid.traps,← mid.readCsr]
    cases pending : t.hasPendingException with
    | true =>
      exact Or.inr (Or.inl (logs_differ (Nat.lt_of_le_of_lt ran.logs.length_le (finishOp_raises pending))
        (List.suffix_refl _)))
    | false =>
      rcases ran.confines (mid.privilege.trans user) member with kept | trapped | ⟨csrOp,found,named⟩
      · rw [finishOp_quiet pending]
        exact Or.inl ((retire_csr (dispatched t) time cycle).trans kept)
      · exact Or.inr (Or.inl (logs_differ trapped (finishOp_logs t)))
      · exact Or.inr (Or.inr ⟨f,instruction,op,csrOp,fetched,found,named⟩)

/-- There is no access control: what a CSR instruction changes and reveals depends on its
number and operands alone, and a run in U mode moves the confining CSRs by traps and by CSR
instructions that name them. -/
theorem csrAccess_unchecked [Platform] (s : State) :
    (∀ f instruction op csrOp, Fetches s f instruction op → op.csrOp = some csrOp →
      emulateOp s = .ok (finishOp (csrOp.handler f instruction))) ∧
    (∀ op instruction number,
      (Changes op s instruction number ↔ csrNumber s instruction = number ∧
        csrWritten op s instruction ≠ readCsr s number) ∧
      (Reveals op s instruction number ↔ csrNumber s instruction = number ∧
        getRd (deref s instruction) ≠ 0)) ∧
    ∀ steps, MachineRun s steps → Every (fun s _ _ => s.privilege = privU) s steps →
      Every (fun s _ t => ∀ number ∈ confiningCsrs, readCsr t number = readCsr s number ∨
        t.traps ≠ s.traps ∨ Addresses s number) s steps := by
  refine ⟨?_, fun op instruction number =>
    ⟨changes_iff op s instruction number, reveals_iff op s instruction number⟩, ?_⟩
  · intro f instruction op csrOp fetched found
    refine emulateOp_executed fetched ?_
    cases op <;> simp only [Op.csrOp,Option.some.injEq,reduceCtorEq] at found
    all_goals
      subst found
      rfl
  · intro steps run user
    exact run.mono user fun s _ t step mode number member => emulateOp_confines mode step member

/-- `csrrw x5, satp, x1` in U mode. -/
def rewriteSatp : State :=
  { guest privU [superpageEntry,0x180092f3] with
    pc := 4
    x := fun index => if index = 1 then 0x80080001 else 0 }

/-- The state after its fetch. -/
def satpFetched : State :=
  { markEntry rewriteSatp 0x80000000 superpageEntry .fetch with
    pc := (markEntry rewriteSatp 0x80000000 superpageEntry .fetch).pc + 4 }

theorem rewriteSatp_fetches : Fetches rewriteSatp satpFetched ⟨0,4⟩ .csrrw := by
  have paged : Paged rewriteSatp := ⟨Or.inr rfl, by decide⟩
  have leaf : busWalk rewriteSatp rewriteSatp.pc = .leaf 1 0x80000000 superpageEntry := by decide
  exact fetches_of_leaf paged leaf (by decide) (by decide)

/-- A user program gives itself other page tables. -/
theorem rewriteSatp_unchecked :
    rewriteSatp.privilege = privU ∧ ¬AccessControlled .csrrw satpFetched ⟨0,4⟩ csrSatp ∧
      ∃ t, @emulateOp clearingPlatform rewriteSatp = .ok t ∧ t.traps = rewriteSatp.traps ∧
        readCsr t csrSatp ≠ readCsr rewriteSatp csrSatp := by
  refine ⟨rfl, ?_, ?_⟩
  · rintro ⟨allowed,_⟩
    have changed : Changes .csrrw satpFetched ⟨0,4⟩ csrSatp := by
      rw [changes_iff]
      decide
    have permitted := allowed (Or.inl changed)
    revert permitted
    decide
  · let _ : Platform := clearingPlatform
    exact ⟨_, emulateOp_executed rewriteSatp_fetches rfl, by decide, by decide⟩

end Emuriscv
