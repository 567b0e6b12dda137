import Emuriscv.CsrAccess
import Emuriscv.IntegerStep
import Emuriscv.InstructionFields

/-! The CSR instructions in M mode against the architecture, which exchanges a CSR and a register
at one instant. -/
namespace Emuriscv

/-- What the architecture leaves in a CSR. -/
def CsrOp.exchanged : CsrOp → Word → Word → Word
  | .csrrw, _, operand | .csrrwi, _, operand => operand
  | .csrrs, old, operand | .csrrsi, old, operand => old ||| operand
  | .csrrc, old, operand | .csrrci, old, operand => old &&& ~~~operand

/-- The second operand: a register as it was, or five bits of the word. -/
def CsrOp.operand (op : CsrOp) (x : RegisterIndex → Word) (word : Word) : Word :=
  match op with
  | .csrrw | .csrrs | .csrrc => x (Rv32i.rs1 word)
  | .csrrwi | .csrrsi | .csrrci => (word.extractLsb' 15 5).setWidth 32

/-- The step completes with this value in the CSR and these registers; nothing else changes but
the counters and the history of `pc`. -/
structure Exchanges (s t : State) (number : CsrNumber) (value : Word) (x : RegisterIndex → Word) :
    Prop where
  registers : t.x = x
  pc : t.pc = s.pc + 4
  csr : UpToCounters { s with csr := Function.update s.csr number value } t
  rest : t = { s with
    pc := t.pc
    x := t.x
    csr := t.csr
    pcHistory := t.pcHistory
    instructionCounter := t.instructionCounter }

/-- The step has the effect that the architecture gives the instruction. -/
def StepExchanges [Platform] (op : CsrOp) (s : State) (word : Word) : Prop :=
  let number : CsrNumber := word.extractLsb' 20 12
  let old := readCsr s number
  ∃ t, emulateOp s = .ok t ∧ Exchanges s t number (op.exchanged old (op.operand s.x word))
    (Rv32i.write s.x (Rv32i.rd word) old)

theorem execute_csr [Platform] {op : Op} (s : State) (instruction : WordPtr)
    (number : op.csrOp = some csrOp) : execute op s instruction = .ok (csrOp.handler s instruction) := by
  cases op <;> simp only [Op.csrOp,Option.some.injEq,reduceCtorEq] at number
  all_goals
    subst number
    rfl

/-- A handler as one update of the registers and of the CSR. -/
theorem csrHandler_eq (op : CsrOp) (s : State) (instruction : WordPtr) :
    op.handler s instruction = { s with
      x := writeX s.x (getRd (deref s instruction)) (readCsr s (csrNumber s instruction))
      csr := Function.update s.csr (csrNumber s instruction) (csrWritten op s instruction) } := by
  rw [csrHandler_rest,csrHandler_x,csrHandler_csr]

theorem finishOp_exchanges {s : State} (noException : s.hasPendingException = false)
    (number : CsrNumber) (value : Word) (x : RegisterIndex → Word) :
    Exchanges s (finishOp { s with
      pc := s.pc + 4
      x := x
      csr := Function.update s.csr number value }) number value x := by
  have quiet : ({ s with
      pc := s.pc + 4
      x := x
      csr := Function.update s.csr number value } : State).hasPendingException = false := noException
  rw [finishOp_quiet quiet]
  exact ⟨rfl, rfl, retire_counters _, rfl⟩

section Step

variable [Platform] {s : State} {op : Op} {csrOp : CsrOp} {p : WordPtr}

/-- The handlers differ from the architecture in what they leave in the CSR, and in nothing else. -/
theorem stepExchanges_written (machine : s.privilege = privM)
    (noException : s.hasPendingException = false) (located : wordLocation s.memoryMap s.pc = some p)
    (decoded : decode (deref s p) = some op) (given : op.csrOp = some csrOp)
    (time : csrNumber s p ≠ csrTime) (cycle : csrNumber s p ≠ csrCycle) :
    StepExchanges csrOp s (deref s p) ↔ csrWritten csrOp s p =
      csrOp.exchanged (readCsr s (csrNumber s p)) (csrOp.operand s.x (deref s p)) := by
  have direct : ¬Walks s := fun walks => walks.1 machine
  have fetched := fetches_direct direct located decoded
  have stepped := emulateOp_executed fetched (execute_csr _ p given)
  have field : (deref s p).extractLsb' 20 12 = csrNumber s p := (csrField_eq _).symm
  rw [csrHandler_eq,writeX_eq,getRd_eq] at stepped
  have actual := finishOp_exchanges noException (csrNumber s p)
    (csrWritten csrOp { s with pc := s.pc + 4 } p)
    (Rv32i.write s.x (Rv32i.rd (deref s p)) (readCsr s (csrNumber s p)))
  have moved : csrWritten csrOp { s with pc := s.pc + 4 } p = csrWritten csrOp s p := by
    cases csrOp <;> rfl
  simp only [StepExchanges,field]
  constructor
  · rintro ⟨t,ran,exchange⟩
    rw [stepped] at ran
    obtain rfl := Except.ok.inj ran
    have both := (actual.csr _ time cycle).symm.trans (exchange.csr _ time cycle)
    simpa only [readCsr,Function.update_self,moved] using both
  · intro same
    rw [moved,same] at actual
    rw [moved,same] at stepped
    exact ⟨_, stepped, actual⟩

end Step

/-- The three instructions with a source register. -/
def CsrOp.Register (op : CsrOp) : Prop := op = .csrrw ∨ op = .csrrs ∨ op = .csrrc

/-- When `rd` is the source register, the CSR already has the bits to set, or has no others than
those to clear. -/
def SourceKept (op : CsrOp) (s : State) (word : Word) : Prop :=
  let old := readCsr s (word.extractLsb' 20 12)
  let operand := s.x (Rv32i.rs1 word)
  Rv32i.rd word = Rv32i.rs1 word → Rv32i.rd word ≠ 0 →
    (op = .csrrs → operand &&& ~~~old = 0) ∧ (op = .csrrc → old &&& ~~~operand = 0)

theorem and_not_eq_iff (a b : Word) : a &&& ~~~b = b ↔ b = 0 ∧ a = 0 := by
  constructor
  · intro same
    have zero : b = 0 := by
      apply BitVec.eq_of_getLsbD_eq
      intro i bound
      have bit := congrArg (BitVec.getLsbD · i) same
      cases set : b.getLsbD i <;> simp [set] at bit ⊢
    subst zero
    refine ⟨rfl,?_⟩
    simpa only [BitVec.ofNat_eq_ofNat,BitVec.not_zero,BitVec.and_allOnes] using same
  · rintro ⟨rfl,rfl⟩
    rfl

theorem eq_or_iff (a b : Word) : a = a ||| b ↔ b &&& ~~~a = 0 := by
  have under := BitField.or_and_eq_iff a b (BitVec.allOnes 32)
  simp only [BitVec.and_allOnes] at under
  exact eq_comm.trans under

/-- `csrrs` and `csrrc` write `rd` before they read their source. -/
theorem csrOperand_aliased (op : CsrOp) (s : State) (p : WordPtr) (late : op = .csrrs ∨ op = .csrrc) :
    csrOperand op s p =
      if Rv32i.rd (deref s p) = Rv32i.rs1 (deref s p) ∧ Rv32i.rd (deref s p) ≠ 0
      then readCsr s (csrNumber s p) else s.x (Rv32i.rs1 (deref s p)) := by
  have given : csrOperand op s p = Rv32i.write s.x (Rv32i.rd (deref s p))
      (readCsr s (csrNumber s p)) (Rv32i.rs1 (deref s p)) := by
    rw [← writeX_eq,← getRd_eq,← getRs1_eq]
    rcases late with rfl | rfl <;> rfl
  rw [given,Rv32i.write]
  by_cases same : Rv32i.rs1 (deref s p) = Rv32i.rd (deref s p)
  · simp [same]
  · simp [same,Ne.symm same]

theorem written_register_iff (op : CsrOp) (s : State) (p : WordPtr) (register : op.Register) :
    csrWritten op s p = op.exchanged (readCsr s (csrNumber s p)) (op.operand s.x (deref s p)) ↔
      SourceKept op s (deref s p) := by
  have field : (deref s p).extractLsb' 20 12 = csrNumber s p := (csrField_eq _).symm
  rw [SourceKept,field]
  rcases register with rfl | rfl | rfl
  · have source : getRs1Value s p = s.x (Rv32i.rs1 (deref s p)) := by rw [getRs1Value,getReg,getRs1_eq]
    simp [csrWritten,csrOperand,CsrOp.exchanged,CsrOp.operand,source]
  · have operand := csrOperand_aliased .csrrs s p (Or.inl rfl)
    simp only [csrWritten,CsrOp.exchanged,CsrOp.operand,operand,reduceCtorEq,false_implies,and_true,
      true_implies]
    split
    next both =>
      rw [BitVec.or_self,eq_or_iff]
      exact ⟨fun kept _ _ => kept, fun kept => kept both.1 both.2⟩
    next apart => exact iff_of_true rfl fun same other => absurd ⟨same,other⟩ apart
  · have operand := csrOperand_aliased .csrrc s p (Or.inr rfl)
    simp only [csrWritten,CsrOp.exchanged,CsrOp.operand,operand,reduceCtorEq,false_implies,true_and,
      true_implies]
    split
    next both =>
      rw [BitVec.and_not_self,eq_comm]
      exact ⟨fun kept _ _ => kept, fun kept => kept both.1 both.2⟩
    next apart => exact iff_of_true rfl fun same other => absurd ⟨same,other⟩ apart

section Law

variable [Platform] {s : State} {op : Op} {csrOp : CsrOp} {p : WordPtr}

/-- A register form has the effect of the architecture if and only if its source is kept. -/
theorem registerExchange_iff (machine : s.privilege = privM)
    (noException : s.hasPendingException = false) (located : wordLocation s.memoryMap s.pc = some p)
    (decoded : decode (deref s p) = some op) (given : op.csrOp = some csrOp)
    (time : csrNumber s p ≠ csrTime) (cycle : csrNumber s p ≠ csrCycle) (register : csrOp.Register) :
    StepExchanges csrOp s (deref s p) ↔ SourceKept csrOp s (deref s p) := by
  rw [stepExchanges_written machine noException located decoded given time cycle]
  exact written_register_iff csrOp s p register

end Law

/-- A machine at the start of its RAM in M mode, with the instruction there and a value in `x5`. -/
def csrMachine (word value : Word) : State :=
  { guest privM [word] with
    pc := 0x80000000
    x := fun r => if r = 5 then value else 0 }

theorem csrMachine_located (word value : Word) :
    wordLocation (csrMachine word value).memoryMap (csrMachine word value).pc = some ⟨0,0⟩ := by
  have start : wordLocation (guest privM []).memoryMap 0x80000000 = some ⟨0,0⟩ := by decide
  exact start

/-- `csrrw x5, mscratch, x5`. -/
theorem registerExchange_csrrw :
    @StepExchanges clearingPlatform .csrrw (csrMachine 0x340292f3 7)
      (deref (csrMachine 0x340292f3 7) ⟨0,0⟩) := by
  refine (@registerExchange_iff clearingPlatform (csrMachine 0x340292f3 7) .csrrw .csrrw ⟨0,0⟩ rfl rfl
    (csrMachine_located ..) (by decide) rfl (by decide) (by decide) (Or.inl rfl)).mpr ?_
  rintro _ _
  simp

/-- `csrrs x5, mscratch, x5` sets no bit. -/
theorem csrrs_loses_operand : (csrMachine 0x3402a2f3 7).privilege = privM ∧
    decode (deref (csrMachine 0x3402a2f3 7) ⟨0,0⟩) = some .csrrs ∧
    ¬@StepExchanges clearingPlatform .csrrs (csrMachine 0x3402a2f3 7)
      (deref (csrMachine 0x3402a2f3 7) ⟨0,0⟩) := by
  have decoded : decode (deref (csrMachine 0x3402a2f3 7) ⟨0,0⟩) = some .csrrs := by decide
  refine ⟨rfl,decoded,?_⟩
  rw [@stepExchanges_written clearingPlatform _ _ _ _ rfl rfl (csrMachine_located ..) decoded rfl
    (by decide) (by decide)]
  decide

/-- The three instructions with an immediate. -/
def CsrOp.Immediate (op : CsrOp) : Prop := op = .csrrwi ∨ op = .csrrsi ∨ op = .csrrci

/-- `csrrwi` clears bits where the architecture writes: no value but zero is written right, and
zero only where it stands already. -/
theorem written_immediate_iff (op : CsrOp) (s : State) (p : WordPtr) (immediate : op.Immediate) :
    csrWritten op s p = op.exchanged (readCsr s (csrNumber s p)) (op.operand s.x (deref s p)) ↔
      (op = .csrrwi → op.operand s.x (deref s p) = 0 ∧ readCsr s (csrNumber s p) = 0) := by
  have field : getCsrImm (deref s p) = ((deref s p).extractLsb' 15 5).setWidth 32 := getCsrImm_eq _
  rcases immediate with rfl | rfl | rfl
  · simp only [csrWritten,csrOperand,CsrOp.exchanged,CsrOp.operand,field,true_implies]
    exact and_not_eq_iff ..
  · simp [csrWritten,csrOperand,CsrOp.exchanged,CsrOp.operand,field]
  · simp [csrWritten,csrOperand,CsrOp.exchanged,CsrOp.operand,field]

/-- An immediate form has the effect of the architecture's register form on the immediate, unless
it is a `csrrwi` that has anything to write. -/
theorem immediateExchange_iff [Platform] {s : State} (machine : s.privilege = privM)
    (noException : s.hasPendingException = false) (located : wordLocation s.memoryMap s.pc = some p)
    (decoded : decode (deref s p) = some op) (given : op.csrOp = some csrOp)
    (time : csrNumber s p ≠ csrTime) (cycle : csrNumber s p ≠ csrCycle)
    (immediate : csrOp.Immediate) :
    StepExchanges csrOp s (deref s p) ↔ (csrOp = .csrrwi →
      csrOp.operand s.x (deref s p) = 0 ∧ readCsr s (csrNumber s p) = 0) := by
  rw [stepExchanges_written machine noException located decoded given time cycle]
  exact written_immediate_iff csrOp s p immediate

/-- `csrrsi x5, mscratch, 9`. -/
theorem immediateExchange_csrrsi :
    @StepExchanges clearingPlatform .csrrsi (csrMachine 0x3404e2f3 7)
      (deref (csrMachine 0x3404e2f3 7) ⟨0,0⟩) :=
  (@immediateExchange_iff ⟨0,0⟩ .csrrsi .csrrsi clearingPlatform (csrMachine 0x3404e2f3 7) rfl rfl
    (csrMachine_located ..) (by decide) rfl (by decide) (by decide) (Or.inr (Or.inl rfl))).mpr nofun

/-- `csrrwi x5, mscratch, 9` leaves zero. -/
theorem csrrwi_clears : (csrMachine 0x3404d2f3 7).privilege = privM ∧
    decode (deref (csrMachine 0x3404d2f3 7) ⟨0,0⟩) = some .csrrwi ∧
    ¬@StepExchanges clearingPlatform .csrrwi (csrMachine 0x3404d2f3 7)
      (deref (csrMachine 0x3404d2f3 7) ⟨0,0⟩) := by
  have decoded : decode (deref (csrMachine 0x3404d2f3 7) ⟨0,0⟩) = some .csrrwi := by decide
  refine ⟨rfl,decoded,?_⟩
  rw [@stepExchanges_written clearingPlatform _ _ _ _ rfl rfl (csrMachine_located ..) decoded rfl
    (by decide) (by decide)]
  decide

end Emuriscv
