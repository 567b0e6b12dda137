import Emuriscv.TrapStep
import Emuriscv.Fields

/-! The integer instructions on an untranslated machine: one step has the effect that RV32I
gives the instruction, and no other. Handlers see `pc` already moved on, so those that read
it take the length of the instruction off again. -/
namespace Emuriscv

def Op.computation : Op → Option Rv32i.Computation
  | .add => some (.register .add)
  | .sub => some (.register .sub)
  | .and => some (.register .and)
  | .or => some (.register .or)
  | .xor => some (.register .xor)
  | .sll => some (.register .sll)
  | .srl => some (.register .srl)
  | .sra => some (.register .sra)
  | .slt => some (.register .slt)
  | .sltu => some (.register .sltu)
  | .addi => some (.immediate .add)
  | .andi => some (.immediate .and)
  | .ori => some (.immediate .or)
  | .xori => some (.immediate .xor)
  | .slti => some (.immediate .slt)
  | .sltiu => some (.immediate .sltu)
  | .lui => some .lui
  | _ => none

def Op.transfer : Op → Option Rv32i.Transfer
  | .beq => some (.branch .eq)
  | .bne => some (.branch .ne)
  | .blt => some (.branch .lt)
  | .bge => some (.branch .ge)
  | .bltu => some (.branch .ltu)
  | .bgeu => some (.branch .geu)
  | .jal => some .jal
  | .auipc => some .auipc
  | _ => none

/-- The step completes with these registers and this `pc`; nothing else changes but the
counters and the history of `pc`. -/
structure Retires (s t : State) (x : RegisterIndex → Word) (pc : Word) : Prop where
  registers : t.x = x
  pc : t.pc = pc
  csr : UpToCounters s t
  rest : t = { s with
    pc := t.pc
    x := t.x
    csr := t.csr
    pcHistory := t.pcHistory
    instructionCounter := t.instructionCounter }

theorem writeX_eq (x : RegisterIndex → Word) (index : RegisterIndex) (value : Word) :
    writeX x index value = Rv32i.write x index value := by
  funext r
  unfold writeX Rv32i.write
  by_cases zero : index = 0
  · have never : ¬(r = index ∧ r ≠ 0) := fun both => both.2 (both.1.trans zero)
    rw [if_pos zero,if_neg never]
  · rw [if_neg zero,Function.update_apply]
    by_cases same : r = index
    · rw [if_pos same,if_pos ⟨same, fun none => zero (same.symm.trans none)⟩]
    · rw [if_neg same,if_neg fun both => same both.1]

theorem registerOp_eq (s : State) (instruction : WordPtr) (op : Word → Word → Word)
    (arith : Rv32i.Arith) (meaning : ∀ a b, op a b = arith.eval a b) :
    Handler.registerOp op s instruction = setRdValue s instruction
      ((Rv32i.Computation.register arith).result s.x (deref s instruction)) := by
  rw [Handler.registerOp,meaning,getRs1Value,getRs2Value,getReg,getReg,getRs1_eq,getRs2_eq]
  rfl

theorem immediateOp_eq (s : State) (instruction : WordPtr) (imm : Word → Word)
    (op : Word → Word → Word) (arith : Rv32i.Arith) (field : ∀ word, imm word = Rv32i.iImm word)
    (meaning : ∀ a b, op a b = arith.eval a b) :
    Handler.immediateOp imm op s instruction = setRdValue s instruction
      ((Rv32i.Computation.immediate arith).result s.x (deref s instruction)) := by
  rw [Handler.immediateOp,meaning,field,getRs1Value,getReg,getRs1_eq]
  rfl

theorem shamt_eq (b : Word) : (b &&& Handler.shamtMask).toNat = b.toNat % 32 := by
  rw [BitVec.toNat_and]
  exact Nat.and_two_pow_sub_one_eq_mod _ 5

theorem execute_computation [Platform] {op : Op} (s : State) (instruction : WordPtr)
    (computes : op.computation = some computation) :
    execute op s instruction = .ok (setRdValue s instruction
      (computation.result s.x (deref s instruction))) := by
  cases op <;> simp only [Op.computation,Option.some.injEq,reduceCtorEq] at computes
  all_goals
    subst computes
    refine congrArg Except.ok ?_
  case sll => exact registerOp_eq s instruction _ .sll fun a b => by rw [shamt_eq]; rfl
  case srl => exact registerOp_eq s instruction _ .srl fun a b => by rw [shamt_eq]; rfl
  case sra => exact registerOp_eq s instruction _ .sra fun a b => by rw [shamt_eq]; rfl
  case slt => exact registerOp_eq s instruction _ .slt fun a b => by simp [BitVec.slt,Rv32i.Arith.eval]
  case sltu => exact registerOp_eq s instruction _ .sltu fun _ _ => rfl
  case addi => exact immediateOp_eq s instruction _ _ .add getIImm_eq fun _ _ => rfl
  case andi => exact immediateOp_eq s instruction _ _ .and getIImm_eq fun _ _ => rfl
  case ori => exact immediateOp_eq s instruction _ _ .or instructionIImm_eq fun _ _ => rfl
  case xori => exact immediateOp_eq s instruction _ _ .xor instructionIImm_eq fun _ _ => rfl
  case slti =>
    exact immediateOp_eq s instruction _ _ .slt instructionIImm_eq
      fun a b => by simp [BitVec.slt,Rv32i.Arith.eval]
  case sltiu => exact immediateOp_eq s instruction _ _ .sltu instructionIImm_eq fun _ _ => rfl
  case lui =>
    have value := uData_eq (deref s instruction)
    exact congrArg (setRdValue s instruction) value
  all_goals exact registerOp_eq s instruction _ _ fun _ _ => rfl

theorem branch_eq (s : State) (instruction : WordPtr) (taken : Word → Word → Bool)
    (condition : Rv32i.Condition) (meaning : ∀ a b, taken a b = true ↔ condition.Holds a b) :
    Handler.branch taken s instruction = { s with
      pc := (Rv32i.Transfer.branch condition).target s.x (s.pc - 4) (deref s instruction) } := by
  have back (imm : Word) : s.pc + (imm - instructionLengthBytes) = s.pc - 4 + imm := by
    rw [instructionLengthBytes,BitVec.sub_eq_add_neg,BitVec.sub_eq_add_neg]
    ac_rfl
  simp only [Handler.branch,Rv32i.Transfer.target,meaning,getRs1Value,getRs2Value,getReg,getRs1_eq,
    getRs2_eq,getBImm_eq,back]
  split
  next => rfl
  next => rw [BitVec.sub_add_cancel]

theorem execute_transfer [Platform] {op : Op} (s : State) (instruction : WordPtr)
    (transfers : op.transfer = some transfer) :
    execute op s instruction = .ok { s with
      x := transfer.registers s.x (s.pc - 4) (deref s instruction)
      pc := transfer.target s.x (s.pc - 4) (deref s instruction) } := by
  cases op <;> simp only [Op.transfer,Option.some.injEq,reduceCtorEq] at transfers
  all_goals
    subst transfers
    refine congrArg Except.ok ?_
  case beq => exact branch_eq s instruction _ .eq fun a b => beq_iff_eq
  case bne => exact branch_eq s instruction _ .ne fun a b => bne_iff_ne
  case blt => exact branch_eq s instruction _ .lt fun a b => by simp [BitVec.slt,Rv32i.Condition.Holds]
  case bge => exact branch_eq s instruction _ .ge fun a b => by simp [BitVec.sle,Rv32i.Condition.Holds]
  case bltu => exact branch_eq s instruction _ .ltu fun a b => decide_eq_true_iff
  case bgeu => exact branch_eq s instruction _ .geu fun a b => decide_eq_true_iff
  case jal =>
    have back : s.pc + getJImm (deref s instruction) - instructionLengthBytes =
        s.pc - 4 + Rv32i.jImm (deref s instruction) := by
      rw [getJImm_eq,instructionLengthBytes,BitVec.sub_eq_add_neg,BitVec.sub_eq_add_neg]
      ac_rfl
    rw [Handler.jal,setRdValue_eq,writeX_eq,getRd_eq,back]
    simp only [Rv32i.Transfer.registers,Rv32i.Transfer.target,BitVec.sub_add_cancel]
  case auipc =>
    have sum : instructionUData (deref s instruction) <<< 12 + (s.pc - instructionLengthBytes) =
        s.pc - 4 + Rv32i.uImm (deref s instruction) := by
      rw [uData_eq,instructionLengthBytes,BitVec.add_comm]
    rw [Handler.auipc,setRdValue_eq,writeX_eq,getRd_eq,sum]
    simp only [Rv32i.Transfer.registers,Rv32i.Transfer.target,BitVec.sub_add_cancel]

theorem finishOp_retires {s : State} (noException : s.hasPendingException = false)
    (x : RegisterIndex → Word) (pc : Word) :
    Retires s (finishOp { s with x := x, pc := pc }) x pc := by
  have quiet : ({ s with x := x, pc := pc } : State).hasPendingException = false := noException
  rw [finishOp_quiet quiet]
  exact ⟨rfl, rfl, retire_counters _, rfl⟩

section Step

variable [Platform] {s : State}

theorem emulateOp_computation (direct : ¬Walks s) (noException : s.hasPendingException = false)
    (located : wordLocation s.memoryMap s.pc = some p) (decoded : decode (deref s p) = some op)
    (computes : op.computation = some computation) :
    ∃ t, emulateOp s = .ok t ∧
      Retires s t (Rv32i.write s.x (Rv32i.rd (deref s p)) (computation.result s.x (deref s p)))
        (s.pc + 4) := by
  have fetched := fetches_direct direct located decoded
  have stepped := emulateOp_executed fetched (execute_computation _ p computes)
  rw [setRdValue_eq,writeX_eq,getRd_eq] at stepped
  exact ⟨_, stepped, finishOp_retires noException _ _⟩

/-- `sltiu x5, x5, -1` in M mode. -/
def compareMachine : State :=
  { guest privM [0xfff2b293] with pc := 0x80000000 }

omit [Platform] in
theorem emulateOp_computation_compareMachine :
    ∃ t, @emulateOp clearingPlatform compareMachine = .ok t ∧
      Retires compareMachine t (Rv32i.write compareMachine.x (Rv32i.rd 0xfff2b293)
        ((Rv32i.Computation.immediate .sltu).result compareMachine.x 0xfff2b293)) 0x80000004 := by
  let _ : Platform := clearingPlatform
  have direct : ¬Walks compareMachine := fun walks => walks.1 rfl
  have located : wordLocation compareMachine.memoryMap compareMachine.pc = some ⟨0,0⟩ := by decide
  have decoded : decode (deref compareMachine ⟨0,0⟩) = some .sltiu := by decide
  have word : deref compareMachine ⟨0,0⟩ = 0xfff2b293 := by decide
  rw [← word]
  exact emulateOp_computation direct rfl located decoded rfl

theorem emulateOp_transfer (direct : ¬Walks s) (noException : s.hasPendingException = false)
    (located : wordLocation s.memoryMap s.pc = some p) (decoded : decode (deref s p) = some op)
    (transfers : op.transfer = some transfer) :
    ∃ t, emulateOp s = .ok t ∧
      Retires s t (transfer.registers s.x s.pc (deref s p)) (transfer.target s.x s.pc (deref s p)) := by
  have fetched := fetches_direct direct located decoded
  have stepped := emulateOp_executed fetched (execute_transfer _ p transfers)
  have pc : s.pc + 4 - 4 = s.pc := BitVec.add_sub_cancel ..
  dsimp only at stepped
  rw [pc] at stepped
  exact ⟨_, stepped, finishOp_retires noException _ _⟩

end Step

/-- `beq x0, x0, -4` at the start of RAM. -/
def loopMachine : State :=
  { guest privM [0xfe000ee3] with pc := 0x80000000 }

theorem emulateOp_transfer_loopMachine :
    ∃ t, @emulateOp clearingPlatform loopMachine = .ok t ∧
      Retires loopMachine t loopMachine.x 0x7ffffffc := by
  let _ : Platform := clearingPlatform
  have direct : ¬Walks loopMachine := fun walks => walks.1 rfl
  have located : wordLocation loopMachine.memoryMap loopMachine.pc = some ⟨0,0⟩ := by decide
  have decoded : decode (deref loopMachine ⟨0,0⟩) = some .beq := by decide
  exact emulateOp_transfer direct rfl located decoded rfl

inductive Shift where
  | left
  | logical
  | arithmetic
  deriving DecidableEq, Repr

def Shift.immediate : Shift → Op
  | .left => .slli
  | .logical => .srli
  | .arithmetic => .srai

def Shift.register : Shift → Op
  | .left => .sll
  | .logical => .srl
  | .arithmetic => .sra

/-- The field of the shift amount. -/
def shiftField (word : Word) : BitVec 5 := word.extractLsb' 20 5

/-- What the handler of an immediate form gives the C operator: the field as a signed `int`. -/
def shiftCount (word : Word) : Int := (instructionIShiftShamt word).toInt

/-- The amounts for which C defines the shift of a word. -/
def DefinedShift (count : Int) : Prop := 0 ≤ count ∧ count < 32

theorem signedField : ∀ field : BitVec 5,
    ((field.signExtend 32 : Word).toNat < 32 ↔ field.toNat < 16) ∧
    (field.toNat < 16 → (field.signExtend 32 : Word).toNat = field.toNat) ∧
    (0 ≤ (field.signExtend 32 : Word).toInt ↔ field.toNat < 16) ∧
    (field.signExtend 32 : Word).toInt < 32 := by decide

theorem definedShift_iff (word : Word) : DefinedShift (shiftCount word) ↔ (shiftField word).toNat < 16 := by
  obtain ⟨_,_,signed,below⟩ := signedField (shiftField word)
  constructor
  · rintro ⟨positive,_⟩
    exact signed.mp positive
  · intro lower
    exact ⟨signed.mpr lower,below⟩

theorem immediateShift_eq (op : Word → Nat → Word) (s : State) (p : WordPtr) :
    Handler.immediateShift op s p = if (shiftField (deref s p)).toNat < 16
      then .ok (setRdValue s p (op (getRs1Value s p) (shiftField (deref s p)).toNat))
      else .error .shiftCount := by
  obtain ⟨range,value,_⟩ := signedField (shiftField (deref s p))
  have field : instructionIShiftShamt (deref s p) = (shiftField (deref s p)).signExtend 32 := rfl
  rw [Handler.immediateShift,field]
  by_cases lower : (shiftField (deref s p)).toNat < 16
  · rw [if_pos (range.mpr lower),if_pos lower,value lower]
    rfl
  · exact (if_neg (mt range.mp lower)).trans (if_neg lower).symm

/-- The immediate form returns with the registers and the `pc` of the register form. -/
def ShiftsAlike [Platform] (shift : Shift) (s s' : State) (p q : WordPtr) : Prop :=
  ∃ t t', execute shift.immediate s p = .ok t ∧ execute shift.register s' q = .ok t' ∧
    t.x = t'.x ∧ t.pc = t'.pc

section Shifts

variable [Platform] {s s' : State} {p q : WordPtr}

/-- An immediate form agrees with the register form that shifts by the same amount, and its
operation is defined, if and only if the sign bit of its field is clear. -/
theorem shiftsAlike_iff (shift : Shift) (x : s'.x = s.x) (pc : s'.pc = s.pc)
    (rd : Rv32i.rd (deref s' q) = Rv32i.rd (deref s p))
    (rs1 : Rv32i.rs1 (deref s' q) = Rv32i.rs1 (deref s p))
    (amount : s'.x (Rv32i.rs2 (deref s' q)) &&& 31 = (shiftField (deref s p)).setWidth 32) :
    ShiftsAlike shift s s' p q ∧ DefinedShift (shiftCount (deref s p)) ↔
      (shiftField (deref s p)).toNat < 16 := by
  rw [definedShift_iff]
  refine ⟨fun both => both.2,fun lower => ⟨?_,lower⟩⟩
  have source : getRs1Value s' q = getRs1Value s p := by
    simp [getRs1Value,getReg,getRs1_eq,rs1,x]
  have count : (getRs2Value s' q &&& Handler.shamtMask).toNat = (shiftField (deref s p)).toNat := by
    have masked : getRs2Value s' q &&& Handler.shamtMask = (shiftField (deref s p)).setWidth 32 := by
      simpa [getRs2Value,getReg,getRs2_eq,Handler.shamtMask] using amount
    rw [masked]
    exact BitVec.toNat_setWidth_of_le (by decide)
  have wrote (value : Word) : (setRdValue s p value).x = (setRdValue s' q value).x ∧
      (setRdValue s p value).pc = (setRdValue s' q value).pc := by
    simp [setRdValue_eq,getRd_eq,rd,x,pc]
  cases shift
  case left =>
    refine ⟨_,_,(immediateShift_eq ..).trans (if_pos lower),rfl,?_⟩
    rw [Handler.sll,Handler.registerOp,source,count]
    exact wrote _
  case logical =>
    refine ⟨_,_,(immediateShift_eq ..).trans (if_pos lower),rfl,?_⟩
    rw [Handler.srl,Handler.registerOp,source,count]
    exact wrote _
  case arithmetic =>
    refine ⟨_,_,(immediateShift_eq ..).trans (if_pos lower),rfl,?_⟩
    rw [Handler.sra,Handler.registerOp,source,count]
    exact wrote _

end Shifts

/-- A machine with one instruction in its RAM, an operand in `x1` and an amount in `x2`. -/
def shiftMachine (word operand amount : Word) : State :=
  { guest privM [word] with
    x := fun r => if r = 1 then operand else if r = 2 then amount else 0 }

/-- `srai x30, x1, 7` and `sra x30, x1, x2`. -/
theorem shiftsAlike_seven :
    @ShiftsAlike clearingPlatform .arithmetic (shiftMachine 0x4070df13 0x80000000 7)
      (shiftMachine 0x4020df33 0x80000000 7) ⟨0,0⟩ ⟨0,0⟩ ∧
      DefinedShift (shiftCount (deref (shiftMachine 0x4070df13 0x80000000 7) ⟨0,0⟩)) :=
  (@shiftsAlike_iff clearingPlatform (shiftMachine 0x4070df13 0x80000000 7)
    (shiftMachine 0x4020df33 0x80000000 7) ⟨0,0⟩ ⟨0,0⟩ .arithmetic rfl rfl (by decide) (by decide)
    (by decide)).mpr (by decide)

/-- `srai x30, x1, 31` shifts by -1. -/
theorem srai_undefined :
    decode (deref (shiftMachine 0x41f0df13 0x80000001 31) ⟨0,0⟩) = some .srai ∧
    shiftField (deref (shiftMachine 0x41f0df13 0x80000001 31) ⟨0,0⟩) = 31 ∧
    shiftCount (deref (shiftMachine 0x41f0df13 0x80000001 31) ⟨0,0⟩) = -1 ∧
    ¬(@ShiftsAlike clearingPlatform .arithmetic (shiftMachine 0x41f0df13 0x80000001 31)
      (shiftMachine 0x4020df33 0x80000001 31) ⟨0,0⟩ ⟨0,0⟩ ∧
      DefinedShift (shiftCount (deref (shiftMachine 0x41f0df13 0x80000001 31) ⟨0,0⟩))) := by
  have count : shiftCount (deref (shiftMachine 0x41f0df13 0x80000001 31) ⟨0,0⟩) = -1 := by decide
  refine ⟨by decide,by decide,count,?_⟩
  rintro ⟨_,positive,_⟩
  rw [count] at positive
  contradiction

theorem execute_jalr [Platform] (s : State) (p : WordPtr) : execute .jalr s p = .ok { s with
    x := Rv32i.write s.x (Rv32i.rd (deref s p)) s.pc
    pc := s.x (Rv32i.rs1 (deref s p)) + Rv32i.iImm (deref s p) } := by
  refine congrArg Except.ok ?_
  rw [Handler.jalr,setRdValue_eq,writeX_eq,getRd_eq,getIImm_eq,getRs1Value,getReg,getRs1_eq]

/-- Where the architecture goes from a `jalr`: to the sum with bit 0 cleared. -/
def StepJumps [Platform] (s : State) (word : Word) : Prop :=
  ∃ t, emulateOp s = .ok t ∧ Retires s t (Rv32i.write s.x (Rv32i.rd word) (s.pc + 4))
    (Rv32i.jalrTarget s.x word)

theorem emulateOp_jalr [Platform] {s : State} (direct : ¬Walks s)
    (noException : s.hasPendingException = false)
    (located : wordLocation s.memoryMap s.pc = some p) (decoded : decode (deref s p) = some .jalr) :
    ∃ t, emulateOp s = .ok t ∧ Retires s t (Rv32i.write s.x (Rv32i.rd (deref s p)) (s.pc + 4))
      (s.x (Rv32i.rs1 (deref s p)) + Rv32i.iImm (deref s p)) := by
  have fetched := fetches_direct direct located decoded
  exact ⟨_,emulateOp_executed fetched (execute_jalr _ p),finishOp_retires noException _ _⟩

theorem clear_low_iff (a : Word) : a &&& ~~~1 = a ↔ a.getLsbD 0 = false := by
  constructor
  · intro same
    rw [← same]
    simp
  · intro even
    have mask : ∀ i < 32, (~~~1 : Word).getLsbD i = decide (i ≠ 0) := by decide
    apply BitVec.eq_of_getLsbD_eq
    intro i bound
    rw [BitVec.getLsbD_and,mask i bound]
    rcases Nat.eq_zero_or_pos i with rfl | high
    · rw [even]
      rfl
    · simp [Nat.ne_of_gt high]

/-- A jump lands where the architecture has it if and only if the sum is even. -/
theorem stepJumps_iff [Platform] {s : State} (direct : ¬Walks s)
    (noException : s.hasPendingException = false)
    (located : wordLocation s.memoryMap s.pc = some p) (decoded : decode (deref s p) = some .jalr) :
    StepJumps s (deref s p) ↔
      (s.x (Rv32i.rs1 (deref s p)) + Rv32i.iImm (deref s p)).getLsbD 0 = false := by
  obtain ⟨t,ran,retires⟩ := emulateOp_jalr direct noException located decoded
  rw [← clear_low_iff]
  constructor
  · rintro ⟨t',ran',retires'⟩
    obtain rfl := Except.ok.inj (ran.symm.trans ran')
    exact retires'.pc.symm.trans retires.pc
  · intro even
    refine ⟨t,ran,?_⟩
    rw [Rv32i.jalrTarget,even]
    exact retires

/-- `jalr x1, x1, 4` with an address in `x1`. -/
def jumpMachine (address : Word) : State :=
  { guest privM [0x004080e7] with
    pc := 0x80000000
    x := fun r => if r = 1 then address else 0 }

theorem jumpMachine_located (address : Word) :
    wordLocation (jumpMachine address).memoryMap (jumpMachine address).pc = some ⟨0,0⟩ := by
  have start : wordLocation (guest privM []).memoryMap 0x80000000 = some ⟨0,0⟩ := by decide
  exact start

theorem stepJumps_even :
    @StepJumps clearingPlatform (jumpMachine 0xfffffffe) (deref (jumpMachine 0xfffffffe) ⟨0,0⟩) :=
  (@stepJumps_iff ⟨0,0⟩ clearingPlatform (jumpMachine 0xfffffffe) (fun walks => walks.1 rfl) rfl
    (jumpMachine_located _) (by decide)).mpr (by decide)

/-- An odd address is jumped to as it is. -/
theorem jalr_keeps_low : (jumpMachine 0x80000011).privilege = privM ∧
    decode (deref (jumpMachine 0x80000011) ⟨0,0⟩) = some .jalr ∧
    ¬@StepJumps clearingPlatform (jumpMachine 0x80000011) (deref (jumpMachine 0x80000011) ⟨0,0⟩) := by
  let _ : Platform := clearingPlatform
  have decoded : decode (deref (jumpMachine 0x80000011) ⟨0,0⟩) = some .jalr := by decide
  refine ⟨rfl,decoded,?_⟩
  rintro ⟨t,ran,retires⟩
  obtain ⟨u,ran',retires'⟩ := emulateOp_jalr (fun walks => walks.1 rfl) rfl
    (jumpMachine_located 0x80000011) decoded
  obtain rfl := Except.ok.inj (ran.symm.trans ran')
  exact absurd (retires.pc.symm.trans retires'.pc) (by decide)

end Emuriscv
