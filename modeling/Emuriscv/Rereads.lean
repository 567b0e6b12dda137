import Emuriscv.AtomicStep
import Emuriscv.CsrAccess
import Emuriscv.IntegerStep

/-! The register fields that a handler extracts after it has changed memory or a register. A
handler has a pointer to its instruction, not the word, so that each extraction sees what is in
RAM at that time. -/
namespace Emuriscv

inductive RegisterField where
  | rd
  | rs1
  | rs2
  deriving DecidableEq, Repr

def RegisterField.of : RegisterField → Word → RegisterIndex
  | .rd => getRd
  | .rs1 => getRs1
  | .rs2 => getRs2

/-- The later extractions of a handler that is entered in the state `f`, with the states in which
they are made. Everything else is extracted in `f`. -/
inductive Rereads [Platform] (f : State) (p : WordPtr) : Op → RegisterField → State → Prop
  | loaded {read : State → Word → Except Stop (Word × State)}
      (reader : op.loadReader = some read) (accesses : op.dataAccess = some access)
      (ran : read f (access.address f p) = .ok (value,u))
      (free : op = .lr ∨ u.pendingException = 0) : Rereads f p op .rd u
  | operand (arithmetic : amo ≠ .swap) (ran : readWord f (getRs1Value f p) = .ok (value,u)) :
      Rereads f p (AmoOp.op amo) .rs2 u
  | stored (arithmetic : amo ≠ .swap) (ran : readWord f (getRs1Value f p) = .ok (value,u))
      (wrote : writeWord u (getRs1Value f p) (amo.eval value (getRs2Value u p)) = .ok v) :
      Rereads f p (AmoOp.op amo) .rd v
  | swapped (ran : readWord f (getRs1Value f p) = .ok (value,u)) : Rereads f p .amoswapW .rd u
  | swapOperand (ran : readWord f (getRs1Value f p) = .ok (value,u)) :
      Rereads f p .amoswapW .rs2 (setRdValue u p value)
  | conditional (reserved : f.loadReservation = getRs1Value f p)
      (wrote : writeWord f (getRs1Value f p) (getRs2Value f p) = .ok u) : Rereads f p .sc .rd u
  | csrrs : Rereads f p .csrrs .rs1 (setRdValue f p (readCsr f (csrNumber f p)))
  | csrrc : Rereads f p .csrrc .rs1 (Handler.readCsrToRd f p (csrNumber f p))

/-- The register file after a handler: at most the register is written that `rd` named when the
handler extracted it. -/
inductive RegistersSet [Platform] (f : State) (p : WordPtr) (op : Op) (t : State) : Prop
  | kept (registers : t.x = f.x)
  | early (value : Word) (registers : t.x = writeX f.x (getRd (deref f p)) value)
  | late (reads : Rereads f p op .rd u) (value : Word)
      (registers : t.x = writeX f.x (getRd (deref u p)) value)

/-- An access writes no register and leaves the reservation. -/
structure KeepsRegisters (s t : State) : Prop where
  x : t.x = s.x
  reservation : t.loadReservation = s.loadReservation

theorem readCommon_keeps {s : State} (h : readCommon s address sizeLog2 = .ok (value,t)) :
    KeepsRegisters s t := by
  by_cases faults : PageFaults s address .load
  · rw [readCommon_fault faults] at h
    rw [← (Prod.mk.inj (Except.ok.inj h)).2]
    exact ⟨rfl,rfl⟩
  · rw [(readCommon_quiet h faults).1]
    exact ⟨rfl,rfl⟩

theorem readCommon_x {s : State} (h : readCommon s address sizeLog2 = .ok (value,t)) : t.x = s.x :=
  (readCommon_keeps h).x

theorem extended_common (sizeLog2 : Nat) (extend : Word → Word)
    (ran : (do
      let (value, s) ← readCommon s address sizeLog2
      pure (extend value, s)) = .ok (value,t)) :
    ∃ sizeLog2 raw, readCommon s address sizeLog2 = .ok (raw,t) := by
  obtain ⟨⟨raw,middle⟩,first,rest⟩ := bind_eq_ok.mp ran
  obtain ⟨_,rfl⟩ := Prod.mk.inj (Except.ok.inj rest)
  exact ⟨sizeLog2,raw,first⟩

/-- Every sized reader is a call of `read_common` whose value it may extend. -/
theorem Op.loadReader_common {op : Op} {read : State → Word → Except Stop (Word × State)}
    (reader : op.loadReader = some read) (ran : read s address = .ok (value,t)) :
    ∃ sizeLog2 raw, readCommon s address sizeLog2 = .ok (raw,t) := by
  cases op <;> simp only [Op.loadReader,Option.some.injEq,reduceCtorEq] at reader
  all_goals subst reader
  case lb =>
    exact extended_common sizeByte
      (fun value => if value &&& 0x80 = 0x80 then value ||| 0xffffff00 else value) ran
  case lh =>
    exact extended_common sizeHalf
      (fun value => if value &&& 0x8000 = 0x8000 then value ||| 0xffff0000 else value) ran
  case lbu => exact ⟨sizeByte,value,ran⟩
  case lhu => exact ⟨sizeHalf,value,ran⟩
  all_goals exact ⟨sizeWord,value,ran⟩

theorem Op.loadReader_x {op : Op} {read : State → Word → Except Stop (Word × State)}
    (reader : op.loadReader = some read) (ran : read s address = .ok (value,t)) : t.x = s.x := by
  obtain ⟨_,_,first⟩ := Op.loadReader_common reader ran
  exact readCommon_x first

section Registers

variable [Platform] {f : State} {p : WordPtr} {op : Op}

theorem writeCommon_keeps {s : State} (h : writeCommon s address value sizeLog2 = .ok t) :
    KeepsRegisters s t := by
  by_cases faults : PageFaults s address .store
  · rw [writeCommon_fault faults] at h
    rw [← Except.ok.inj h]
    exact ⟨rfl,rfl⟩
  · rw [(writeCommon_quiet h faults).rest]
    exact ⟨rfl,rfl⟩

theorem writeCommon_x {s : State} (h : writeCommon s address value sizeLog2 = .ok t) : t.x = s.x :=
  (writeCommon_keeps h).x

theorem setRdValue_set (value : Word) : RegistersSet f p op (setRdValue f p value) := by
  rw [setRdValue_eq]
  exact .early value rfl

theorem immediateShift_set (h : Handler.immediateShift shift f p = .ok t) :
    RegistersSet f p op t := by
  obtain ⟨value,rfl⟩ := immediateShift_ok h
  exact setRdValue_set value

theorem loadOp_set {read : State → Word → Except Stop (Word × State)}
    (reader : op.loadReader = some read) (accesses : op.dataAccess = some .load)
    (h : Handler.loadOp read f p = .ok t) : RegistersSet f p op t := by
  obtain ⟨⟨value,u⟩,ran,rest⟩ := bind_eq_ok.mp h
  have x := Op.loadReader_x reader ran
  dsimp only at rest
  split at rest
  next =>
    obtain rfl := Except.ok.inj rest
    exact .kept x
  next free =>
    obtain rfl := Except.ok.inj rest
    refine .late (.loaded reader accesses ran (Or.inr (not_not.mp free))) value ?_
    rw [setRdValue_eq,x]

theorem lr_set (h : Handler.lr f p = .ok t) : RegistersSet f p .lr t := by
  obtain ⟨⟨value,u⟩,ran,rest⟩ := bind_eq_ok.mp h
  have x : u.x = f.x := readCommon_x ran
  obtain rfl := Except.ok.inj rest
  refine .late (.loaded rfl rfl ran (Or.inl rfl)) value ?_
  rw [setRdValue_eq,x]

theorem amoOpW_set (amo : AmoOp) (arithmetic : amo ≠ .swap)
    (h : Handler.amoOpW amo.eval f p = .ok t) : RegistersSet f p amo.op t := by
  obtain ⟨⟨value,u⟩,ran,rest⟩ := bind_eq_ok.mp h
  obtain ⟨v,wrote,rest⟩ := bind_eq_ok.mp rest
  have x : u.x = f.x := readCommon_x ran
  have x' : v.x = u.x := writeCommon_x wrote
  obtain rfl := Except.ok.inj rest
  refine .late (.stored arithmetic ran wrote) value ?_
  rw [setRdValue_eq,x',x]

theorem amoswapW_set (h : Handler.amoswapW f p = .ok t) : RegistersSet f p .amoswapW t := by
  obtain ⟨⟨value,u⟩,ran,rest⟩ := bind_eq_ok.mp h
  have x : u.x = f.x := readCommon_x ran
  have x' : t.x = (setRdValue u p value).x := writeCommon_x rest
  refine .late (.swapped ran) value ?_
  rw [x',setRdValue_eq,x]

/-- The two ways through `sc`. -/
theorem sc_cases (h : Handler.sc f p = .ok t) :
    (f.loadReservation ≠ getRs1Value f p ∧ t = { setRdValue f p 1 with loadReservation := -1 }) ∨
    f.loadReservation = getRs1Value f p ∧
      ∃ u, writeWord f (getRs1Value f p) (getRs2Value f p) = .ok u ∧
        t = { setRdValue u p 0 with loadReservation := -1 } := by
  unfold Handler.sc at h
  dsimp only at h
  split at h
  next reserved =>
    obtain ⟨u,wrote,rest⟩ := bind_eq_ok.mp h
    exact Or.inr ⟨reserved, u, wrote, (Except.ok.inj rest).symm⟩
  next other => exact Or.inl ⟨other, (Except.ok.inj h).symm⟩

theorem sc_set (h : Handler.sc f p = .ok t) : RegistersSet f p .sc t := by
  rcases sc_cases h with ⟨_,rfl⟩ | ⟨reserved,u,wrote,rfl⟩
  · rw [setRdValue_eq]
    exact .early 1 rfl
  · have x : u.x = f.x := writeCommon_x wrote
    refine .late (.conditional reserved wrote) 0 ?_
    rw [setRdValue_eq,x]

omit [Platform] in
theorem ecall_x (h : ecall f = .ok t) : t.x = f.x := by
  obtain ⟨g,traced,rest⟩ := bind_eq_ok.mp h
  obtain rfl := Except.ok.inj rest
  rw [raiseEcall,(raiseException_frame ..).1,traceEcall_traced traced]

theorem access_registers (accesses : op.dataAccess = some access) (ran : execute op f p = .ok t) :
    RegistersSet f p op t := by
  cases op <;> simp only [Op.dataAccess,Option.some.injEq,reduceCtorEq] at accesses
  case lb => exact loadOp_set rfl rfl ran
  case lbu => exact loadOp_set rfl rfl ran
  case lh => exact loadOp_set rfl rfl ran
  case lhu => exact loadOp_set rfl rfl ran
  case lw => exact loadOp_set rfl rfl ran
  case sb => exact .kept (writeCommon_x ran)
  case sh => exact .kept (writeCommon_x ran)
  case sw => exact .kept (writeCommon_x ran)
  case amoaddW => exact amoOpW_set .add (by decide) ran
  case amoorW => exact amoOpW_set .or (by decide) ran
  case amoandW => exact amoOpW_set .and (by decide) ran
  case amoxorW => exact amoOpW_set .xor (by decide) ran
  case amoswapW => exact amoswapW_set ran
  case lr => exact lr_set ran
  case sc => exact sc_set ran

theorem execute_registers (ran : execute op f p = .ok t) : RegistersSet f p op t := by
  cases accesses : op.dataAccess with
  | some access => exact access_registers accesses ran
  | none =>
    cases number : op.csrOp with
    | some csrOp =>
      rw [← execute_csrOp number ran]
      exact .early _ (csrHandler_x csrOp f p)
    | none =>
      cases op <;> simp only [Op.dataAccess,Op.csrOp,reduceCtorEq] at accesses number
      case beq | bge | bgeu | blt | bltu | bne =>
        obtain rfl := Except.ok.inj ((execute_transfer f p rfl).symm.trans ran)
        exact .kept rfl
      case jal =>
        obtain rfl := Except.ok.inj ran
        exact .early f.pc (by rw [Handler.jal,setRdValue_eq])
      case jalr =>
        obtain rfl := Except.ok.inj ran
        exact .early f.pc (by rw [Handler.jalr,setRdValue_eq])
      case slli | srai | srli => exact immediateShift_set ran
      case ebreak | fence | fencei | uret | sfenceVma =>
        obtain rfl := Except.ok.inj ran
        exact .kept rfl
      case ecall => exact .kept (ecall_x ran)
      case mret => exact .kept (by rw [(mret_ok ran).2]; rfl)
      case sret => exact .kept (by rw [(sret_ok ran).2]; rfl)
      case wfi => contradiction
      all_goals
        obtain rfl := Except.ok.inj ran
        exact setRdValue_set _

end Registers

end Emuriscv
