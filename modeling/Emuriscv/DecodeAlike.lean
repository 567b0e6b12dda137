import Emuriscv.DecodeTable
import Emuriscv.Disassembler
import Emuriscv.IntegerStep

/-! The emulator and the disassembler on one word: the same entry of the same chain, in whatever
order, and the same target of a jump. -/
namespace Emuriscv

open MatchChain Numeral

/-- The tables of `opcodes.h` and of the disassembler's `encoding.h` agree entry by entry. -/
theorem select_eq : Disassembler.select = decode := rfl

theorem decode_perm {chain : List InsMatch} (order : insMatches.Perm chain) (word : Word) :
    (chain.find? fun entry => word &&& entry.mask = entry.value).map InsMatch.op = decode word :=
  congrArg (Option.map InsMatch.op) (find?_perm (insMatches_tests word) order)

/-- The line ends in a hexadecimal numeral with this value. -/
def Prints (text : Text) (value : Word) : Prop :=
  ∃ before digits, text = before ++ '0' :: 'x' :: digits ++ ['\n'] ∧ read 16 digits = some value.toNat

namespace Disassembler

theorem operandsText_last (operands : List Operand) (last : Operand) :
    ∃ before, operandsText (operands ++ [last]) = before ++ last.text := by
  induction operands with
  | nil => exact ⟨[],rfl⟩
  | cons operand rest ih =>
    obtain ⟨before,same⟩ := ih
    refine ⟨operand.text ++ ',' :: before, ?_⟩
    have longer : operandsText (operand :: (rest ++ [last])) =
        operand.text ++ ',' :: operandsText (rest ++ [last]) := by
      cases rest <;> rfl
    rw [List.cons_append,longer,same]
    simp

theorem prints_of_numeral (mnemonic : String) (operands : List Operand)
    (numeral : last.text = '0' :: 'x' :: digits) (value : read 16 digits = some (BitVec.toNat v)) :
    Prints (Line.text { mnemonic := mnemonic, operands := operands ++ [last] }) v := by
  obtain ⟨before,same⟩ := operandsText_last operands last
  refine ⟨mnemonic.toList ++ '\t' :: before, digits, ?_, value⟩
  simp [Line.text,same,numeral]

theorem prints_hex (mnemonic : String) (operands : List Operand) (value : Word) :
    Prints (Line.text { mnemonic := mnemonic, operands := operands ++ [.hex value] }) value :=
  prints_of_numeral mnemonic operands rfl (read_write (by decide) (by decide) _)

theorem prints_hexUpper (mnemonic : String) (operands : List Operand) (value : Word) :
    Prints (Line.text { mnemonic := mnemonic, operands := operands ++ [.hexUpper value] }) value :=
  prints_of_numeral mnemonic operands rfl (read_writeUpper (by decide) (by decide) _)

theorem branch_prints (mnemonic : String) (word pc : Word) :
    Prints (branch mnemonic word pc).text (getBImm word + pc) :=
  prints_hex mnemonic [rs1 word, rs2 word] _

theorem branchZero_prints (mnemonic : String) (word : Word) (index : RegisterIndex) (pc : Word) :
    Prints (branchZero mnemonic word index pc).text (getBImm word + pc) :=
  prints_hex mnemonic [.register index] _

theorem equality_prints (pc word : Word) :
    Prints (beq pc word).text (getBImm word + pc) ∧ Prints (bne pc word).text (getBImm word + pc) := by
  unfold beq bne
  split
  next => exact ⟨branchZero_prints .., branchZero_prints ..⟩
  next => exact ⟨branch_prints .., branch_prints ..⟩

theorem order_prints (pc word : Word) :
    Prints (blt pc word).text (getBImm word + pc) ∧ Prints (bge pc word).text (getBImm word + pc) := by
  unfold blt bge
  split
  next => exact ⟨branchZero_prints .., branchZero_prints ..⟩
  next =>
    split
    next => exact ⟨branchZero_prints .., branchZero_prints ..⟩
    next => exact ⟨branch_prints .., branch_prints ..⟩

theorem line_branch_prints (op : Op) (transfers : op.transfer = some (.branch condition))
    (pc word : Word) : Prints (line op pc word).text (getBImm word + pc) := by
  cases op <;> simp only [Op.transfer,Option.some.injEq,reduceCtorEq,Rv32i.Transfer.branch.injEq] at transfers
  case beq => exact (equality_prints pc word).1
  case bne => exact (equality_prints pc word).2
  case blt => exact (order_prints pc word).1
  case bge => exact (order_prints pc word).2
  case bltu => exact branch_prints "bltu" word pc
  case bgeu => exact branch_prints "bgeu" word pc

theorem jal_prints (pc word : Word) : Prints (jal pc word).text (getJImm word + pc) := by
  unfold jal
  split
  next => exact prints_hexUpper "j" [] _
  next => exact prints_hexUpper "jal" [rd word] _

/-- The line does not begin as that of an unknown instruction does. -/
def Line.Known (line : Line) : Prop := line.mnemonic.toList.head?.any (· ≠ 'U') = true

theorem Line.known_mk {name : String} (operands : List Operand) (newline : String)
    (head : name.toList.head?.any (· ≠ 'U') = true) : Line.Known ⟨name,operands,newline⟩ := head

theorem line_known (op : Op) (pc word : Word) : (line op pc word).Known := by
  cases op <;> dsimp only [line,addi,slt,sltu,sltiu,sub,xori,beq,bne,bge,blt,jal,jalr,csrrs,csrrw,
    csrrc,csrrwi,csrrsi,csrrci,printCsr,printCsri]
  all_goals
    repeat' split
  all_goals exact Line.known_mk _ _ (by decide +kernel)

theorem text_ne_unknown {line : Line} (known : line.Known) (word : Word) :
    line.text ≠ unknownText word := by
  intro same
  have first := congrArg List.head? same
  unfold Line.Known at known
  cases letters : line.mnemonic.toList with
  | nil => simp [letters] at known
  | cons c rest =>
    rw [Line.text,letters] at first
    have capital : c = 'U' := Option.some.inj first
    simp [letters,capital] at known

/-- Exactly the words that the chain rejects are printed as unknown. -/
theorem disassembleOp_unknown (word offset : Word) :
    disassembleOp word offset = unknownText word ↔ select word = none := by
  unfold disassembleOp
  cases select word with
  | none => exact iff_of_true rfl rfl
  | some op => exact iff_of_false (text_ne_unknown (line_known op offset word) word) (by simp)

end Disassembler

/-- The instruction is a branch whose condition holds, or a jump. -/
def Taken (op : Op) (f : State) (p : WordPtr) : Prop :=
  op = .jal ∨ ∃ condition, op.transfer = some (.branch condition) ∧
    condition.Holds (getRs1Value f p) (getRs2Value f p)

/-- The handler sets `pc` to the target; so does the step, unless an exception is pending. -/
def Jumps [Platform] (s f : State) (p : WordPtr) (op : Op) (target : Word) : Prop :=
  ∃ t, execute op f p = .ok t ∧ t.pc = target ∧ emulateOp s = .ok (finishOp t) ∧
    (s.hasPendingException = false → (finishOp t).pc = target)

theorem jumps_of_transfer [Platform] {s f : State} (fetched : Fetches s f p op)
    (transfers : op.transfer = some transfer) :
    Jumps s f p op (transfer.target f.x s.pc (deref f p)) := by
  have executed := execute_transfer f p transfers
  have start : f.pc - 4 = s.pc := by
    rw [fetched.frame]
    exact BitVec.add_sub_cancel ..
  rw [start] at executed
  refine ⟨_, executed, rfl, emulateOp_executed fetched executed, ?_⟩
  intro noException
  have quiet : f.hasPendingException = false := by rw [fetched.frame,noException]
  exact (finishOp_retires quiet _ _).pc

theorem taken_target (taken : Taken op f p) (pc : Word) :
    ∃ transfer target, op.transfer = some transfer ∧ transfer.target f.x pc (deref f p) = target ∧
      Prints (Disassembler.line op pc (deref f p)).text target := by
  rcases taken with rfl | ⟨condition,transfers,holds⟩
  · refine ⟨.jal, _, rfl, rfl, ?_⟩
    rw [Rv32i.Transfer.target,BitVec.add_comm,← getJImm_eq]
    exact Disassembler.jal_prints ..
  · refine ⟨.branch condition, _, transfers, rfl, ?_⟩
    rw [getRs1Value,getRs2Value,getReg,getReg,getRs1_eq,getRs2_eq] at holds
    rw [Rv32i.Transfer.target,if_pos holds,BitVec.add_comm,← getBImm_eq]
    exact Disassembler.line_branch_prints op transfers pc _

/-- What the two chains make of one word. -/
structure DecodedAlike [Platform] (word : Word) : Prop where
  exclusive : insMatches.Pairwise fun a b => ¬(a.pattern.Accepts word ∧ b.pattern.Accepts word)
  anyOrder : ∀ chain, insMatches.Perm chain →
    (chain.find? fun entry => word &&& entry.mask = entry.value).map InsMatch.op = decode word
  selected : Disassembler.select word = decode word
  unknown : ∀ offset, Disassembler.disassembleOp word offset = Disassembler.unknownText word ↔
    decode word = none
  targets : ∀ s f p op, Fetches s f p op → deref f p = word → Taken op f p →
    ∃ target, Prints (Disassembler.disassembleOp word s.pc) target ∧ Jumps s f p op target

theorem decoded_alike [Platform] (word : Word) : DecodedAlike word := by
  constructor
  case exclusive => exact insMatches_exclusive word
  case anyOrder => exact fun _ order => decode_perm order word
  case selected => rw [select_eq]
  case unknown =>
    intro offset
    rw [Disassembler.disassembleOp_unknown,select_eq]
  case targets =>
    rintro s f p op fetched rfl taken
    obtain ⟨transfer,target,transfers,same,prints⟩ := taken_target taken s.pc
    refine ⟨target, ?_, same ▸ jumps_of_transfer fetched transfers⟩
    rw [Disassembler.disassembleOp,select_eq,fetched.decoded]
    exact prints

end Emuriscv
