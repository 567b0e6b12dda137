import Emuriscv.DecodeTable
import Emuriscv.PreciseTrap

/-! The instruction words of RV32 in the extensions that the machine advertises, by the fields
that the architecture fixes in each, and the comparison with the `INS_MATCH` chain. -/
namespace Emuriscv

open MatchChain

def opcodeIs (value : BitVec 7) : Demand 32 := ⟨{ lo := 0, len := 7 }, value⟩
def rdIs (value : BitVec 5) : Demand 32 := ⟨{ lo := 7, len := 5 }, value⟩
def funct3Is (value : BitVec 3) : Demand 32 := ⟨{ lo := 12, len := 3 }, value⟩
def rs1Is (value : BitVec 5) : Demand 32 := ⟨{ lo := 15, len := 5 }, value⟩
def rs2Is (value : BitVec 5) : Demand 32 := ⟨{ lo := 20, len := 5 }, value⟩
def funct5Is (value : BitVec 5) : Demand 32 := ⟨{ lo := 27, len := 5 }, value⟩
def funct7Is (value : BitVec 7) : Demand 32 := ⟨{ lo := 25, len := 7 }, value⟩

/-- The major opcodes. -/
def opLoad : BitVec 7 := 0b0000011
def opMiscMem : BitVec 7 := 0b0001111
def opImm : BitVec 7 := 0b0010011
def opAuipc : BitVec 7 := 0b0010111
def opStore : BitVec 7 := 0b0100011
def opAmo : BitVec 7 := 0b0101111
def opOp : BitVec 7 := 0b0110011
def opLui : BitVec 7 := 0b0110111
def opBranch : BitVec 7 := 0b1100011
def opJalr : BitVec 7 := 0b1100111
def opJal : BitVec 7 := 0b1101111
def opSystem : BitVec 7 := 0b1110011

/-- An instruction that `funct3` completes. -/
def minor (opcode : BitVec 7) (funct3 : BitVec 3) : List (Demand 32) :=
  [opcodeIs opcode, funct3Is funct3]

/-- A register-register instruction, or a shift by an immediate. -/
def register (opcode funct7 : BitVec 7) (funct3 : BitVec 3) : List (Demand 32) :=
  [opcodeIs opcode, funct3Is funct3, funct7Is funct7]

/-- An atomic on words; the `aq` and `rl` bits are free. -/
def atomic (funct5 : BitVec 5) : List (Demand 32) :=
  [opcodeIs opAmo, funct3Is 0b010, funct5Is funct5]

/-- A privileged instruction without operands. -/
def privileged (funct7 : BitVec 7) (rs2 : BitVec 5) : List (Demand 32) :=
  [opcodeIs opSystem, rdIs 0, funct3Is 0, rs1Is 0, rs2Is rs2, funct7Is funct7]

/-- The instructions: those that have a handler, and the rest of the A extension. -/
inductive Instruction where
  | handled (op : Op)
  | amominW
  | amomaxW
  | amominuW
  | amomaxuW
  deriving DecidableEq

def Op.encoding : Op → List (Demand 32)
  | .lui => [opcodeIs opLui]
  | .auipc => [opcodeIs opAuipc]
  | .jal => [opcodeIs opJal]
  | .jalr => minor opJalr 0b000
  | .beq => minor opBranch 0b000
  | .bne => minor opBranch 0b001
  | .blt => minor opBranch 0b100
  | .bge => minor opBranch 0b101
  | .bltu => minor opBranch 0b110
  | .bgeu => minor opBranch 0b111
  | .lb => minor opLoad 0b000
  | .lh => minor opLoad 0b001
  | .lw => minor opLoad 0b010
  | .lbu => minor opLoad 0b100
  | .lhu => minor opLoad 0b101
  | .sb => minor opStore 0b000
  | .sh => minor opStore 0b001
  | .sw => minor opStore 0b010
  | .addi => minor opImm 0b000
  | .slti => minor opImm 0b010
  | .sltiu => minor opImm 0b011
  | .xori => minor opImm 0b100
  | .ori => minor opImm 0b110
  | .andi => minor opImm 0b111
  | .slli => register opImm 0b0000000 0b001
  | .srli => register opImm 0b0000000 0b101
  | .srai => register opImm 0b0100000 0b101
  | .add => register opOp 0b0000000 0b000
  | .sub => register opOp 0b0100000 0b000
  | .sll => register opOp 0b0000000 0b001
  | .slt => register opOp 0b0000000 0b010
  | .sltu => register opOp 0b0000000 0b011
  | .xor => register opOp 0b0000000 0b100
  | .srl => register opOp 0b0000000 0b101
  | .sra => register opOp 0b0100000 0b101
  | .or => register opOp 0b0000000 0b110
  | .and => register opOp 0b0000000 0b111
  | .mul => register opOp 0b0000001 0b000
  | .mulh => register opOp 0b0000001 0b001
  | .mulhsu => register opOp 0b0000001 0b010
  | .mulhu => register opOp 0b0000001 0b011
  | .opDiv => register opOp 0b0000001 0b100
  | .divu => register opOp 0b0000001 0b101
  | .rem => register opOp 0b0000001 0b110
  | .remu => register opOp 0b0000001 0b111
  | .fence => minor opMiscMem 0b000
  | .fencei => minor opMiscMem 0b001
  | .ecall => privileged 0b0000000 0b00000
  | .ebreak => privileged 0b0000000 0b00001
  | .uret => privileged 0b0000000 0b00010
  | .sret => privileged 0b0001000 0b00010
  | .wfi => privileged 0b0001000 0b00101
  | .mret => privileged 0b0011000 0b00010
  | .sfenceVma => [opcodeIs opSystem, rdIs 0, funct3Is 0, funct7Is 0b0001001]
  | .csrrw => minor opSystem 0b001
  | .csrrs => minor opSystem 0b010
  | .csrrc => minor opSystem 0b011
  | .csrrwi => minor opSystem 0b101
  | .csrrsi => minor opSystem 0b110
  | .csrrci => minor opSystem 0b111
  | .lr => [opcodeIs opAmo, funct3Is 0b010, rs2Is 0, funct5Is 0b00010]
  | .sc => atomic 0b00011
  | .amoswapW => atomic 0b00001
  | .amoaddW => atomic 0b00000
  | .amoxorW => atomic 0b00100
  | .amoandW => atomic 0b01100
  | .amoorW => atomic 0b01000

def Instruction.encoding : Instruction → List (Demand 32)
  | .handled op => op.encoding
  | .amominW => atomic 0b10000
  | .amomaxW => atomic 0b10100
  | .amominuW => atomic 0b11000
  | .amomaxuW => atomic 0b11100

/-- A legal encoding of the instruction. -/
def Instruction.Encodes (instruction : Instruction) (word : Word) : Prop :=
  ∀ demand ∈ instruction.encoding, demand.Met word

instance (instruction : Instruction) (word : Word) : Decidable (instruction.Encodes word) :=
  inferInstanceAs (Decidable (∀ demand ∈ instruction.encoding, demand.Met word))

inductive Extension where
  | i
  | m
  | a
  | zicsr
  | zifencei
  | n
  | machine
  | supervisor
  deriving DecidableEq, Repr

def Op.extension : Op → Extension
  | .mul | .mulh | .mulhsu | .mulhu | .opDiv | .divu | .rem | .remu => .m
  | .lr | .sc | .amoswapW | .amoaddW | .amoxorW | .amoandW | .amoorW => .a
  | .csrrw | .csrrs | .csrrc | .csrrwi | .csrrsi | .csrrci => .zicsr
  | .fencei => .zifencei
  | .uret => .n
  | .mret | .wfi => .machine
  | .sret | .sfenceVma => .supervisor
  | _ => .i

/-- What `misa` and the configuration of the machine name. -/
def advertised : List Extension := [.i, .m, .a, .zicsr, .machine, .supervisor]

/-- A shift by an immediate in which bit 25, the sixth bit of the count, is set. -/
def reservedShifts : List (List (Demand 32)) :=
  [register opImm 0b0000001 0b001, register opImm 0b0000001 0b101, register opImm 0b0100001 0b101]

def ReservedShift (word : Word) : Prop := ∃ demands ∈ reservedShifts, ∀ demand ∈ demands, demand.Met word

instance (word : Word) : Decidable (ReservedShift word) :=
  inferInstanceAs (Decidable (∃ demands ∈ reservedShifts, ∀ demand ∈ demands, demand.Met word))

/-- One of the atomics of the A extension that have no handler. -/
def MinMax (word : Word) : Prop :=
  ∃ instruction ∈ [Instruction.amominW,.amomaxW,.amominuW,.amomaxuW], instruction.Encodes word

/-- The shifts by an immediate test one bit too few. -/
def Op.reserved : Op → Option (List (Demand 32))
  | .slli => some (register opImm 0b0000001 0b001)
  | .srli => some (register opImm 0b0000001 0b101)
  | .srai => some (register opImm 0b0100001 0b101)
  | _ => none

theorem encoding_apart (op : Op) : op.encoding.Pairwise fun a b => a.field.Apart b.field := by
  cases op <;> decide

theorem encodes_iff (op : Op) (word : Word) :
    (Instruction.handled op).Encodes word ↔ (patternOf op.encoding).Accepts word :=
  (patternOf_accepts_iff (encoding_apart op) word).symm

/-- Every test is that of the fixed fields, but for the shifts by an immediate. -/
theorem entry_pattern (op : Op) (exact : op.reserved = none) :
    op.entry.pattern = patternOf op.encoding := by
  cases op <;> first | decide +kernel | contradiction

theorem reserved_mem (op : Op) (loose : op.reserved = some demands) : demands ∈ reservedShifts := by
  cases op <;> simp only [Op.reserved,Option.some.injEq,reduceCtorEq] at loose
  all_goals
    subst loose
    simp [reservedShifts]

theorem entry_pattern_shift (op : Op) (loose : op.reserved = some demands) :
    patternOf op.encoding = ⟨op.entry.mask ||| BitVec.twoPow 32 25, op.entry.value⟩ ∧
      patternOf demands =
        ⟨op.entry.mask ||| BitVec.twoPow 32 25, op.entry.value ||| BitVec.twoPow 32 25⟩ ∧
      op.entry.pattern.Proper ∧ op.entry.mask &&& BitVec.twoPow 32 25 = 0 ∧
      demands.Pairwise fun a b => a.field.Apart b.field := by
  cases op <;> simp only [Op.reserved,Option.some.injEq,reduceCtorEq] at loose
  all_goals
    subst loose
    decide +kernel

theorem accepts_shift (op : Op) (loose : op.reserved = some demands) (word : Word) :
    op.entry.pattern.Accepts word ↔
      (Instruction.handled op).Encodes word ∨ ∀ demand ∈ demands, demand.Met word := by
  obtain ⟨legal,reserved,proper,free,apart⟩ := entry_pattern_shift op loose
  rw [encodes_iff,← patternOf_accepts_iff apart word,legal,reserved]
  exact accepts_bit proper 25 free word

/-- The chain selects an instruction for its legal encodings, and a shift by an immediate for some
words that are reserved. -/
theorem decode_encodes (op : Op) (word : Word) (clear : ¬ReservedShift word) :
    decode word = some op ↔ (Instruction.handled op).Encodes word := by
  rw [decode_eq_some_iff]
  cases loose : op.reserved with
  | none => rw [entry_pattern op loose,encodes_iff]
  | some demands =>
    rw [accepts_shift op loose]
    exact or_iff_left fun met => clear ⟨demands, reserved_mem op loose, met⟩

theorem extension_cases (op : Op) : op.extension ∈ advertised ∨ op = .fencei ∨ op = .uret := by
  cases op <;> decide

/-- The chain on one word: the handler of an instruction for its legal encodings alone, and the
unknown-instruction branch for what encodes nothing. -/
structure DecodesLegal [Platform] (word : Word) : Prop where
  dispatched : ∀ op, decode word = some op ↔ (Instruction.handled op).Encodes word ∧
    (op.extension ∈ advertised ∨ op = .fencei ∨ op = .uret)
  unknown : ¬MinMax word → (decode word = none ↔ ∀ instruction : Instruction, ¬instruction.Encodes word)
  handled : ∀ s f p op, FetchesWord s f p → deref f p = word → decode word = some op →
    emulateOp s = execute op f p >>= fun t => pure (finishOp t)
  exits : ∀ s f p, FetchesWord s f p → deref f p = word → decode word = none →
    emulateOp s = .error (.exit exitIllegalInstruction)

theorem decode_legal [Platform] (word : Word) (clear : ¬ReservedShift word) : DecodesLegal word := by
  constructor
  case dispatched =>
    intro op
    rw [decode_encodes op word clear,and_iff_left (extension_cases op)]
  case unknown =>
    intro handled
    rw [Option.eq_none_iff_forall_ne_some]
    constructor
    · intro none instruction encodes
      cases instruction with
      | handled op => exact none op ((decode_encodes op word clear).mpr encodes)
      | _ => exact handled ⟨_, by simp, encodes⟩
    · intro none op found
      exact none (.handled op) ((decode_encodes op word clear).mp found)
  case handled =>
    rintro s f p op fetched rfl decoded
    exact emulateOp_fetched ⟨fetched,decoded⟩
  case exits =>
    rintro s f p fetched rfl undecoded
    exact emulateOp_undecoded fetched undecoded

/-- `addi x0, x0, 0`. -/
theorem decode_legal_nop : @DecodesLegal clearingPlatform 0x00000013 :=
  @decode_legal clearingPlatform 0x00000013 (by decide)

/-- `uret` of the N extension and `fence.i` have handlers. -/
theorem decode_unadvertised : (decode 0x00200073 = some .uret ∧ Op.uret.extension ∉ advertised) ∧
    decode 0x0000100f = some .fencei ∧ Op.fencei.extension ∉ advertised := by
  decide

end Emuriscv
