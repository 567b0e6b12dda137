import Emuriscv.Disassembler
import Emuriscv.LegalEncoding
import Emuriscv.NameTable

/-! How the standard assembler reads one line: the names of registers and of instructions, the
operands of each, and the pseudo-instructions. A line denotes the word that the architecture
gives the instruction, with zero in the fields that no operand names. -/
namespace Emuriscv.Assembler

open MatchChain NameTable Numeral

/-- The registers of the ABI; `fp` is another name of `s0`. -/
def registers : List (String × RegisterIndex) := [
  ("zero",0), ("ra",1), ("sp",2), ("gp",3), ("tp",4), ("t0",5), ("t1",6), ("t2",7), ("s0",8),
  ("s1",9), ("a0",10), ("a1",11), ("a2",12), ("a3",13), ("a4",14), ("a5",15), ("a6",16), ("a7",17),
  ("s2",18), ("s3",19), ("s4",20), ("s5",21), ("s6",22), ("s7",23), ("s8",24), ("s9",25),
  ("s10",26), ("s11",27), ("t3",28), ("t4",29), ("t5",30), ("t6",31), ("fp",8)]

def instructionName : Op → String
  | .lui => "lui"
  | .auipc => "auipc"
  | .jal => "jal"
  | .jalr => "jalr"
  | .beq => "beq"
  | .bne => "bne"
  | .blt => "blt"
  | .bge => "bge"
  | .bltu => "bltu"
  | .bgeu => "bgeu"
  | .lb => "lb"
  | .lh => "lh"
  | .lw => "lw"
  | .lbu => "lbu"
  | .lhu => "lhu"
  | .sb => "sb"
  | .sh => "sh"
  | .sw => "sw"
  | .addi => "addi"
  | .slti => "slti"
  | .sltiu => "sltiu"
  | .xori => "xori"
  | .ori => "ori"
  | .andi => "andi"
  | .slli => "slli"
  | .srli => "srli"
  | .srai => "srai"
  | .add => "add"
  | .sub => "sub"
  | .sll => "sll"
  | .slt => "slt"
  | .sltu => "sltu"
  | .xor => "xor"
  | .srl => "srl"
  | .sra => "sra"
  | .or => "or"
  | .and => "and"
  | .mul => "mul"
  | .mulh => "mulh"
  | .mulhsu => "mulhsu"
  | .mulhu => "mulhu"
  | .opDiv => "div"
  | .divu => "divu"
  | .rem => "rem"
  | .remu => "remu"
  | .fence => "fence"
  | .fencei => "fence.i"
  | .ecall => "ecall"
  | .ebreak => "ebreak"
  | .uret => "uret"
  | .sret => "sret"
  | .wfi => "wfi"
  | .mret => "mret"
  | .sfenceVma => "sfence.vma"
  | .csrrw => "csrrw"
  | .csrrs => "csrrs"
  | .csrrc => "csrrc"
  | .csrrwi => "csrrwi"
  | .csrrsi => "csrrsi"
  | .csrrci => "csrrci"
  | .lr => "lr.w"
  | .sc => "sc.w"
  | .amoswapW => "amoswap.w"
  | .amoaddW => "amoadd.w"
  | .amoxorW => "amoxor.w"
  | .amoandW => "amoand.w"
  | .amoorW => "amoor.w"

inductive Pseudo where
  | nop | li | mv | not | neg | seqz | snez | sgtz
  | beqz | bnez | bgez | blez | bltz | bgtz | j | jr | ret
  | csrr | csrw | csrs | csrc | csrwi | csrsi | csrci
  deriving DecidableEq, Repr

def Pseudo.name : Pseudo → String
  | .nop => "nop"
  | .li => "li"
  | .mv => "mv"
  | .not => "not"
  | .neg => "neg"
  | .seqz => "seqz"
  | .snez => "snez"
  | .sgtz => "sgtz"
  | .beqz => "beqz"
  | .bnez => "bnez"
  | .bgez => "bgez"
  | .blez => "blez"
  | .bltz => "bltz"
  | .bgtz => "bgtz"
  | .j => "j"
  | .jr => "jr"
  | .ret => "ret"
  | .csrr => "csrr"
  | .csrw => "csrw"
  | .csrs => "csrs"
  | .csrc => "csrc"
  | .csrwi => "csrwi"
  | .csrsi => "csrsi"
  | .csrci => "csrci"

inductive Mnemonic where
  | instruction (op : Op)
  | pseudo (p : Pseudo)
  deriving DecidableEq, Repr

def Mnemonic.name : Mnemonic → String
  | .instruction op => instructionName op
  | .pseudo p => p.name

def mnemonics : List Mnemonic :=
  (insMatches.map fun entry => .instruction entry.op) ++
    [Pseudo.nop, .li, .mv, .not, .neg, .seqz, .snez, .sgtz, .beqz, .bnez, .bgez, .blez, .bltz, .bgtz,
      .j, .jr, .ret, .csrr, .csrw, .csrs, .csrc, .csrwi, .csrsi, .csrci].map .pseudo

def registerNamed (text : Text) : Option RegisterIndex :=
  (lookup Prod.fst registers text).map Prod.snd

def csrNamed (text : Text) : Option CsrNumber :=
  (lookup Prod.fst Disassembler.csrNames text).map fun entry => entry.2.setWidth 12

/-- A hexadecimal or a decimal numeral, which may have a sign. -/
def number : Text → Option Int
  | '0' :: 'x' :: digits => (read 16 digits).map Int.ofNat
  | '-' :: digits => (read 10 digits).map fun n => -Int.ofNat n
  | digits => (read 10 digits).map Int.ofNat

/-- A number that fits into a field in two's complement. -/
def signed (len : Nat) (text : Text) : Option (BitVec len) := do
  let value ← number text
  let field := BitVec.ofInt len value
  if field.toInt = value then some field else none

def unsigned (len : Nat) (text : Text) : Option (BitVec len) := do
  let value ← number text
  let field := BitVec.ofInt len value
  if Int.ofNat field.toNat = value then some field else none

/-- The distance of a target from the instruction, in units of two bytes. -/
def distance (len : Nat) (pc : Word) (text : Text) : Option (BitVec len) := do
  let target ← number text
  let offset := BitVec.ofInt 32 target - pc
  let field := offset.setWidth len
  if field.signExtend 32 = offset ∧ field.getLsbD 0 = false then some field else none

/-- The two parts of `offset(base)`. -/
def address (text : Text) : Option (Text × Text) :=
  match text.dropWhile (· ≠ '(') with
  | _ :: base =>
    if base.getLast? = some ')' then some (text.takeWhile (· ≠ '('), base.dropLast) else none
  | [] => none

def iImmIs (value : BitVec 12) : Demand 32 := ⟨{ lo := 20, len := 12 }, value⟩
def uImmIs (value : BitVec 20) : Demand 32 := ⟨{ lo := 12, len := 20 }, value⟩

def sImmIs (value : BitVec 12) : List (Demand 32) :=
  [funct7Is (value.extractLsb' 5 7), rdIs (value.extractLsb' 0 5)]

def bImmIs (offset : BitVec 13) : List (Demand 32) := [
  ⟨.bit 31, offset.extractLsb' 12 1⟩, ⟨.bit 7, offset.extractLsb' 11 1⟩,
  ⟨{ lo := 25, len := 6 }, offset.extractLsb' 5 6⟩, ⟨{ lo := 8, len := 4 }, offset.extractLsb' 1 4⟩]

def jImmIs (offset : BitVec 21) : List (Demand 32) := [
  ⟨.bit 31, offset.extractLsb' 20 1⟩, ⟨{ lo := 12, len := 8 }, offset.extractLsb' 12 8⟩,
  ⟨.bit 20, offset.extractLsb' 11 1⟩, ⟨{ lo := 21, len := 10 }, offset.extractLsb' 1 10⟩]

/-- The `aq` and `rl` bits, which only a suffix of the mnemonic sets. -/
def relaxed : Demand 32 := ⟨{ lo := 25, len := 2, positive := Nat.two_pos }, 0⟩

/-- The operands that follow a mnemonic. -/
inductive Format where
  | registers
  | immediate
  | shift
  | load
  | store
  | upper
  | branch
  | jump
  | atomic
  | reserved
  | csr
  | csrImmediate
  | plain (fixed : List (Demand 32))

/-- Without operands, `fence` orders everything and `sfence.vma` names `x0` twice. -/
def format : Op → Format
  | .add | .sub | .and | .or | .xor | .sll | .srl | .sra | .slt | .sltu | .mul | .mulh | .mulhsu
  | .mulhu | .opDiv | .divu | .rem | .remu => .registers
  | .addi | .andi | .ori | .xori | .slti | .sltiu | .jalr => .immediate
  | .slli | .srli | .srai => .shift
  | .lb | .lbu | .lh | .lhu | .lw => .load
  | .sb | .sh | .sw => .store
  | .lui | .auipc => .upper
  | .beq | .bne | .blt | .bge | .bltu | .bgeu => .branch
  | .jal => .jump
  | .amoaddW | .amoorW | .amoandW | .amoxorW | .amoswapW | .sc => .atomic
  | .lr => .reserved
  | .csrrw | .csrrs | .csrrc => .csr
  | .csrrwi | .csrrsi | .csrrci => .csrImmediate
  | .fence => .plain [rdIs 0, rs1Is 0, iImmIs 0x0ff]
  | .fencei => .plain [rdIs 0, rs1Is 0, iImmIs 0]
  | .sfenceVma => .plain [rs1Is 0, rs2Is 0]
  | .ecall | .ebreak | .uret | .sret | .mret | .wfi => .plain []

/-- The values of the fields that the operands name. -/
def Format.read (pc : Word) : Format → List Text → Option (List (Demand 32))
  | .registers, [d,a,b] => do
    let d ← registerNamed d
    let a ← registerNamed a
    let b ← registerNamed b
    some [rdIs d, rs1Is a, rs2Is b]
  | .immediate, [d,a,imm] => do
    let d ← registerNamed d
    let a ← registerNamed a
    let imm ← signed 12 imm
    some [rdIs d, rs1Is a, iImmIs imm]
  | .shift, [d,a,count] => do
    let d ← registerNamed d
    let a ← registerNamed a
    let count ← unsigned 5 count
    some [rdIs d, rs1Is a, rs2Is count]
  | .load, [d,target] => do
    let d ← registerNamed d
    let (imm, base) ← address target
    let imm ← signed 12 imm
    let base ← registerNamed base
    some [rdIs d, rs1Is base, iImmIs imm]
  | .store, [b,target] => do
    let b ← registerNamed b
    let (imm, base) ← address target
    let imm ← signed 12 imm
    let base ← registerNamed base
    some (rs1Is base :: rs2Is b :: sImmIs imm)
  | .upper, [d,imm] => do
    let d ← registerNamed d
    let imm ← unsigned 20 imm
    some [rdIs d, uImmIs imm]
  | .branch, [a,b,target] => do
    let a ← registerNamed a
    let b ← registerNamed b
    let offset ← distance 13 pc target
    some (rs1Is a :: rs2Is b :: bImmIs offset)
  | .jump, [d,target] => do
    let d ← registerNamed d
    let offset ← distance 21 pc target
    some (rdIs d :: jImmIs offset)
  | .atomic, [d,b,target] => do
    let d ← registerNamed d
    let b ← registerNamed b
    let (imm, base) ← address target
    let base ← if imm = [] then registerNamed base else none
    some [rdIs d, rs1Is base, rs2Is b, relaxed]
  | .reserved, [d,target] => do
    let d ← registerNamed d
    let (imm, base) ← address target
    let base ← if imm = [] then registerNamed base else none
    some [rdIs d, rs1Is base, relaxed]
  | .csr, [d,number,a] => do
    let d ← registerNamed d
    let number ← csrNamed number
    let a ← registerNamed a
    some [rdIs d, rs1Is a, iImmIs number]
  | .csrImmediate, [d,number,imm] => do
    let d ← registerNamed d
    let number ← csrNamed number
    let imm ← unsigned 5 imm
    some [rdIs d, rs1Is imm, iImmIs number]
  | .plain fixed, [] => some fixed
  | _, _ => none

def zero : Text := "zero".toList
def ra : Text := "ra".toList

/-- The instruction that a pseudo-instruction stands for. -/
def Mnemonic.expand : Mnemonic → List Text → Option (Op × List Text)
  | .pseudo .nop, [] => some (.addi, [zero, zero, ['0']])
  | .pseudo .li, [d,imm] => some (.addi, [d, zero, imm])
  | .pseudo .mv, [d,a] => some (.addi, [d, a, ['0']])
  | .pseudo .not, [d,a] => some (.xori, [d, a, ['-','1']])
  | .pseudo .neg, [d,b] => some (.sub, [d, zero, b])
  | .pseudo .seqz, [d,a] => some (.sltiu, [d, a, ['1']])
  | .pseudo .snez, [d,b] => some (.sltu, [d, zero, b])
  | .pseudo .sgtz, [d,b] => some (.slt, [d, zero, b])
  | .pseudo .beqz, [a,target] => some (.beq, [a, zero, target])
  | .pseudo .bnez, [a,target] => some (.bne, [a, zero, target])
  | .pseudo .bgez, [a,target] => some (.bge, [a, zero, target])
  | .pseudo .blez, [b,target] => some (.bge, [zero, b, target])
  | .pseudo .bltz, [a,target] => some (.blt, [a, zero, target])
  | .pseudo .bgtz, [b,target] => some (.blt, [zero, b, target])
  | .pseudo .j, [target] => some (.jal, [zero, target])
  | .pseudo .jr, [a] => some (.jalr, [zero, a, ['0']])
  | .pseudo .ret, [] => some (.jalr, [zero, ra, ['0']])
  | .pseudo .csrr, [d,number] => some (.csrrs, [d, number, zero])
  | .pseudo .csrw, [number,a] => some (.csrrw, [zero, number, a])
  | .pseudo .csrs, [number,a] => some (.csrrs, [zero, number, a])
  | .pseudo .csrc, [number,a] => some (.csrrc, [zero, number, a])
  | .pseudo .csrwi, [number,imm] => some (.csrrwi, [zero, number, imm])
  | .pseudo .csrsi, [number,imm] => some (.csrrsi, [zero, number, imm])
  | .pseudo .csrci, [number,imm] => some (.csrrci, [zero, number, imm])
  -- one operand is a register or an address, and the link is `ra`
  | .instruction .jalr, [target] =>
    match address target with
    | some (imm, base) => some (.jalr, [ra, base, imm])
    | none => some (.jalr, [ra, target, ['0']])
  | .instruction op, operands => some (op, operands)
  | _, _ => none

/-- The character does not end the line. -/
def within (c : Char) : Bool := c ≠ '\n' ∧ c ≠ '\r'

/-- The mnemonic and the operands of a line. -/
def split (text : Text) : Text × List Text :=
  let line := text.takeWhile within
  match line.dropWhile (· ≠ '\t') with
  | _ :: operands => (line.takeWhile (· ≠ '\t'), operands.splitOn ',')
  | [] => (line, [])

/-- The instruction word that a line at the address `pc` denotes. -/
def assemble (pc : Word) (text : Text) : Option Word := do
  let (name, operands) := split text
  let mnemonic ← lookup Mnemonic.name mnemonics name
  let (op, operands) ← mnemonic.expand operands
  let demands ← (format op).read pc operands
  some (patternOf (op.encoding ++ demands)).value

end Emuriscv.Assembler
