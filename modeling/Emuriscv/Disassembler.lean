import Emuriscv.Cpu
import Emuriscv.Numeral

/-! The disassembler: `register.c`, the functions of `disassembler.c` that print an instruction,
and the chain of `disassemble_op`. A call of `printf` is a line, its format a mnemonic and the
conversions with their arguments. -/
namespace Emuriscv.Disassembler

open Numeral

def registerNames : List String := [
  "zero", "ra", "sp", "gp", "tp", "t0", "t1", "t2", "s0", "s1", "a0", "a1", "a2", "a3", "a4", "a5",
  "a6", "a7", "s2", "s3", "s4", "s5", "s6", "s7", "s8", "s9", "s10", "s11", "t3", "t4", "t5", "t6"]

def registerName (index : RegisterIndex) : String := registerNames.getD index.toNat ""

/-- `csr_names.h` with the numbers of `encoding.h`. -/
def csrNames : List (String × Word) := [
  ("fflags", 0x1), ("frm", 0x2), ("fcsr", 0x3), ("ustatus", 0x0), ("uie", 0x4), ("utvec", 0x5),
  ("vstart", 0x8), ("vxsat", 0x9), ("vxrm", 0xa), ("vcsr", 0xf), ("uscratch", 0x40),
  ("uepc", 0x41), ("ucause", 0x42), ("utval", 0x43), ("uip", 0x44), ("cycle", 0xc00),
  ("time", 0xc01), ("instret", 0xc02), ("hpmcounter3", 0xc03), ("hpmcounter4", 0xc04),
  ("hpmcounter5", 0xc05), ("hpmcounter6", 0xc06), ("hpmcounter7", 0xc07), ("hpmcounter8", 0xc08),
  ("hpmcounter9", 0xc09), ("hpmcounter10", 0xc0a), ("hpmcounter11", 0xc0b),
  ("hpmcounter12", 0xc0c), ("hpmcounter13", 0xc0d), ("hpmcounter14", 0xc0e),
  ("hpmcounter15", 0xc0f), ("hpmcounter16", 0xc10), ("hpmcounter17", 0xc11),
  ("hpmcounter18", 0xc12), ("hpmcounter19", 0xc13), ("hpmcounter20", 0xc14),
  ("hpmcounter21", 0xc15), ("hpmcounter22", 0xc16), ("hpmcounter23", 0xc17),
  ("hpmcounter24", 0xc18), ("hpmcounter25", 0xc19), ("hpmcounter26", 0xc1a),
  ("hpmcounter27", 0xc1b), ("hpmcounter28", 0xc1c), ("hpmcounter29", 0xc1d),
  ("hpmcounter30", 0xc1e), ("hpmcounter31", 0xc1f), ("vl", 0xc20), ("vtype", 0xc21),
  ("vlenb", 0xc22), ("sstatus", 0x100), ("sedeleg", 0x102), ("sideleg", 0x103), ("sie", 0x104),
  ("stvec", 0x105), ("scounteren", 0x106), ("sscratch", 0x140), ("sepc", 0x141),
  ("scause", 0x142), ("stval", 0x143), ("sip", 0x144), ("satp", 0x180), ("vsstatus", 0x200),
  ("vsie", 0x204), ("vstvec", 0x205), ("vsscratch", 0x240), ("vsepc", 0x241), ("vscause", 0x242),
  ("vstval", 0x243), ("vsip", 0x244), ("vsatp", 0x280), ("hstatus", 0x600), ("hedeleg", 0x602),
  ("hideleg", 0x603), ("hie", 0x604), ("htimedelta", 0x605), ("hcounteren", 0x606),
  ("hgeie", 0x607), ("htval", 0x643), ("hip", 0x644), ("hvip", 0x645), ("htinst", 0x64a),
  ("hgatp", 0x680), ("hgeip", 0xe12), ("utvt", 0x7), ("unxti", 0x45), ("uintstatus", 0x46),
  ("uscratchcsw", 0x48), ("uscratchcswl", 0x49), ("stvt", 0x107), ("snxti", 0x145),
  ("sintstatus", 0x146), ("sscratchcsw", 0x148), ("sscratchcswl", 0x149), ("mtvt", 0x307),
  ("mnxti", 0x345), ("mintstatus", 0x346), ("mscratchcsw", 0x348), ("mscratchcswl", 0x349),
  ("mstatus", 0x300), ("misa", 0x301), ("medeleg", 0x302), ("mideleg", 0x303), ("mie", 0x304),
  ("mtvec", 0x305), ("mcounteren", 0x306), ("mcountinhibit", 0x320), ("mscratch", 0x340),
  ("mepc", 0x341), ("mcause", 0x342), ("mtval", 0x343), ("mip", 0x344), ("mtinst", 0x34a),
  ("mtval2", 0x34b), ("pmpcfg0", 0x3a0), ("pmpcfg1", 0x3a1), ("pmpcfg2", 0x3a2),
  ("pmpcfg3", 0x3a3), ("pmpaddr0", 0x3b0), ("pmpaddr1", 0x3b1), ("pmpaddr2", 0x3b2),
  ("pmpaddr3", 0x3b3), ("pmpaddr4", 0x3b4), ("pmpaddr5", 0x3b5), ("pmpaddr6", 0x3b6),
  ("pmpaddr7", 0x3b7), ("pmpaddr8", 0x3b8), ("pmpaddr9", 0x3b9), ("pmpaddr10", 0x3ba),
  ("pmpaddr11", 0x3bb), ("pmpaddr12", 0x3bc), ("pmpaddr13", 0x3bd), ("pmpaddr14", 0x3be),
  ("pmpaddr15", 0x3bf), ("tselect", 0x7a0), ("tdata1", 0x7a1), ("tdata2", 0x7a2),
  ("tdata3", 0x7a3), ("tinfo", 0x7a4), ("tcontrol", 0x7a5), ("mcontext", 0x7a8),
  ("scontext", 0x7aa), ("dcsr", 0x7b0), ("dpc", 0x7b1), ("dscratch0", 0x7b2),
  ("dscratch1", 0x7b3), ("mcycle", 0xb00), ("minstret", 0xb02), ("mhpmcounter3", 0xb03),
  ("mhpmcounter4", 0xb04), ("mhpmcounter5", 0xb05), ("mhpmcounter6", 0xb06),
  ("mhpmcounter7", 0xb07), ("mhpmcounter8", 0xb08), ("mhpmcounter9", 0xb09),
  ("mhpmcounter10", 0xb0a), ("mhpmcounter11", 0xb0b), ("mhpmcounter12", 0xb0c),
  ("mhpmcounter13", 0xb0d), ("mhpmcounter14", 0xb0e), ("mhpmcounter15", 0xb0f),
  ("mhpmcounter16", 0xb10), ("mhpmcounter17", 0xb11), ("mhpmcounter18", 0xb12),
  ("mhpmcounter19", 0xb13), ("mhpmcounter20", 0xb14), ("mhpmcounter21", 0xb15),
  ("mhpmcounter22", 0xb16), ("mhpmcounter23", 0xb17), ("mhpmcounter24", 0xb18),
  ("mhpmcounter25", 0xb19), ("mhpmcounter26", 0xb1a), ("mhpmcounter27", 0xb1b),
  ("mhpmcounter28", 0xb1c), ("mhpmcounter29", 0xb1d), ("mhpmcounter30", 0xb1e),
  ("mhpmcounter31", 0xb1f), ("mhpmevent3", 0x323), ("mhpmevent4", 0x324), ("mhpmevent5", 0x325),
  ("mhpmevent6", 0x326), ("mhpmevent7", 0x327), ("mhpmevent8", 0x328), ("mhpmevent9", 0x329),
  ("mhpmevent10", 0x32a), ("mhpmevent11", 0x32b), ("mhpmevent12", 0x32c), ("mhpmevent13", 0x32d),
  ("mhpmevent14", 0x32e), ("mhpmevent15", 0x32f), ("mhpmevent16", 0x330), ("mhpmevent17", 0x331),
  ("mhpmevent18", 0x332), ("mhpmevent19", 0x333), ("mhpmevent20", 0x334), ("mhpmevent21", 0x335),
  ("mhpmevent22", 0x336), ("mhpmevent23", 0x337), ("mhpmevent24", 0x338), ("mhpmevent25", 0x339),
  ("mhpmevent26", 0x33a), ("mhpmevent27", 0x33b), ("mhpmevent28", 0x33c), ("mhpmevent29", 0x33d),
  ("mhpmevent30", 0x33e), ("mhpmevent31", 0x33f), ("mvendorid", 0xf11), ("marchid", 0xf12),
  ("mimpid", 0xf13), ("mhartid", 0xf14), ("mentropy", 0xf15), ("mnoise", 0x7a9),
  ("htimedeltah", 0x615), ("cycleh", 0xc80), ("timeh", 0xc81), ("instreth", 0xc82),
  ("hpmcounter3h", 0xc83), ("hpmcounter4h", 0xc84), ("hpmcounter5h", 0xc85),
  ("hpmcounter6h", 0xc86), ("hpmcounter7h", 0xc87), ("hpmcounter8h", 0xc88),
  ("hpmcounter9h", 0xc89), ("hpmcounter10h", 0xc8a), ("hpmcounter11h", 0xc8b),
  ("hpmcounter12h", 0xc8c), ("hpmcounter13h", 0xc8d), ("hpmcounter14h", 0xc8e),
  ("hpmcounter15h", 0xc8f), ("hpmcounter16h", 0xc90), ("hpmcounter17h", 0xc91),
  ("hpmcounter18h", 0xc92), ("hpmcounter19h", 0xc93), ("hpmcounter20h", 0xc94),
  ("hpmcounter21h", 0xc95), ("hpmcounter22h", 0xc96), ("hpmcounter23h", 0xc97),
  ("hpmcounter24h", 0xc98), ("hpmcounter25h", 0xc99), ("hpmcounter26h", 0xc9a),
  ("hpmcounter27h", 0xc9b), ("hpmcounter28h", 0xc9c), ("hpmcounter29h", 0xc9d),
  ("hpmcounter30h", 0xc9e), ("hpmcounter31h", 0xc9f), ("mstatush", 0x310), ("mcycleh", 0xb80),
  ("minstreth", 0xb82), ("mhpmcounter3h", 0xb83), ("mhpmcounter4h", 0xb84),
  ("mhpmcounter5h", 0xb85), ("mhpmcounter6h", 0xb86), ("mhpmcounter7h", 0xb87),
  ("mhpmcounter8h", 0xb88), ("mhpmcounter9h", 0xb89), ("mhpmcounter10h", 0xb8a),
  ("mhpmcounter11h", 0xb8b), ("mhpmcounter12h", 0xb8c), ("mhpmcounter13h", 0xb8d),
  ("mhpmcounter14h", 0xb8e), ("mhpmcounter15h", 0xb8f), ("mhpmcounter16h", 0xb90),
  ("mhpmcounter17h", 0xb91), ("mhpmcounter18h", 0xb92), ("mhpmcounter19h", 0xb93),
  ("mhpmcounter20h", 0xb94), ("mhpmcounter21h", 0xb95), ("mhpmcounter22h", 0xb96),
  ("mhpmcounter23h", 0xb97), ("mhpmcounter24h", 0xb98), ("mhpmcounter25h", 0xb99),
  ("mhpmcounter26h", 0xb9a), ("mhpmcounter27h", 0xb9b), ("mhpmcounter28h", 0xb9c),
  ("mhpmcounter29h", 0xb9d), ("mhpmcounter30h", 0xb9e), ("mhpmcounter31h", 0xb9f)]

def csrName (csr : Word) : String :=
  match csrNames.find? fun entry => entry.2 = csr with
  | some entry => entry.1
  | none => "unknown-csr"

/-- `%s` of a register or a CSR, `%d`, `0x%x`, `0x%X`, `%d(%s)` and `(%s)`. -/
inductive Operand where
  | register (index : RegisterIndex)
  | csr (number : Word)
  | decimal (value : Word)
  | hex (value : Word)
  | hexUpper (value : Word)
  | offset (value : Word) (base : RegisterIndex)
  | indirect (base : RegisterIndex)
  deriving DecidableEq

structure Line where
  mnemonic : String
  operands : List Operand := []
  newline : String := "\n"

def registerText (index : RegisterIndex) : Text := (registerName index).toList

def Operand.text : Operand → Text
  | .register index => registerText index
  | .csr number => (csrName number).toList
  | .decimal value => writeSigned value
  | .hex value => '0' :: 'x' :: write 16 value.toNat
  | .hexUpper value => '0' :: 'x' :: writeUpper 16 value.toNat
  | .offset value base => writeSigned value ++ '(' :: registerText base ++ [')']
  | .indirect base => '(' :: registerText base ++ [')']

/-- The operands, with commas between them. -/
def operandsText : List Operand → Text
  | [] => []
  | [operand] => operand.text
  | operand :: rest => operand.text ++ ',' :: operandsText rest

def Line.text (line : Line) : Text :=
  let operands := if line.operands = [] then [] else '\t' :: operandsText line.operands
  line.mnemonic.toList ++ operands ++ line.newline.toList

section Formats

variable (mnemonic : String) (word : Word)

def rd : Operand := .register (getRd word)
def rs1 : Operand := .register (getRs1 word)
def rs2 : Operand := .register (getRs2 word)

/-- `rd,rs1,rs2`. -/
def registers : Line := { mnemonic := mnemonic, operands := [rd word, rs1 word, rs2 word] }

/-- `rd,rs1,imm`. -/
def immediate (imm : Word) : Line :=
  { mnemonic := mnemonic, operands := [rd word, rs1 word, .decimal imm] }

/-- `rd,offset(rs1)`. -/
def load : Line :=
  { mnemonic := mnemonic, operands := [rd word, .offset (getIImm word) (getRs1 word)] }

/-- `rs2,offset(rs1)`. -/
def store : Line :=
  { mnemonic := mnemonic, operands := [rs2 word, .offset (getSImm word) (getRs1 word)] }

def shift : Line :=
  { mnemonic := mnemonic
    operands := [rd word, rs1 word, .hex (instructionIShiftShamt word &&& 0x1F)] }

def upper : Line :=
  { mnemonic := mnemonic
    operands := [rd word, .hex ((instructionUData word <<< 12).sshiftRight 12 &&& 0xfffff)] }

def target (pc : Word) : Operand := .hex (getBImm word + pc)

def branch (pc : Word) : Line :=
  { mnemonic := mnemonic, operands := [rs1 word, rs2 word, target word pc] }

def branchZero (index : RegisterIndex) (pc : Word) : Line :=
  { mnemonic := mnemonic, operands := [.register index, target word pc] }

/-- The macro `AMO_OP_W`, and the format of `sc`. -/
def atomicLine : Line :=
  { mnemonic := mnemonic, operands := [rd word, rs2 word, .indirect (getRs1 word)] }

end Formats

section Instructions

variable (pc word : Word)

def add := registers "add" word

def addi : Line :=
  let imm := getIImm word
  if getRs1 word = 0 then
    if getRd word = 0 ∧ imm = 0 then { mnemonic := "nop" }
    else { mnemonic := "li", operands := [rd word, .decimal imm] }
  else if imm = 0 then { mnemonic := "mv", operands := [rd word, rs1 word] }
  else immediate "addi" word imm

def and := registers "and" word
def andi := immediate "andi" word (getIImm word)
def auipc := upper "auipc" word

def beq : Line :=
  if getRs2 word = 0 then branchZero "beqz" word (getRs1 word) pc else branch "beq" word pc

def bge : Line :=
  if getRs2 word = 0 then branchZero "bgez" word (getRs1 word) pc
  else if getRs1 word = 0 then branchZero "blez" word (getRs2 word) pc
  else branch "bge" word pc

def bgeu := branch "bgeu" word pc

def blt : Line :=
  if getRs2 word = 0 then branchZero "bltz" word (getRs1 word) pc
  else if getRs1 word = 0 then branchZero "bgtz" word (getRs2 word) pc
  else branch "blt" word pc

def bltu := branch "bltu" word pc

def bne : Line :=
  if getRs2 word = 0 then branchZero "bnez" word (getRs1 word) pc else branch "bne" word pc

def fence : Line := { mnemonic := "fence" }
def fencei : Line := { mnemonic := "fence.i" }

def jal : Line :=
  let offset := getJImm word
  if getRd word = 0 then { mnemonic := "j", operands := [.hexUpper (offset + pc)] }
  else { mnemonic := "jal", operands := [rd word, .hexUpper (offset + pc)] }

def jalr : Line :=
  let offset := getIImm word
  if offset = 0 ∧ getRd word = 0 ∧ getRs1 word = 1 then { mnemonic := "ret" }
  else if offset = 0 ∧ getRd word = 1 then { mnemonic := "jalr", operands := [rs1 word] }
  else if offset = 0 ∧ getRd word = 0 then { mnemonic := "jr", operands := [rs1 word] }
  else if getRd word = getRs1 word then
    { mnemonic := "jalr", operands := [.offset offset (getRs1 word)] }
  else immediate "jalr" word offset

def lb := load "lb" word
def lbu := load "lbu" word
def lh := load "lh" word
def lhu := load "lhu" word
def lui := upper "lui" word
def lw := load "lw" word
def or := registers "or" word
def ori := immediate "ori" word (instructionIImm word)
def sb := store "sb" word
def sh := store "sh" word
def sll := registers "sll" word
def slli := shift "slli" word

def slt : Line :=
  if getRs1 word = 0 then { mnemonic := "sgtz", operands := [rd word, rs2 word] }
  else registers "slt" word

def sltu : Line :=
  if getRs1 word = 0 then { mnemonic := "snez", operands := [rd word, rs2 word] }
  else registers "sltu" word

def slti := immediate "slti" word (instructionIImm word)

def sltiu : Line :=
  if instructionIImm word = 1 then { mnemonic := "seqz", operands := [rd word, rs1 word] }
  else immediate "sltiu" word (instructionIImm word)

def sra := registers "sra" word
def srai := shift "srai" word
def srl := registers "srl" word
def srli := shift "srli" word

def sub : Line :=
  if getRs1 word = 0 then { mnemonic := "neg", operands := [rd word, rs2 word] }
  else registers "sub" word

def sw := store "sw" word
def xor := registers "xor" word

def xori : Line :=
  if instructionIImm word = -1 then { mnemonic := "not", operands := [rd word, rs1 word] }
  else immediate "xori" word (instructionIImm word)

def mret : Line := { mnemonic := "mret" }
def sret : Line := { mnemonic := "sret" }
def uret : Line := { mnemonic := "uret" }
def sfenceVma : Line := { mnemonic := "sfence.vma", newline := "\r\n" }
def wfi : Line := { mnemonic := "wfi" }

def mul := registers "mul" word
def mulh := registers "mulh" word
def mulhu := registers "mulhu" word
def mulhsu := registers "mulhsu" word
def rem := registers "rem" word
def remu := registers "remu" word
def opDiv := registers "div" word
def divu := registers "divu" word

def printCsr (nameFull nameZero : String) : Line :=
  let csr := getIImmUnsigned word
  if getRd word = 0 then { mnemonic := nameZero, operands := [.csr csr, rs1 word] }
  else { mnemonic := nameFull, operands := [rd word, .csr csr, rs1 word] }

def csrrs : Line :=
  if getRs1 word = 0 then
    { mnemonic := "csrr", operands := [rd word, .csr (getIImmUnsigned word)] }
  else printCsr word "csrrs" "csrs"

def csrrw := printCsr word "csrrw" "csrw"
def csrrc := printCsr word "csrrc" "csrc"

def printCsri (nameFull nameZero : String) : Line :=
  let csr := getIImmUnsigned word
  if getRd word = 0 then
    { mnemonic := nameZero, operands := [.csr csr, .decimal (getCsrImm word)] }
  else { mnemonic := nameFull, operands := [rd word, .csr csr, .decimal (getCsrImm word)] }

def csrrwi := printCsri word "csrwwi" "csrwi"
def csrrsi := printCsri word "csrrsi" "csrsi"
def csrrci := printCsri word "csrrci" "csrci"

def ebreak : Line := { mnemonic := "ebreak" }
def ecall : Line := { mnemonic := "ecall" }

def amoaddW := atomicLine "amoadd.w" word
def amoandW := atomicLine "amoand.w" word
def amoorW := atomicLine "amoor.w" word
def amoxorW := atomicLine "amoxor.w" word
def amoswapW := atomicLine "amoswap.w" word
def lr : Line := { mnemonic := "lr", operands := [rd word, .indirect (getRs1 word)] }
def sc := atomicLine "sc" word

end Instructions

/-- The chain of `disassemble_op`, with the values of its own `encoding.h`. -/
def insMatches : List InsMatch := [
  ⟨0xfe00707f, 0x33, .add⟩,
  ⟨0x707f, 0x13, .addi⟩,
  ⟨0xfe00707f, 0x7033, .and⟩,
  ⟨0x707f, 0x7013, .andi⟩,
  ⟨0x7f, 0x17, .auipc⟩,
  ⟨0x707f, 0x63, .beq⟩,
  ⟨0x707f, 0x5063, .bge⟩,
  ⟨0x707f, 0x7063, .bgeu⟩,
  ⟨0x707f, 0x4063, .blt⟩,
  ⟨0x707f, 0x6063, .bltu⟩,
  ⟨0x707f, 0x1063, .bne⟩,
  ⟨0xffffffff, 0x100073, .ebreak⟩,
  ⟨0xffffffff, 0x73, .ecall⟩,
  ⟨0x707f, 0xf, .fence⟩,
  ⟨0x707f, 0x100f, .fencei⟩,
  ⟨0x7f, 0x6f, .jal⟩,
  ⟨0x707f, 0x67, .jalr⟩,
  ⟨0x707f, 0x3, .lb⟩,
  ⟨0x707f, 0x4003, .lbu⟩,
  ⟨0x707f, 0x1003, .lh⟩,
  ⟨0x707f, 0x5003, .lhu⟩,
  ⟨0x7f, 0x37, .lui⟩,
  ⟨0x707f, 0x2003, .lw⟩,
  ⟨0xfe00707f, 0x6033, .or⟩,
  ⟨0x707f, 0x6013, .ori⟩,
  ⟨0x707f, 0x23, .sb⟩,
  ⟨0x707f, 0x1023, .sh⟩,
  ⟨0xfe00707f, 0x1033, .sll⟩,
  ⟨0xfc00707f, 0x1013, .slli⟩,
  ⟨0xfe00707f, 0x2033, .slt⟩,
  ⟨0x707f, 0x2013, .slti⟩,
  ⟨0x707f, 0x3013, .sltiu⟩,
  ⟨0xfe00707f, 0x3033, .sltu⟩,
  ⟨0xfe00707f, 0x40005033, .sra⟩,
  ⟨0xfc00707f, 0x40005013, .srai⟩,
  ⟨0xfe00707f, 0x5033, .srl⟩,
  ⟨0xfc00707f, 0x5013, .srli⟩,
  ⟨0xfe00707f, 0x40000033, .sub⟩,
  ⟨0x707f, 0x2023, .sw⟩,
  ⟨0xfe00707f, 0x4033, .xor⟩,
  ⟨0x707f, 0x4013, .xori⟩,
  ⟨0xffffffff, 0x10500073, .wfi⟩,
  ⟨0xffffffff, 0x30200073, .mret⟩,
  ⟨0xffffffff, 0x10200073, .sret⟩,
  ⟨0xffffffff, 0x200073, .uret⟩,
  ⟨0x707f, 0x2073, .csrrs⟩,
  ⟨0x707f, 0x1073, .csrrw⟩,
  ⟨0x707f, 0x3073, .csrrc⟩,
  ⟨0x707f, 0x6073, .csrrsi⟩,
  ⟨0x707f, 0x5073, .csrrwi⟩,
  ⟨0x707f, 0x7073, .csrrci⟩,
  ⟨0xf800707f, 0x202f, .amoaddW⟩,
  ⟨0xf800707f, 0x4000202f, .amoorW⟩,
  ⟨0xf800707f, 0x6000202f, .amoandW⟩,
  ⟨0xf800707f, 0x2000202f, .amoxorW⟩,
  ⟨0xf800707f, 0x800202f, .amoswapW⟩,
  ⟨0xf9f0707f, 0x1000202f, .lr⟩,
  ⟨0xf800707f, 0x1800202f, .sc⟩,
  ⟨0xfe007fff, 0x12000073, .sfenceVma⟩,
  ⟨0xfe00707f, 0x2000033, .mul⟩,
  ⟨0xfe00707f, 0x2001033, .mulh⟩,
  ⟨0xfe00707f, 0x2002033, .mulhsu⟩,
  ⟨0xfe00707f, 0x2003033, .mulhu⟩,
  ⟨0xfe00707f, 0x2004033, .opDiv⟩,
  ⟨0xfe00707f, 0x2005033, .divu⟩,
  ⟨0xfe00707f, 0x2006033, .rem⟩,
  ⟨0xfe00707f, 0x2007033, .remu⟩]

def select (word : Word) : Option Op :=
  (insMatches.find? fun entry => word &&& entry.mask = entry.value).map InsMatch.op

/-- The call `HANDLER(state, instruction)`, of the function with an underscore. -/
def line (op : Op) (pc word : Word) : Line :=
  match op with
  | .add => add word
  | .addi => addi word
  | .and => and word
  | .andi => andi word
  | .auipc => auipc word
  | .beq => beq pc word
  | .bge => bge pc word
  | .bgeu => bgeu pc word
  | .blt => blt pc word
  | .bltu => bltu pc word
  | .bne => bne pc word
  | .ebreak => ebreak
  | .ecall => ecall
  | .fence => fence
  | .fencei => fencei
  | .jal => jal pc word
  | .jalr => jalr word
  | .lb => lb word
  | .lbu => lbu word
  | .lh => lh word
  | .lhu => lhu word
  | .lui => lui word
  | .lw => lw word
  | .or => or word
  | .ori => ori word
  | .sb => sb word
  | .sh => sh word
  | .sll => sll word
  | .slli => slli word
  | .slt => slt word
  | .slti => slti word
  | .sltiu => sltiu word
  | .sltu => sltu word
  | .sra => sra word
  | .srai => srai word
  | .srl => srl word
  | .srli => srli word
  | .sub => sub word
  | .sw => sw word
  | .xor => xor word
  | .xori => xori word
  | .wfi => wfi
  | .mret => mret
  | .sret => sret
  | .uret => uret
  | .csrrs => csrrs word
  | .csrrw => csrrw word
  | .csrrc => csrrc word
  | .csrrsi => csrrsi word
  | .csrrwi => csrrwi word
  | .csrrci => csrrci word
  | .amoaddW => amoaddW word
  | .amoorW => amoorW word
  | .amoandW => amoandW word
  | .amoxorW => amoxorW word
  | .amoswapW => amoswapW word
  | .lr => lr word
  | .sc => sc word
  | .sfenceVma => sfenceVma
  | .mul => mul word
  | .mulh => mulh word
  | .mulhsu => mulhsu word
  | .mulhu => mulhu word
  | .opDiv => opDiv word
  | .divu => divu word
  | .rem => rem word
  | .remu => remu word

/-- `%8X`. -/
def hexPadded (value : Word) : Text := (writeUpper 16 value.toNat).leftpad 8 ' '

def unknownText (word : Word) : Text := "Unknown instruction: ".toList ++ hexPadded word ++ " \n".toList

def disassembleOp (word offset : Word) : Text :=
  match select word with
  | some op => (line op offset word).text
  | none => unknownText word

/-- `beq a1, zero, 12` at `0x80000000`. -/
example : disassembleOp 0x00058663 0x80000000 = "beqz\ta1,0x8000000c\n".toList := by decide +kernel

end Emuriscv.Disassembler
