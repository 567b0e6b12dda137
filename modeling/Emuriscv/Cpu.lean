import Emuriscv.Multiply
import Emuriscv.Zicsr
import Emuriscv.Atomic
import Emuriscv.Ecall

/-! One step of the machine: `emulate_op` of `cpu.c`. The chain of `INS_MATCH` tests is a
table in source order; an `Op` names the handler of an entry. -/
namespace Emuriscv

inductive Op where
  | add | addi | and | andi | auipc | beq | bge | bgeu | blt | bltu | bne | ebreak | ecall
  | fence | fencei | jal | jalr | lb | lbu | lh | lhu | lui | lw | or | ori | sb | sh | sll
  | slli | slt | slti | sltiu | sltu | sra | srai | srl | srli | sub | sw | xor | xori | wfi
  | mret | sret | uret | csrrs | csrrw | csrrc | csrrsi | csrrwi | csrrci | amoaddW | amoorW
  | amoandW | amoxorW | amoswapW | lr | sc | sfenceVma | mul | mulh | mulhsu | mulhu | opDiv
  | divu | rem | remu
  deriving DecidableEq, Repr

/-- `INS_MATCH(MASK, MATCH, HANDLER)`. -/
structure InsMatch where
  mask : Word
  value : Word
  op : Op

def insMatches : List InsMatch := [
  ⟨0xfe00707f, 0x33, .add⟩,
  ⟨0x707f, 0x13, .addi⟩,
  ⟨0xfe00707f, 0x7033, .and⟩,
  ⟨0x707f, 0x7013, .andi⟩,
  ⟨0x7f, 0x17, .auipc⟩,
  ⟨0x707f, 0x63, .beq⟩,
  ⟨0x707f, 0x5063, .bge⟩,
  ⟨0x707f, 0x7063, .bgeu⟩,
  ⟨0x707f, 0x4063, .blt⟩,
  ⟨0x707f, 0x6063, .bltu⟩,
  ⟨0x707f, 0x1063, .bne⟩,
  ⟨0xffffffff, 0x100073, .ebreak⟩,
  ⟨0xffffffff, 0x73, .ecall⟩,
  ⟨0x707f, 0xf, .fence⟩,
  ⟨0x707f, 0x100f, .fencei⟩,
  ⟨0x7f, 0x6f, .jal⟩,
  ⟨0x707f, 0x67, .jalr⟩,
  ⟨0x707f, 0x3, .lb⟩,
  ⟨0x707f, 0x4003, .lbu⟩,
  ⟨0x707f, 0x1003, .lh⟩,
  ⟨0x707f, 0x5003, .lhu⟩,
  ⟨0x7f, 0x37, .lui⟩,
  ⟨0x707f, 0x2003, .lw⟩,
  ⟨0xfe00707f, 0x6033, .or⟩,
  ⟨0x707f, 0x6013, .ori⟩,
  ⟨0x707f, 0x23, .sb⟩,
  ⟨0x707f, 0x1023, .sh⟩,
  ⟨0xfe00707f, 0x1033, .sll⟩,
  ⟨0xfc00707f, 0x1013, .slli⟩,
  ⟨0xfe00707f, 0x2033, .slt⟩,
  ⟨0x707f, 0x2013, .slti⟩,
  ⟨0x707f, 0x3013, .sltiu⟩,
  ⟨0xfe00707f, 0x3033, .sltu⟩,
  ⟨0xfe00707f, 0x40005033, .sra⟩,
  ⟨0xfc00707f, 0x40005013, .srai⟩,
  ⟨0xfe00707f, 0x5033, .srl⟩,
  ⟨0xfc00707f, 0x5013, .srli⟩,
  ⟨0xfe00707f, 0x40000033, .sub⟩,
  ⟨0x707f, 0x2023, .sw⟩,
  ⟨0xfe00707f, 0x4033, .xor⟩,
  ⟨0x707f, 0x4013, .xori⟩,
  ⟨0xffffffff, 0x10500073, .wfi⟩,
  ⟨0xffffffff, 0x30200073, .mret⟩,
  ⟨0xffffffff, 0x10200073, .sret⟩,
  ⟨0xffffffff, 0x200073, .uret⟩,
  ⟨0x707f, 0x2073, .csrrs⟩,
  ⟨0x707f, 0x1073, .csrrw⟩,
  ⟨0x707f, 0x3073, .csrrc⟩,
  ⟨0x707f, 0x6073, .csrrsi⟩,
  ⟨0x707f, 0x5073, .csrrwi⟩,
  ⟨0x707f, 0x7073, .csrrci⟩,
  ⟨0xf800707f, 0x202f, .amoaddW⟩,
  ⟨0xf800707f, 0x4000202f, .amoorW⟩,
  ⟨0xf800707f, 0x6000202f, .amoandW⟩,
  ⟨0xf800707f, 0x2000202f, .amoxorW⟩,
  ⟨0xf800707f, 0x800202f, .amoswapW⟩,
  ⟨0xf9f0707f, 0x1000202f, .lr⟩,
  ⟨0xf800707f, 0x1800202f, .sc⟩,
  ⟨0xfe007fff, 0x12000073, .sfenceVma⟩,
  ⟨0xfe00707f, 0x2000033, .mul⟩,
  ⟨0xfe00707f, 0x2001033, .mulh⟩,
  ⟨0xfe00707f, 0x2002033, .mulhsu⟩,
  ⟨0xfe00707f, 0x2003033, .mulhu⟩,
  ⟨0xfe00707f, 0x2004033, .opDiv⟩,
  ⟨0xfe00707f, 0x2005033, .divu⟩,
  ⟨0xfe00707f, 0x2006033, .rem⟩,
  ⟨0xfe00707f, 0x2007033, .remu⟩]

/-- The first entry whose test accepts the word. -/
def decode (instruction : Word) : Option Op :=
  (insMatches.find? fun entry => instruction &&& entry.mask = entry.value).map InsMatch.op

/-- The call `HANDLER(state, instruction)`. -/
def execute [Platform] (op : Op) (s : State) (instruction : WordPtr) : Except Stop State :=
  match op with
  | .add => pure (Handler.add s instruction)
  | .addi => pure (Handler.addi s instruction)
  | .and => pure (Handler.and s instruction)
  | .andi => pure (Handler.andi s instruction)
  | .auipc => pure (Handler.auipc s instruction)
  | .beq => pure (Handler.beq s instruction)
  | .bge => pure (Handler.bge s instruction)
  | .bgeu => pure (Handler.bgeu s instruction)
  | .blt => pure (Handler.blt s instruction)
  | .bltu => pure (Handler.bltu s instruction)
  | .bne => pure (Handler.bne s instruction)
  | .ebreak => pure (Handler.ebreak s)
  | .ecall => ecall s
  | .fence => pure (Handler.fence s)
  | .fencei => pure (Handler.fencei s)
  | .jal => pure (Handler.jal s instruction)
  | .jalr => pure (Handler.jalr s instruction)
  | .lb => Handler.lb s instruction
  | .lbu => Handler.lbu s instruction
  | .lh => Handler.lh s instruction
  | .lhu => Handler.lhu s instruction
  | .lui => pure (Handler.lui s instruction)
  | .lw => Handler.lw s instruction
  | .or => pure (Handler.or s instruction)
  | .ori => pure (Handler.ori s instruction)
  | .sb => Handler.sb s instruction
  | .sh => Handler.sh s instruction
  | .sll => pure (Handler.sll s instruction)
  | .slli => Handler.slli s instruction
  | .slt => pure (Handler.slt s instruction)
  | .slti => pure (Handler.slti s instruction)
  | .sltiu => pure (Handler.sltiu s instruction)
  | .sltu => pure (Handler.sltu s instruction)
  | .sra => pure (Handler.sra s instruction)
  | .srai => Handler.srai s instruction
  | .srl => pure (Handler.srl s instruction)
  | .srli => Handler.srli s instruction
  | .sub => pure (Handler.sub s instruction)
  | .sw => Handler.sw s instruction
  | .xor => pure (Handler.xor s instruction)
  | .xori => pure (Handler.xori s instruction)
  | .wfi => wfi s
  | .mret => mret s
  | .sret => sret s
  | .uret => pure (uret s)
  | .csrrs => pure (Handler.csrrs s instruction)
  | .csrrw => pure (Handler.csrrw s instruction)
  | .csrrc => pure (Handler.csrrc s instruction)
  | .csrrsi => pure (Handler.csrrsi s instruction)
  | .csrrwi => pure (Handler.csrrwi s instruction)
  | .csrrci => pure (Handler.csrrci s instruction)
  | .amoaddW => Handler.amoaddW s instruction
  | .amoorW => Handler.amoorW s instruction
  | .amoandW => Handler.amoandW s instruction
  | .amoxorW => Handler.amoxorW s instruction
  | .amoswapW => Handler.amoswapW s instruction
  | .lr => Handler.lr s instruction
  | .sc => Handler.sc s instruction
  | .sfenceVma => pure (sfenceVma s)
  | .mul => pure (Handler.mul s instruction)
  | .mulh => pure (Handler.mulh s instruction)
  | .mulhsu => pure (Handler.mulhsu s instruction)
  | .mulhu => pure (Handler.mulhu s instruction)
  | .opDiv => pure (Handler.opDiv s instruction)
  | .divu => pure (Handler.divu s instruction)
  | .rem => pure (Handler.rem s instruction)
  | .remu => pure (Handler.remu s instruction)

def shiftPcHistory (history : Fin pcHistoryDepth → Word) : Fin pcHistoryDepth → Word :=
  fun i => if h : i.val + 1 < pcHistoryDepth then history ⟨i.val + 1,h⟩ else history i

/-- The end of a step whose instruction was dispatched. -/
def finishOp (s : State) : State :=
  let s := { s with pcHistory := shiftPcHistory s.pcHistory }
  let s := if s.hasPendingException then raiseException s s.pendingException s.pendingTval else s
  let s := { s with pcHistory := Function.update s.pcHistory (Fin.last 7) s.pc }
  let s := { s with instructionCounter := s.instructionCounter + 1 }
  let s := writeCsr s csrTime s.instructionCounter
  writeCsr s csrCycle s.instructionCounter

/-- `*instruction` for the first time: the pointer must lead into a RAM buffer, with all
four bytes inside. -/
def codePtr (s : State) (target : MemoryTarget) : Except Stop WordPtr := do
  let ptr ← target.pointer
  match ptr.base with
  | none => throw .nullPointer
  | some buffer =>
    if ptr.offset + 3 < s.bufferSize buffer then pure ⟨buffer,ptr.offset⟩ else throw .outOfBounds

def emulateOp [Platform] (s : State) : Except Stop State := do
  let l ← getMemoryTarget s s.pc .fetch
  let s := { l.state with pc := l.state.pc + 4 }
  if l.status ≠ translateOk then
    pure (raiseException s s.pendingException s.pendingTval)
  else
    let instruction ← codePtr s l.target
    match decode (deref s instruction) with
    | some op =>
      let s ← execute op s instruction
      pure (finishOp s)
    | none => throw (.exit exitIllegalInstruction)

end Emuriscv
