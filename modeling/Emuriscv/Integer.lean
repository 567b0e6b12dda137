import Emuriscv.Memory
import Emuriscv.Register

/-! Base integer instructions of `cpu.c`. `state->pc` is already past the instruction, so
pc-relative handlers take the instruction length off again. -/
namespace Emuriscv.Handler

/-- `rd = op(rs1, rs2)`. -/
def registerOp (op : Word → Word → Word) (s : State) (instruction : WordPtr) : State :=
  setRdValue s instruction (op (getRs1Value s instruction) (getRs2Value s instruction))

/-- `rd = op(rs1, imm)`, the immediate being read from the instruction word by `imm`. -/
def immediateOp (imm : Word → Word) (op : Word → Word → Word) (s : State)
    (instruction : WordPtr) : State :=
  setRdValue s instruction (op (getRs1Value s instruction) (imm (deref s instruction)))

/-- A shift by the signed five-bit field; C leaves a negative count undefined. -/
def immediateShift (op : Word → Nat → Word) (s : State) (instruction : WordPtr) :
    Except Stop State :=
  let count := instructionIShiftShamt (deref s instruction)
  if count.toNat < 32 then
    pure (setRdValue s instruction (op (getRs1Value s instruction) count.toNat))
  else throw .shiftCount

def branch (taken : Word → Word → Bool) (s : State) (instruction : WordPtr) : State :=
  if taken (getRs1Value s instruction) (getRs2Value s instruction) then
    { s with pc := s.pc + (getBImm (deref s instruction) - instructionLengthBytes) }
  else s

/-- The guard keeps `rd` when the access left an exception pending. -/
def loadOp (read : State → Word → Except Stop (Word × State)) (s : State)
    (instruction : WordPtr) : Except Stop State := do
  let offset := getIImm (deref s instruction)
  let address := getRs1Value s instruction + offset
  let (value, s) ← read s address
  if s.pendingException ≠ 0 then pure s else pure (setRdValue s instruction value)

def storeOp (write : State → Word → Word → Except Stop State) (s : State)
    (instruction : WordPtr) : Except Stop State :=
  let offset := getSImm (deref s instruction)
  let value := getRs2Value s instruction
  let address := getRs1Value s instruction + offset
  write s address value

def shamtMask : Word := 0x1F

def add := registerOp (· + ·)
def sub := registerOp (· - ·)
def and := registerOp (· &&& ·)
def or := registerOp (· ||| ·)
def xor := registerOp (· ^^^ ·)
def sll := registerOp fun a b => a <<< (b &&& shamtMask).toNat
def srl := registerOp fun a b => a >>> (b &&& shamtMask).toNat
def sra := registerOp fun a b => a.sshiftRight (b &&& shamtMask).toNat
def slt := registerOp fun a b => if a.slt b then 1 else 0
def sltu := registerOp fun a b => if a < b then 1 else 0

def addi := immediateOp getIImm (· + ·)
def andi := immediateOp getIImm (· &&& ·)
def ori := immediateOp instructionIImm (· ||| ·)
def xori := immediateOp instructionIImm (· ^^^ ·)
def slti := immediateOp instructionIImm fun a b => if a.slt b then 1 else 0
def sltiu := immediateOp instructionIImm fun a b => if a < b then 1 else 0

def slli := immediateShift (· <<< ·)
def srli := immediateShift (· >>> ·)
def srai := immediateShift BitVec.sshiftRight

def lui (s : State) (instruction : WordPtr) : State :=
  setRdValue s instruction (instructionUData (deref s instruction) <<< 12)

def auipc (s : State) (instruction : WordPtr) : State :=
  let offset := instructionUData (deref s instruction) <<< 12
  let offset := offset + (s.pc - instructionLengthBytes)
  setRdValue s instruction offset

def beq := branch (· == ·)
def bne := branch (· != ·)
def blt := branch fun a b => a.slt b
def bge := branch fun a b => b.sle a
def bltu := branch fun a b => decide (a < b)
def bgeu := branch fun a b => decide (b ≤ a)

def jal (s : State) (instruction : WordPtr) : State :=
  let offset := getJImm (deref s instruction)
  let destination := s.pc + offset - instructionLengthBytes
  let returnAddress := s.pc
  { setRdValue s instruction returnAddress with pc := destination }

def jalr (s : State) (instruction : WordPtr) : State :=
  let offset := getIImm (deref s instruction)
  let destination := getRs1Value s instruction + offset
  let returnAddress := s.pc
  { setRdValue s instruction returnAddress with pc := destination }

def lb := loadOp readByteSigned
def lbu := loadOp readByteUnsigned
def lh := loadOp readHalfwordSigned
def lhu := loadOp readHalfwordUnsigned
def lw := loadOp readWord

def sb [Platform] := storeOp fun s address value => writeByte s address (value.setWidth 8)
def sh [Platform] := storeOp fun s address value => writeHalfword s address (value.setWidth 16)
def sw [Platform] := storeOp writeWord

def fence (s : State) : State := s
def fencei (s : State) : State := s

/-- Outside a debug build the handler is empty. -/
def ebreak (s : State) : State := s

end Emuriscv.Handler
