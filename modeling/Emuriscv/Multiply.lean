import Emuriscv.Integer

/-! The M extension of `cpu_m.c`, with C's signed products and quotients read as
two's-complement operations. -/
namespace Emuriscv.Handler

def mul32 (a b : Word) : Word := a * b

/-- `((int64_t)a * (int64_t)b) >> 32` on operands already widened to 64 bits. -/
def highWord (a b : Quadword) : Word := ((a * b).sshiftRight 32).setWidth 32

def mulh32 (a b : Word) : Word := highWord (a.signExtend 64) (b.signExtend 64)
def mulhsu32 (a b : Word) : Word := highWord (a.signExtend 64) (b.setWidth 64)
def mulhu32 (a b : Word) : Word := highWord (a.setWidth 64) (b.setWidth 64)

def div32 (a b : Word) : Word :=
  if b = 0 then -1 else if a = 0x80000000 ∧ b = -1 then a else a.sdiv b

def divu32 (a b : Word) : Word := if b = 0 then -1 else a / b

def rem32 (a b : Word) : Word :=
  if b = 0 then a else if a = 0x80000000 ∧ b = -1 then 0 else a.srem b

def remu32 (a b : Word) : Word := if b = 0 then a else a % b

def mul := registerOp mul32
def mulh := registerOp mulh32
def mulhsu := registerOp mulhsu32
def mulhu := registerOp mulhu32
def opDiv := registerOp div32
def divu := registerOp divu32
def rem := registerOp rem32
def remu := registerOp remu32

end Emuriscv.Handler
