import Emuriscv.BitField
import Emuriscv.Rv32ima
import Mathlib.Logic.Function.Basic

/-! The hart with its three modes, as the architecture describes it: environment calls and returns,
the CSRs that software finds as it left them, and the instructions on them. No address is
translated, and there are no interrupts. -/
namespace Rv32ima

open BitField (Field)
open Rv32i (Word Index rd rs1)

abbrev CsrNumber := BitVec 12

inductive Mode where
  | user
  | supervisor
  | machine
  deriving DecidableEq, Repr

def Mode.code : Mode → Word
  | .user => 0
  | .supervisor => 1
  | .machine => 3

def mstatus : CsrNumber := 0x300
def medeleg : CsrNumber := 0x302
def satp : CsrNumber := 0x180

/-- `TSR`, `TVM` and `MPRV`. -/
def trapSret : Nat := 22
def trapVirtual : Nat := 20
def modifyPrivilege : Nat := 17

/-- The two modes that handle traps. -/
inductive Level where
  | supervisor
  | machine
  deriving DecidableEq, Repr

namespace Level

def mode : Level → Mode
  | .supervisor => .supervisor
  | .machine => .machine

def tvec : Level → CsrNumber
  | .supervisor => 0x105
  | .machine => 0x305

def epc : Level → CsrNumber
  | .supervisor => 0x141
  | .machine => 0x341

def cause : Level → CsrNumber
  | .supervisor => 0x142
  | .machine => 0x342

def tval : Level → CsrNumber
  | .supervisor => 0x143
  | .machine => 0x343

/-- `xIE` -/
def enable : Level → Field 32
  | .supervisor => .bit ⟨1,by decide⟩
  | .machine => .bit ⟨3,by decide⟩

/-- `xPIE` -/
def previous : Level → Field 32
  | .supervisor => .bit ⟨5,by decide⟩
  | .machine => .bit ⟨7,by decide⟩

theorem machinePrivilege_inside : 11 + 2 ≤ 32 := by decide

/-- `xPP` -/
def privilege : Level → Field 32
  | .supervisor => .bit ⟨8,by decide⟩
  | .machine => ⟨11,2,Nat.two_pos,machinePrivilege_inside⟩

/-- `mstatus` after a trap from a mode. -/
def pushed (level : Level) (mode : Mode) (status : Word) : Word :=
  BitField.set (BitField.set (BitField.set status level.previous.mask
    (BitField.get status level.enable.mask)) level.privilege.mask mode.code) level.enable.mask 0

/-- `mstatus` after a return. -/
def popped (level : Level) (status : Word) : Word :=
  BitField.set (BitField.set (BitField.set status level.enable.mask
    (BitField.get status level.previous.mask)) level.previous.mask 1) level.privilege.mask Mode.user.code

end Level

inductive CsrKind where
  | write
  | set
  | clear
  deriving DecidableEq, Repr

structure CsrInstruction where
  kind : CsrKind
  immediate : Bool
  deriving DecidableEq, Repr

def csrNumber (word : Word) : CsrNumber := word.extractLsb' 20 12

def CsrInstruction.operand (instruction : CsrInstruction) (x : Index → Word) (word : Word) : Word :=
  if instruction.immediate then (word.extractLsb' 15 5).setWidth 32 else x (rs1 word)

def CsrKind.result : CsrKind → Word → Word → Word
  | .write, _, operand => operand
  | .set, old, operand => old ||| operand
  | .clear, old, operand => old &&& ~~~operand

/-- The CSRs of the trap handling, with `mscratch` and `sscratch`, and `satp`. -/
def kept : List CsrNumber :=
  [mstatus,medeleg,0x305,0x340,0x341,0x342,0x343,0x105,0x140,0x141,0x142,0x143,satp]

structure Core where
  mode : Mode
  hart : Hart
  csr : CsrNumber → Word

inductive Event where
  | instruction (which : Instruction)
  | csr (which : CsrInstruction)
  | call
  | ret (level : Level)
  deriving DecidableEq, Repr

namespace Core

/-- Addresses are physical: in M mode without `MPRV`, and with a bare `satp`. -/
def Direct (c : Core) : Prop :=
  c.mode = .machine ∧ (c.csr mstatus).getLsbD modifyPrivilege = false ∨ (c.csr satp).getLsbD 31 = false

/-- The mode may use the CSR. -/
structure Reaches (c : Core) (number : CsrNumber) : Prop where
  known : number ∈ kept
  mode : (number.extractLsb' 8 2).setWidth 32 ≤ c.mode.code
  virtual : number = satp → c.mode = .supervisor → (c.csr mstatus).getLsbD trapVirtual = false

/-- The mode may return from a trap of the level. -/
structure Permits (c : Core) (level : Level) : Prop where
  mode : level.mode.code ≤ c.mode.code
  trap : level = .supervisor → c.mode = .supervisor → (c.csr mstatus).getLsbD trapSret = false

def callCause (c : Core) : Word :=
  match c.mode with
  | .user => 8
  | .supervisor => 9
  | .machine => 11

/-- The level at which the trap is taken: `medeleg` counts below M mode. -/
def taker (c : Core) (cause : Word) : Level :=
  if c.mode ≠ .machine ∧ (c.csr medeleg).getLsbD cause.toNat = true then .supervisor else .machine

/-- A trap, with nothing in `xtval`. -/
def trap (c : Core) (level : Level) (cause : Word) : Core where
  mode := level.mode
  hart := { c.hart with pc := c.csr level.tvec }
  csr := Function.update (Function.update (Function.update (Function.update c.csr
    level.epc c.hart.pc) level.cause cause) level.tval 0) mstatus (level.pushed c.mode (c.csr mstatus))

def call (c : Core) : Core := c.trap (c.taker c.callCause) c.callCause

def returned (c : Core) (level : Level) (mode : Mode) : Core where
  mode := mode
  hart := { c.hart with pc := c.csr level.epc }
  csr := Function.update c.csr mstatus (level.popped (c.csr mstatus))

/-- The old value of the CSR goes into `rd`. -/
def exchange (c : Core) (instruction : CsrInstruction) (word : Word) : Core :=
  let old := c.csr (csrNumber word)
  { c with
    hart := c.hart.next word old
    csr := Function.update c.csr (csrNumber word)
      (instruction.kind.result old (instruction.operand c.hart.x word)) }

/-- What an instruction makes of the core, if the mode allows it. -/
inductive Effect (ram : Word → Nat → Prop) (c : Core) (word : Word) : Event → Core → Prop
  | instruction (completes : which.Completes ram c.hart word) :
      Effect ram c word (.instruction which) { c with hart := which.effect c.hart word }
  | csr (reaches : c.Reaches (csrNumber word)) :
      Effect ram c word (.csr which) (c.exchange which word)
  | call : Effect ram c word .call c.call
  | ret {mode : Mode} (permits : c.Permits level)
      (stacked : BitField.get (c.csr mstatus) level.privilege.mask = mode.code) :
      Effect ram c word (.ret level) (c.returned level mode)

/-- One instruction, in the word that the core finds at `pc`. Where a trap or a return leads, there
must be an aligned address. -/
structure Step (encodes : Event → Word → Prop) (ram : Word → Nat → Prop) (c : Core)
    (executed : Event × Word) (c' : Core) : Prop where
  direct : c.Direct
  fetch : ram c.hart.pc 4
  word : executed.2 = c.hart.wordAt c.hart.pc
  encoded : encodes executed.1 executed.2
  effect : c.Effect ram executed.2 executed.1 c'
  aligned : 4 ∣ c'.hart.pc.toNat

end Core

end Rv32ima
