import Mathlib.Logic.Function.Basic

/-! The emulated machine: the hart record of `state.h`, the memory map of
`memory_map.h`, and the objects their pointers lead to. A RAM range's `phys_mem_ptr`
is a buffer of its own, so buffers are indexed by the position of their range. -/
namespace Emuriscv

abbrev Byte := BitVec 8
abbrev Halfword := BitVec 16
abbrev Word := BitVec 32
abbrev Quadword := BitVec 64

abbrev CsrNumber := BitVec 12
abbrev RegisterIndex := BitVec 5

def xlen : Nat := 32
def instructionLengthBytes : Word := 4
def wordSize : Word := 4

def privM : Word := 3
def privReserved : Word := 2
def privS : Word := 1
def privU : Word := 0

inductive Status where
  | running
  | breakpoint
  | exitTermination
  deriving DecidableEq, Repr

/-- The enumeration constant as the `int` that C converts it to. -/
def Status.toWord : Status → Word
  | .running => 0
  | .breakpoint => 1
  | .exitTermination => 2

/-- Why a step has no next state: the process ends, the C behaviour is undefined,
an interactive session opens, or a loop never ends. -/
inductive Stop where
  | exit (code : Nat)
  | nullRange
  | nullPointer
  | uninitialized
  | outOfBounds
  | shiftCount
  | monitor
  | diverges
  deriving DecidableEq, Repr

def exitPoweroff : Nat := 0
def exitIllegalInstruction : Nat := 0x2
def exitIllegalMret : Nat := 0x3
def exitIllegalSret : Nat := 0x4
def exitWfi : Nat := 0x5
def exitInvalidSatpMode : Nat := 0x10
def exitUnsupportedReadSize : Nat := 0x11
def exitUnsupportedWriteSize : Nat := 0x12
def exitTooManyMemoryRanges : Nat := 0x13

def causeFetchAccess : Word := 0x1
def causeIllegalInstruction : Word := 0x2
def causeLoadAccess : Word := 0x5
def causeStoreAccess : Word := 0x7
def causeUserEcall : Word := 0x8
def causeSupervisorEcall : Word := 0x9
def causeMachineEcall : Word := 0xb
def causeFetchPageFault : Word := 0xc
def causeLoadPageFault : Word := 0xd
def causeStorePageFault : Word := 0xf

def csrSstatus : CsrNumber := 0x100
def csrStvec : CsrNumber := 0x105
def csrSepc : CsrNumber := 0x141
def csrScause : CsrNumber := 0x142
def csrStval : CsrNumber := 0x143
def csrSatp : CsrNumber := 0x180
def csrUepc : CsrNumber := 0x041
def csrMstatus : CsrNumber := 0x300
def csrMisa : CsrNumber := 0x301
def csrMedeleg : CsrNumber := 0x302
def csrMideleg : CsrNumber := 0x303
def csrMtvec : CsrNumber := 0x305
def csrMepc : CsrNumber := 0x341
def csrMcause : CsrNumber := 0x342
def csrMtval : CsrNumber := 0x343
def csrMip : CsrNumber := 0x344
def csrCycle : CsrNumber := 0xc00
def csrTime : CsrNumber := 0xc01
def csrTimeh : CsrNumber := 0xc81
def csrMhartid : CsrNumber := 0xf14

/-- The device callbacks of the program; a `DeviceReadFunc*` holds one of these. -/
inductive DeviceReadFunc where
  | clintRead
  | htifRead
  | uartRead
  deriving DecidableEq, Repr

inductive DeviceWriteFunc where
  | clintWrite
  | htifWrite
  | uartWrite
  deriving DecidableEq, Repr

structure MemoryRange where
  address : Word
  size : Word
  isRam : Bool
  readFunc : Option DeviceReadFunc
  writeFunc : Option DeviceWriteFunc
  deriving DecidableEq, Repr

/-- The first `n_phys_mem_range` entries of `phys_mem_range`, in order. -/
abbrev MemoryMap := List MemoryRange

structure RiscVMachine where
  htifTohost : Quadword
  htifFromhost : Quadword
  timecmp : Quadword
  cycles : Quadword
  deriving DecidableEq, Repr

/-- `uart_reg`, `uart_skipped`, and the characters `uart_write` put on `stderr`. -/
structure Uart where
  reg : Fin 7 → Word
  skipped : Quadword
  sent : List Byte

/-- One `taking trap` line of `raise_exception`: `pc` before the transfer, cause, tval. -/
structure Trap where
  pc : Word
  cause : Word
  tval : Word
  deriving DecidableEq, Repr

def pcHistoryDepth : Nat := 8

/-- The fields of `State`, followed by what its pointers reach (`ram`, `vm`, `uart`)
and by two output traces: bytes given to `console_write`, and traps, newest first. -/
structure State where
  pc : Word
  x : RegisterIndex → Word
  csr : CsrNumber → Word
  mhartid : Word
  status : Status
  memoryMap : MemoryMap
  instructionCounter : Word
  pendingTval : Word
  pendingException : Word
  hasPendingException : Bool
  privilege : Word
  loadReservation : Word
  pcHistory : Fin pcHistoryDepth → Word
  ram : Nat → Nat → Byte
  vm : RiscVMachine
  uart : Uart
  console : List Byte
  traps : List Trap

section Results

variable {α β : Type}

@[simp] theorem ok_bind (a : α) (f : α → Except Stop β) : (Except.ok a >>= f) = f a := rfl

@[simp] theorem error_bind (e : Stop) (f : α → Except Stop β) :
    (Except.error e >>= f) = .error e := rfl

@[simp] theorem pure_eq_ok (a : α) : (pure a : Except Stop α) = .ok a := rfl

@[simp] theorem throw_eq_error (e : Stop) : (throw e : Except Stop α) = .error e := rfl

/-- A sequence returns exactly when both of its parts do. -/
theorem bind_eq_ok {x : Except Stop α} {f : α → Except Stop β} {b : β} :
    (x >>= f) = .ok b ↔ ∃ a, x = .ok a ∧ f a = .ok b := by
  cases x <;> simp

theorem map_eq_ok {x : Except Stop α} {f : α → β} {b : β} :
    x.map f = .ok b ↔ ∃ a, x = .ok a ∧ f a = b := by
  cases x <;> simp [Except.map]

end Results

/-- `phys_mem_ptr + offset`; the base is a range's buffer, or NULL for a device range. -/
structure HostPtr where
  base : Option Nat
  offset : Nat
  deriving DecidableEq, Repr

def State.bufferSize (s : State) (buffer : Nat) : Nat :=
  match s.memoryMap[buffer]? with
  | some range => range.size.toNat
  | none => 0

/-- `*(p + k)` as a value. -/
def State.load (s : State) (p : HostPtr) (k : Nat) : Except Stop Byte :=
  match p.base with
  | none => throw .nullPointer
  | some buffer =>
    if p.offset + k < s.bufferSize buffer then pure (s.ram buffer (p.offset + k))
    else throw .outOfBounds

/-- `*(p + k) = value`. -/
def State.store (s : State) (p : HostPtr) (k : Nat) (value : Byte) : Except Stop State :=
  match p.base with
  | none => throw .nullPointer
  | some buffer =>
    if p.offset + k < s.bufferSize buffer then
      pure { s with
        ram := Function.update s.ram buffer (Function.update (s.ram buffer) (p.offset + k) value) }
    else throw .outOfBounds

/-- A little-endian word. -/
def wordAt (bytes : Nat → Byte) (offset : Nat) : Word :=
  (bytes offset).setWidth 32 ||| (bytes (offset + 1)).setWidth 32 <<< 8 |||
    (bytes (offset + 2)).setWidth 32 <<< 16 ||| (bytes (offset + 3)).setWidth 32 <<< 24

/-- A `word*` whose four bytes lie inside a RAM buffer. -/
structure WordPtr where
  buffer : Nat
  offset : Nat
  deriving DecidableEq, Repr

/-- `*p`, read from the bytes that are there now. -/
def deref (s : State) (p : WordPtr) : Word := wordAt (s.ram p.buffer) p.offset

theorem deref_congr {s t : State} (ram : t.ram = s.ram) : deref t = deref s := by
  funext p
  simp only [deref,ram]

def readCsr (s : State) (csr : CsrNumber) : Word := s.csr csr

def writeCsr (s : State) (csr : CsrNumber) (value : Word) : State :=
  { s with csr := Function.update s.csr csr value }

@[simp] theorem writeCsr_same (s : State) (csr : CsrNumber) (value : Word) :
    (writeCsr s csr value).csr csr = value := by simp [writeCsr]

theorem writeCsr_other (s : State) (csr other : CsrNumber) (value : Word) (h : other ≠ csr) :
    (writeCsr s csr value).csr other = s.csr other := by simp [writeCsr,h]

end Emuriscv
