import Mathlib.Algebra.Group.Nat.Defs
import Emuriscv.Memory
import Emuriscv.Exception

/-! `ecall` of `cpu_ecall.c` in the Linux build, with the default tracing of user calls,
and the string dump of `monitor.c` that the tracing uses. -/
namespace Emuriscv

/-- `dump_data_as_string_check_terminated`, without the printing. -/
def dataTerminated (data : Word) : Bool :=
  (data >>> 24) &&& 0xFF = 0 ∨ (data >>> 16) &&& 0xFF = 0 ∨ (data >>> 8) &&& 0xFF = 0 ∨
    data &&& 0xFF = 0

/-- `rounds` iterations of the dump loop; it translates once itself and once more in
`read_word`. -/
def dumpStringLoop (s : State) (address : Word) : Nat → Except Stop State
  | 0 => throw .diverges
  | rounds + 1 => do
    let l ← getMemoryTarget s address .load
    if l.status ≠ translateOk then pure l.state
    else
      let (data, s) ← readWord l.state address
      if dataTerminated data then pure s
      else dumpStringLoop s (address + wordSize) rounds

/-- The loop has no bound of its own. After `2 ^ 30` rounds it has visited every address
it ever visits, with all page-table flags set and no zero byte found, and repeats. -/
def dumpStringVirtual (s : State) (startAddress : Word) : Except Stop State :=
  dumpStringLoop s startAddress (2 ^ 30)

def regA (n : Nat) : RegisterIndex := BitVec.ofNat 5 (10 + n)

/-- The block compiled in unless `NO_TRACE_ECALLS` is defined. The two calls that start the monitor are
not completed here, without anybody who types. -/
def traceEcall (s : State) : Except Stop State :=
  if s.privilege = privU then
    let nr := s.x (regA 7)
    if nr = 56 ∨ nr = 48 ∨ nr = 291 ∨ nr = 78 then dumpStringVirtual s (s.x (regA 1))
    else if nr = 422 ∨ nr = 98 then throw .monitor
    else pure s
  else pure s

def ecallCause (s : State) : Word :=
  if s.privilege = privM then causeMachineEcall
  else if s.privilege = privS then causeSupervisorEcall
  else if s.privilege = privU then causeUserEcall
  else s.pendingException

/-- The rest of `ecall`, which is all of it when `NO_TRACE_ECALLS` is defined. -/
def raiseEcall (s : State) : State :=
  let s := { s with pendingException := ecallCause s }
  raiseException s s.pendingException s.pendingTval

def ecall (s : State) : Except Stop State := do
  let s ← traceEcall s
  pure (raiseEcall s)

end Emuriscv
