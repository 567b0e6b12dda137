import Emuriscv.State

/-! Trap entry of `cpu_exception.c` and the privileged instructions of `cpu_prv.c`.
`raise_exception` starts its new `mstatus` from `state->status`, the run status. -/
namespace Emuriscv

def mstatusSie : Word := 0x00000002
def mstatusMie : Word := 0x00000008
def mstatusSpie : Word := 0x00000020
def mstatusMpie : Word := 0x00000080
def mstatusSpp : Word := 0x00000100
def mstatusMpp : Word := 0x00001800
def mstatusFs : Word := 0x00006000
def mstatusXs : Word := 0x00018000
def mstatusSum : Word := 0x00040000
def mstatusMxr : Word := 0x00080000
def mstatusTsr : Word := 0x00400000
def mstatus32Sd : Word := 0x80000000

def getField (reg mask : Word) : Word := (reg &&& mask) / (mask &&& ~~~(mask <<< 1))

def setField (reg mask val : Word) : Word :=
  (reg &&& ~~~mask) ||| ((val * (mask &&& ~~~(mask <<< 1))) &&& mask)

/-- Is the trap delegated by `medeleg`, or by `mideleg` for an interrupt? -/
def delegateToSMode (s : State) (cause : Word) : Bool :=
  let interruptBit : Word := (1 : Word) <<< (xlen - 1)
  let interrupt := cause &&& interruptBit ≠ 0
  let deleg := readCsr s (if interrupt then csrMideleg else csrMedeleg)
  let bit := if interrupt then cause &&& ~~~interruptBit else cause
  decide (bit < BitVec.ofNat 32 xlen) && decide ((deleg >>> bit.toNat) &&& 1 ≠ 0)

/-- The value trap entry to S mode stores in `mstatus`. -/
def sTrapStatus (s : State) : Word :=
  let status := s.status.toWord
  let status := setField status mstatusSpie (getField status mstatusSie)
  let status := setField status mstatusSpp s.privilege
  setField status mstatusSie 0

/-- The value trap entry to M mode stores in `mstatus`. -/
def mTrapStatus (s : State) : Word :=
  let status := s.status.toWord
  let status := setField status mstatusMpie (getField status mstatusMie)
  let status := setField status mstatusMpp s.privilege
  setField status mstatusMie 0

/-- The branch of `raise_exception` taken when the trap goes to S mode. -/
def trapsToSMode (s : State) (cause : Word) : Bool :=
  s.privilege.sle privS && delegateToSMode s cause

def clearPending (s : State) : State :=
  { s with pendingException := 0, pendingTval := 0, hasPendingException := false }

def raiseException (s : State) (cause tval : Word) : State :=
  let s := { s with traps := ⟨s.pc,cause,tval⟩ :: s.traps }
  if trapsToSMode s cause then
    let s := writeCsr s csrSepc (s.pc - 4)
    let s := writeCsr s csrScause cause
    let s := writeCsr s csrStval tval
    let s := { s with pc := readCsr s csrStvec }
    let s := writeCsr s csrMstatus (sTrapStatus s)
    clearPending { s with privilege := privS }
  else
    let s := writeCsr s csrMcause cause
    let s := writeCsr s csrMepc (s.pc - 4)
    let s := writeCsr s csrMtval tval
    let s := { s with pc := readCsr s csrMtvec }
    let s := writeCsr s csrMstatus (mTrapStatus s)
    clearPending { s with privilege := privM }

def mret (s : State) : Except Stop State :=
  if s.privilege ≠ privM then throw (.exit exitIllegalMret)
  else
    let s := { s with pc := readCsr s csrMepc }
    let status := readCsr s csrMstatus
    let prevPrv := getField status mstatusMpp
    let status := setField status mstatusMie (getField status mstatusMpie)
    let status := setField status mstatusMpie 1
    let status := setField status mstatusMpp privU
    let s := { s with privilege := prevPrv }
    pure (writeCsr s csrMstatus status)

def sret (s : State) : Except Stop State :=
  let tsr := getField (readCsr s csrMstatus) mstatusTsr
  let requiredPrivilege := if tsr ≠ 0 then privM else privS
  if s.privilege ≠ requiredPrivilege then throw (.exit exitIllegalSret)
  else
    let s := { s with pc := readCsr s csrSepc }
    let status := readCsr s csrMstatus
    let previousPrivilege := getField status mstatusSpp
    let status := setField status mstatusSie (getField status mstatusSpie)
    let status := setField status mstatusSpie 1
    let status := setField status mstatusSpp privU
    let s := { s with privilege := previousPrivilege }
    pure (writeCsr s csrMstatus status)

def uret (s : State) : State := { s with pc := readCsr s csrUepc }

/-- A fence is a no-op: there is one hart and nothing is cached. -/
def sfenceVma (s : State) : State := s

def wfi (_ : State) : Except Stop State := throw (.exit exitWfi)

end Emuriscv
