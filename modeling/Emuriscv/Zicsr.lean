import Emuriscv.Register

/-! CSR instructions of `cpu_csr.c`, in the order in which each handler reads the CSR,
writes `rd` and reads its source register. -/
namespace Emuriscv.Handler

def csrrs (s : State) (instruction : WordPtr) : State :=
  let csr := csrField (deref s instruction)
  let s := setRdValue s instruction (readCsr s csr)
  let value := getRs1Value s instruction
  writeCsr s csr (readCsr s csr ||| value)

def csrrw (s : State) (instruction : WordPtr) : State :=
  let csr := csrField (deref s instruction)
  let oldValue := readCsr s csr
  let s := writeCsr s csr (getRs1Value s instruction)
  if getRd (deref s instruction) ≠ 0 then setRdValue s instruction oldValue else s

/-- `rd` receives the CSR unless it is `x0`. -/
def readCsrToRd (s : State) (instruction : WordPtr) (csr : CsrNumber) : State :=
  if getRd (deref s instruction) ≠ 0 then setRdValue s instruction (readCsr s csr) else s

def csrrc (s : State) (instruction : WordPtr) : State :=
  let csr := csrField (deref s instruction)
  let s := readCsrToRd s instruction csr
  let value := getRs1Value s instruction
  writeCsr s csr (readCsr s csr &&& ~~~value)

/-- The body clears the immediate's bits, as `csrrc` does with `rs1`. -/
def csrrwi (s : State) (instruction : WordPtr) : State :=
  let csr := csrField (deref s instruction)
  let s := readCsrToRd s instruction csr
  let value := getCsrImm (deref s instruction)
  writeCsr s csr (readCsr s csr &&& ~~~value)

def csrrsi (s : State) (instruction : WordPtr) : State :=
  let csr := csrField (deref s instruction)
  let s := setRdValue s instruction (s.csr csr)
  let value := getCsrImm (deref s instruction)
  if value ≠ 0 then writeCsr s csr (readCsr s csr ||| value) else s

def csrrci (s : State) (instruction : WordPtr) : State :=
  let csr := csrField (deref s instruction)
  let s := readCsrToRd s instruction csr
  let value := getCsrImm (deref s instruction)
  if value ≠ 0 then writeCsr s csr (readCsr s csr &&& ~~~value) else s

end Emuriscv.Handler

namespace Emuriscv

inductive CsrOp where
  | csrrs
  | csrrw
  | csrrc
  | csrrsi
  | csrrwi
  | csrrci
  deriving DecidableEq, Repr

def CsrOp.handler : CsrOp → State → WordPtr → State
  | .csrrs => Handler.csrrs
  | .csrrw => Handler.csrrw
  | .csrrc => Handler.csrrc
  | .csrrsi => Handler.csrrsi
  | .csrrwi => Handler.csrrwi
  | .csrrci => Handler.csrrci

/-- The CSR number of the instruction a handler is given. -/
def csrNumber (s : State) (instruction : WordPtr) : CsrNumber := csrField (deref s instruction)

/-- The second operand of a CSR instruction. Where `rd` is `rs1`, the two handlers that
write `rd` first use its new value. -/
def csrOperand (op : CsrOp) (s : State) (instruction : WordPtr) : Word :=
  let word := deref s instruction
  match op with
  | .csrrs | .csrrc => writeX s.x (getRd word) (readCsr s (csrNumber s instruction)) (getRs1 word)
  | .csrrw => getRs1Value s instruction
  | .csrrsi | .csrrwi | .csrrci => getCsrImm word

/-- What a CSR instruction leaves in its CSR. -/
def csrWritten (op : CsrOp) (s : State) (instruction : WordPtr) : Word :=
  let old := readCsr s (csrNumber s instruction)
  let operand := csrOperand op s instruction
  match op with
  | .csrrs | .csrrsi => old ||| operand
  | .csrrw => operand
  | .csrrc | .csrrwi | .csrrci => old &&& ~~~operand

theorem readCsrToRd_eq (s : State) (instruction : WordPtr) (csr : CsrNumber) :
    Handler.readCsrToRd s instruction csr =
      { s with x := writeX s.x (getRd (deref s instruction)) (readCsr s csr) } := by
  unfold Handler.readCsrToRd
  split
  next => exact setRdValue_eq ..
  next zero => rw [writeX,if_pos (not_not.mp zero)]

theorem csrHandler_csr (op : CsrOp) (s : State) (instruction : WordPtr) :
    (op.handler s instruction).csr =
      Function.update s.csr (csrNumber s instruction) (csrWritten op s instruction) := by
  cases op with
  | csrrs =>
    simp only [CsrOp.handler,Handler.csrrs,setRdValue_eq]
    rfl
  | csrrw =>
    simp only [CsrOp.handler,Handler.csrrw]
    split
    next => rw [setRdValue_eq]; rfl
    next => rfl
  | csrrc =>
    simp only [CsrOp.handler,Handler.csrrc,readCsrToRd_eq]
    rfl
  | csrrsi =>
    simp only [CsrOp.handler,Handler.csrrsi,setRdValue_eq]
    split
    next => rfl
    next zero =>
      have imm : getCsrImm (deref s instruction) = 0 := not_not.mp zero
      have kept : csrWritten .csrrsi s instruction = readCsr s (csrNumber s instruction) := by
        simp [csrWritten,csrOperand,imm]
      rw [kept]
      exact (Function.update_eq_self ..).symm
  | csrrwi =>
    simp only [CsrOp.handler,Handler.csrrwi,readCsrToRd_eq]
    rfl
  | csrrci =>
    simp only [CsrOp.handler,Handler.csrrci,readCsrToRd_eq]
    split
    next => rfl
    next zero =>
      have imm : getCsrImm (deref s instruction) = 0 := not_not.mp zero
      have kept : csrWritten .csrrci s instruction = readCsr s (csrNumber s instruction) := by
        simp only [csrWritten,csrOperand,imm,BitVec.ofNat_eq_ofNat,BitVec.not_zero,BitVec.and_allOnes]
      rw [kept]
      exact (Function.update_eq_self ..).symm

/-- Apart from its CSR, a CSR instruction writes registers only. -/
theorem csrHandler_rest (op : CsrOp) (s : State) (instruction : WordPtr) :
    op.handler s instruction = { s with
      x := (op.handler s instruction).x
      csr := (op.handler s instruction).csr } := by
  cases op with
  | csrrs => simp only [CsrOp.handler,Handler.csrrs,setRdValue_eq,writeCsr]
  | csrrw =>
    simp only [CsrOp.handler,Handler.csrrw]
    split
    next => rw [setRdValue_eq]; rfl
    next => rfl
  | csrrc => simp only [CsrOp.handler,Handler.csrrc,readCsrToRd_eq,writeCsr]
  | csrrsi =>
    simp only [CsrOp.handler,Handler.csrrsi,setRdValue_eq]
    split
    next => rfl
    next => rfl
  | csrrwi => simp only [CsrOp.handler,Handler.csrrwi,readCsrToRd_eq,writeCsr]
  | csrrci =>
    simp only [CsrOp.handler,Handler.csrrci,readCsrToRd_eq]
    split
    next => rfl
    next => rfl

end Emuriscv
