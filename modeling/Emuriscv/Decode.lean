import Emuriscv.State

/-! Instruction fields: the macros of `cpu.h`, the immediates of `decode.c`, and the
signed bit-fields of `instruction.h`, allocated from the least significant bit. -/
namespace Emuriscv

def getRd (instruction : Word) : RegisterIndex := ((instruction >>> 7) &&& 0x1F).setWidth 5
def getRs1 (instruction : Word) : RegisterIndex := ((instruction >>> 15) &&& 0x1F).setWidth 5
def getRs2 (instruction : Word) : RegisterIndex := ((instruction >>> 20) &&& 0x1F).setWidth 5
def getCsrImm (instruction : Word) : Word := (instruction >>> 15) &&& 0x1F

/-- `rd` is read from bits 7 to 11 alone. -/
theorem getRd_congr {a b : Word} (same : ∀ i, 7 ≤ i → i < 12 → a.getLsbD i = b.getLsbD i) :
    getRd a = getRd b := by
  have mask : (0x1F : Word) = (BitVec.allOnes 5).setWidth 32 := rfl
  apply BitVec.eq_of_getLsbD_eq
  intro i bound
  rw [getRd,getRd,mask]
  simp [bound,same (7 + i) (by omega) (by omega)]

def bextr (src : Word) (start len : Nat) : Word := (src >>> start) &&& (((1 : Word) <<< len) - 1)

def immSign (value : Word) : Word := if bextr value 31 1 = 1 then -1 else 0

def getBImm (value : Word) : Word :=
  (bextr value 8 4 <<< 1) + (bextr value 25 6 <<< 5) + (bextr value 7 1 <<< 11) +
    (immSign value <<< 12)

def getIImmUnsigned (value : Word) : Word := value >>> 20

def getIImm (value : Word) : Word :=
  let val := bextr value 20 12
  if bextr value 31 1 = 1 then val ||| 0xfffff000 else val

def getSImm (value : Word) : Word :=
  let val := bextr value 7 5 + (bextr value 25 7 <<< 5)
  if bextr value 31 1 = 1 then val ||| 0xfffff000 else val

def getJImm (value : Word) : Word :=
  let val := (bextr value 21 10 <<< 1) + (bextr value 20 1 <<< 11) + (bextr value 12 8 <<< 12) +
    (bextr value 31 1 <<< 20)
  if bextr value 31 1 = 1 then val ||| 0xfff00000 else val

/-- A signed bit-field of `len` bits at `lo`, converted to `int`. -/
def bitField (instruction : Word) (lo len : Nat) : Word :=
  (instruction.extractLsb' lo len).signExtend 32

def instructionUData (instruction : Word) : Word := bitField instruction 12 20
def instructionIImm (instruction : Word) : Word := bitField instruction 20 12
def instructionIShiftShamt (instruction : Word) : Word := bitField instruction 20 5

/-- The number in the CSR field of a Zicsr instruction, as an index into `csr`. -/
def csrField (instruction : Word) : CsrNumber := (getIImmUnsigned instruction).setWidth 12

end Emuriscv
