import Mathlib.Tactic.Common

/-! The integer instructions of RV32I as the architecture describes them: the fields of an
instruction word, the result of a computation, the condition and target of a transfer of
control. Registers are a function of their index, and a write to `x0` is dropped. -/
namespace Rv32i

abbrev Word := BitVec 32
abbrev Index := BitVec 5

def rd (word : Word) : Index := word.extractLsb' 7 5
def rs1 (word : Word) : Index := word.extractLsb' 15 5
def rs2 (word : Word) : Index := word.extractLsb' 20 5

def iImm (word : Word) : Word := (word.extractLsb' 20 12).signExtend 32

def sImm (word : Word) : Word := (word.extractLsb' 25 7 ++ word.extractLsb' 7 5).signExtend 32

/-- `imm[12|10:5]` and `imm[4:1|11]`, in units of two bytes. -/
def bImm (word : Word) : Word :=
  (word.extractLsb' 31 1 ++ word.extractLsb' 7 1 ++ word.extractLsb' 25 6 ++ word.extractLsb' 8 4 ++
    0#1).signExtend 32

/-- `imm[20|10:1|11|19:12]`, in units of two bytes. -/
def jImm (word : Word) : Word :=
  (word.extractLsb' 31 1 ++ word.extractLsb' 12 8 ++ word.extractLsb' 20 1 ++
    word.extractLsb' 21 10 ++ 0#1).signExtend 32

def uImm (word : Word) : Word := word.extractLsb' 12 20 ++ 0#12

inductive Arith where
  | add
  | sub
  | and
  | or
  | xor
  | sll
  | srl
  | sra
  | slt
  | sltu
  deriving DecidableEq, Repr

/-- A shift uses the five low bits of its second operand. -/
def Arith.eval : Arith → Word → Word → Word
  | .add, a, b => a + b
  | .sub, a, b => a - b
  | .and, a, b => a &&& b
  | .or, a, b => a ||| b
  | .xor, a, b => a ^^^ b
  | .sll, a, b => a <<< (b.toNat % 32)
  | .srl, a, b => a >>> (b.toNat % 32)
  | .sra, a, b => a.sshiftRight (b.toNat % 32)
  | .slt, a, b => if a.toInt < b.toInt then 1 else 0
  | .sltu, a, b => if a.toNat < b.toNat then 1 else 0

/-- The instructions that compute a register from registers and the word alone. -/
inductive Computation where
  | register (op : Arith)
  | immediate (op : Arith)
  | lui
  deriving DecidableEq, Repr

def Computation.result (computation : Computation) (x : Index → Word) (word : Word) : Word :=
  match computation with
  | .register op => op.eval (x (rs1 word)) (x (rs2 word))
  | .immediate op => op.eval (x (rs1 word)) (iImm word)
  | .lui => uImm word

/-- The registers after a result has been written to `rd`. -/
def write (x : Index → Word) (index : Index) (value : Word) : Index → Word :=
  fun r => if r = index ∧ r ≠ 0 then value else x r

/-- The last of two writes to one register counts. -/
theorem write_write (x : Index → Word) (index : Index) (first second : Word) :
    write (write x index first) index second = write x index second := by
  funext r
  simp only [write]
  split <;> rfl

inductive Condition where
  | eq
  | ne
  | lt
  | ge
  | ltu
  | geu
  deriving DecidableEq, Repr

def Condition.Holds : Condition → Word → Word → Prop
  | .eq, a, b => a = b
  | .ne, a, b => a ≠ b
  | .lt, a, b => a.toInt < b.toInt
  | .ge, a, b => b.toInt ≤ a.toInt
  | .ltu, a, b => a.toNat < b.toNat
  | .geu, a, b => b.toNat ≤ a.toNat

instance : (condition : Condition) → (a b : Word) → Decidable (condition.Holds a b)
  | .eq, a, b => inferInstanceAs (Decidable (a = b))
  | .ne, a, b => inferInstanceAs (Decidable (a ≠ b))
  | .lt, a, b => inferInstanceAs (Decidable (a.toInt < b.toInt))
  | .ge, a, b => inferInstanceAs (Decidable (b.toInt ≤ a.toInt))
  | .ltu, a, b => inferInstanceAs (Decidable (a.toNat < b.toNat))
  | .geu, a, b => inferInstanceAs (Decidable (b.toNat ≤ a.toNat))

/-- The instructions that read `pc`. -/
inductive Transfer where
  | branch (condition : Condition)
  | jal
  | auipc
  deriving DecidableEq, Repr

/-- The address of the next instruction. -/
def Transfer.target (transfer : Transfer) (x : Index → Word) (pc word : Word) : Word :=
  match transfer with
  | .branch condition =>
    if condition.Holds (x (rs1 word)) (x (rs2 word)) then pc + bImm word else pc + 4
  | .jal => pc + jImm word
  | .auipc => pc + 4

def Transfer.registers (transfer : Transfer) (x : Index → Word) (pc word : Word) : Index → Word :=
  match transfer with
  | .branch _ => x
  | .jal => write x (rd word) (pc + 4)
  | .auipc => write x (rd word) (pc + uImm word)

/-- `jalr` jumps to an even address. -/
def jalrTarget (x : Index → Word) (word : Word) : Word := (x (rs1 word) + iImm word) &&& ~~~1

end Rv32i
