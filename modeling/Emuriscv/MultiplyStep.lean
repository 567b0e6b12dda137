import Emuriscv.IntegerStep
import Emuriscv.Rv32m

/-! The instructions of the M extension: the words that the helpers compute are those of the exact
product, quotient and remainder, and which of their C products stay inside their type. -/
namespace Emuriscv

open Handler

/-- The high word depends on the product modulo `2 ^ 64` only. -/
theorem high_bmod (product : Int) : BitVec.ofInt 32 (product.bmod (2 ^ 64) / 2 ^ 32) =
    BitVec.ofInt 32 (product / 2 ^ 32) := by
  have parts : product.bmod (2 ^ 64) = product + (2 ^ 32 * 2 ^ 32) * -product.bdiv (2 ^ 64) := by
    have := Int.bmod_add_bdiv product (2 ^ 64)
    omega
  apply BitVec.eq_of_toInt_eq
  rw [BitVec.toInt_ofInt,BitVec.toInt_ofInt,parts,Int.mul_assoc,Int.add_mul_ediv_left _ _ (by decide)]
  exact Int.add_mul_bmod_self_left ..

/-- The product may wrap around in 64 bits; its high word is exact all the same. -/
theorem highWord_eq (a b : Quadword) :
    highWord a b = BitVec.ofInt 32 (a.toInt * b.toInt / 2 ^ 32) := by
  have shifted : ((a * b).sshiftRight 32).toInt = (a.toInt * b.toInt).bmod (2 ^ 64) / 2 ^ 32 := by
    rw [BitVec.toInt_sshiftRight,BitVec.toInt_mul]
    exact Int.shiftRight_eq_div_pow ..
  rw [← high_bmod,← shifted,highWord]
  apply BitVec.eq_of_toInt_eq
  rw [BitVec.toInt_ofInt,BitVec.toInt_setWidth]
  generalize (a * b).sshiftRight 32 = shifted
  rw [BitVec.toInt_eq_toNat_bmod,Int.bmod_bmod_of_dvd]
  decide

theorem zeroExtend_toInt (a : Word) : (a.setWidth 64).toInt = a.toNat := by
  have bound := a.isLt
  rw [BitVec.toInt_eq_toNat_of_lt,BitVec.toNat_setWidth_of_le (by decide)]
  rw [BitVec.toNat_setWidth_of_le (by decide)]
  omega

theorem mul32_eq (a b : Word) : mul32 a b = Rv32m.Product.mul.result a b := by
  apply BitVec.eq_of_toInt_eq
  rw [mul32,BitVec.toInt_mul]
  exact (BitVec.toInt_ofInt ..).symm

theorem mulh32_eq (a b : Word) : mulh32 a b = Rv32m.Product.mulh.result a b := by
  rw [mulh32,highWord_eq,BitVec.toInt_signExtend_of_le (by decide),
    BitVec.toInt_signExtend_of_le (by decide)]
  rfl

theorem mulhsu32_eq (a b : Word) : mulhsu32 a b = Rv32m.Product.mulhsu.result a b := by
  rw [mulhsu32,highWord_eq,BitVec.toInt_signExtend_of_le (by decide),zeroExtend_toInt]
  rfl

theorem mulhu32_eq (a b : Word) : mulhu32 a b = Rv32m.Product.mulhu.result a b := by
  rw [mulhu32,highWord_eq,zeroExtend_toInt,zeroExtend_toInt]
  rfl

theorem sdiv_eq (a b : Word) : a.sdiv b = BitVec.ofInt 32 (a.toInt.tdiv b.toInt) := by
  apply BitVec.eq_of_toInt_eq
  rw [BitVec.toInt_sdiv,BitVec.toInt_ofInt]

theorem srem_eq (a b : Word) : a.srem b = BitVec.ofInt 32 (a.toInt.tmod b.toInt) := by
  rw [← BitVec.toInt_srem,BitVec.ofInt_toInt]

theorem div32_eq (a b : Word) : div32 a b = Rv32m.Division.div.result a b := by
  unfold div32
  split
  next zero => exact (if_pos zero).symm
  next other =>
    rw [show Rv32m.Division.div.result a b = _ from if_neg other]
    split
    next both =>
      rw [both.1,both.2]
      decide
    next => exact sdiv_eq a b

theorem rem32_eq (a b : Word) : rem32 a b = Rv32m.Division.rem.result a b := by
  unfold rem32
  split
  next zero => exact (if_pos zero).symm
  next other =>
    rw [show Rv32m.Division.rem.result a b = _ from if_neg other]
    split
    next both =>
      rw [both.1,both.2]
      decide
    next => exact srem_eq a b

theorem divu32_eq (a b : Word) : divu32 a b = Rv32m.Division.divu.result a b := by
  unfold divu32
  split
  next zero => exact (if_pos zero).symm
  next other =>
    rw [show Rv32m.Division.divu.result a b = _ from if_neg other,← BitVec.toNat_udiv,
      BitVec.ofNat_toNat,BitVec.setWidth_eq]

theorem remu32_eq (a b : Word) : remu32 a b = Rv32m.Division.remu.result a b := by
  unfold remu32
  split
  next zero => exact (if_pos zero).symm
  next other =>
    rw [show Rv32m.Division.remu.result a b = _ from if_neg other,← BitVec.toNat_umod,
      BitVec.ofNat_toNat,BitVec.setWidth_eq]

/-- As `cpu_m.c` computes them, quotient and remainder give back the dividend. -/
structure Divides (a b : Word) : Prop where
  signed : div32 a b * b + rem32 a b = a
  unsigned : divu32 a b * b + remu32 a b = a
  zero : b = 0 → div32 a b = -1 ∧ divu32 a b = -1 ∧ rem32 a b = a ∧ remu32 a b = a
  overflow : a = 0x80000000 → b = -1 → div32 a b = a ∧ rem32 a b = 0

theorem divides (a b : Word) : Divides a b := by
  constructor
  · rw [div32_eq,rem32_eq]
    exact Rv32m.signed_identity a b
  · rw [divu32_eq,remu32_eq]
    exact Rv32m.unsigned_identity a b
  · rintro rfl
    exact ⟨rfl,rfl,rfl,rfl⟩
  · rintro rfl rfl
    rw [div32_eq,rem32_eq]
    exact Rv32m.div_overflow

def Op.multiply : Op → Option Rv32m.Op
  | .mul => some (.product .mul)
  | .mulh => some (.product .mulh)
  | .mulhsu => some (.product .mulhsu)
  | .mulhu => some (.product .mulhu)
  | .opDiv => some (.division .div)
  | .divu => some (.division .divu)
  | .rem => some (.division .rem)
  | .remu => some (.division .remu)
  | _ => none

theorem registerOp_write (s : State) (instruction : WordPtr) (op op' : Word → Word → Word)
    (meaning : ∀ a b, op a b = op' a b) : Handler.registerOp op s instruction =
      { s with
        x := Rv32i.write s.x (Rv32i.rd (deref s instruction))
          (op' (s.x (Rv32i.rs1 (deref s instruction))) (s.x (Rv32i.rs2 (deref s instruction)))) } := by
  rw [Handler.registerOp,meaning,setRdValue_eq,writeX_eq,getRd_eq,getRs1Value,getRs2Value,getReg,
    getReg,getRs1_eq,getRs2_eq]

section Step

variable [Platform]

theorem execute_multiply {op : Op} (s : State) (instruction : WordPtr)
    (multiplies : op.multiply = some operation) :
    execute op s instruction = .ok { s with
      x := Rv32i.write s.x (Rv32i.rd (deref s instruction))
        (operation.result (s.x (Rv32i.rs1 (deref s instruction)))
          (s.x (Rv32i.rs2 (deref s instruction)))) } := by
  cases op <;> simp only [Op.multiply,Option.some.injEq,reduceCtorEq] at multiplies
  all_goals
    subst multiplies
    refine congrArg Except.ok ?_
  case mul => exact registerOp_write s instruction _ _ mul32_eq
  case mulh => exact registerOp_write s instruction _ _ mulh32_eq
  case mulhsu => exact registerOp_write s instruction _ _ mulhsu32_eq
  case mulhu => exact registerOp_write s instruction _ _ mulhu32_eq
  case opDiv => exact registerOp_write s instruction _ _ div32_eq
  case divu => exact registerOp_write s instruction _ _ divu32_eq
  case rem => exact registerOp_write s instruction _ _ rem32_eq
  case remu => exact registerOp_write s instruction _ _ remu32_eq

/-- A step writes the architecture's result to `rd`, whatever the registers are. -/
theorem emulateOp_multiply {s f : State} {p : WordPtr} {op : Op} (fetched : Fetches s f p op)
    (multiplies : op.multiply = some operation) :
    emulateOp s = .ok (finishOp { f with
      x := Rv32i.write f.x (Rv32i.rd (deref f p))
        (operation.result (f.x (Rv32i.rs1 (deref f p))) (f.x (Rv32i.rs2 (deref f p)))) }) ∧
      ∀ a b, Divides a b :=
  ⟨emulateOp_executed fetched (execute_multiply f p multiplies), divides⟩

/-- `mulhu x5, x6, x6` on the largest operands. -/
def productMachine : State :=
  { guest privM [0x026332b3] with
    pc := 0x80000000
    x := fun r => if r = 6 then -1 else 0 }

omit [Platform] in
theorem emulateOp_multiply_productMachine :
    @emulateOp clearingPlatform productMachine = .ok (finishOp { productMachine with
      pc := 0x80000004
      x := Rv32i.write productMachine.x 5 0xfffffffe }) ∧ ∀ a b, Divides a b := by
  let _ : Platform := clearingPlatform
  have direct : ¬Walks productMachine := fun walks => walks.1 rfl
  have located : wordLocation productMachine.memoryMap productMachine.pc = some ⟨0,0⟩ := by decide
  have decoded : decode (deref productMachine ⟨0,0⟩) = some .mulhu := by decide
  have fetched := fetches_direct direct located decoded
  have word : deref { productMachine with pc := productMachine.pc + 4 } ⟨0,0⟩ = 0x026332b3 := by decide
  have value : (Rv32m.Op.product .mulhu).result (productMachine.x (Rv32i.rs1 0x026332b3))
      (productMachine.x (Rv32i.rs2 0x026332b3)) = 0xfffffffe := by decide
  have multiplies : Op.mulhu.multiply = some (.product .mulhu) := rfl
  obtain ⟨stepped,identities⟩ := emulateOp_multiply fetched multiplies
  rw [word,value] at stepped
  exact ⟨stepped,identities⟩

end Step

/-- Does the product that the helper forms leave its signed type? It is an `int32_t` in `mul32` and
an `int64_t` in the others, whose operands are widened first. -/
def productOverflows : Rv32m.Product → Word → Word → Bool
  | .mul, a, b => a.smulOverflow b
  | .mulh, a, b => (a.signExtend 64).smulOverflow (b.signExtend 64)
  | .mulhsu, a, b => (a.signExtend 64).smulOverflow (b.setWidth 64)
  | .mulhu, a, b => (a.setWidth 64).smulOverflow (b.setWidth 64)

/-- The operands are small enough. -/
def SmallOperands : Rv32m.Product → Word → Word → Prop
  | .mul, a, b => a.toInt.natAbs * b.toInt.natAbs < 2 ^ 31 ∨
      a.toInt.natAbs * b.toInt.natAbs = 2 ^ 31 ∧ (a.toInt < 0 ∧ 0 < b.toInt ∨ 0 < a.toInt ∧ b.toInt < 0)
  | .mulh, _, _ | .mulhsu, _, _ => True
  | .mulhu, a, b => a.toNat * b.toNat < 2 ^ 63

theorem smulOverflow_iff {w : Nat} (a b : BitVec w) : a.smulOverflow b = false ↔
    -2 ^ (w - 1) ≤ a.toInt * b.toInt ∧ a.toInt * b.toInt < 2 ^ (w - 1) := by
  rw [BitVec.smulOverflow]
  simp only [Bool.or_eq_false_iff,decide_eq_false_iff_not]
  omega

theorem word_natAbs (a : Word) : a.toInt.natAbs ≤ 2 ^ 31 := by
  have low := BitVec.le_toInt a
  have high : a.toInt < 2 ^ 31 := BitVec.toInt_lt
  omega

/-- Only a negative product may be as large as `n`. -/
theorem product_natAbs (a b : Int) (n : Nat) : -(n : Int) ≤ a * b ∧ a * b < n ↔
    a.natAbs * b.natAbs < n ∨ a.natAbs * b.natAbs = n ∧ (a < 0 ∧ 0 < b ∨ 0 < a ∧ b < 0) := by
  have negative : a * b < 0 ↔ a < 0 ∧ 0 < b ∨ 0 < a ∧ b < 0 := mul_neg_iff.trans or_comm
  rw [← Int.natAbs_mul,← negative]
  omega

theorem product_bound {a b : Int} {m n : Nat} (first : a.natAbs ≤ m) (second : b.natAbs ≤ n) :
    -((m * n : Nat) : Int) ≤ a * b ∧ a * b ≤ (m * n : Nat) := by
  have product : (a * b).natAbs ≤ m * n := by
    rw [Int.natAbs_mul]
    exact Nat.mul_le_mul first second
  omega

/-- A product is free of undefined overflow if and only if its operands are small enough. -/
theorem productOverflows_iff (product : Rv32m.Product) (a b : Word) :
    productOverflows product a b = false ↔ SmallOperands product a b := by
  have signedA := word_natAbs a
  have signedB := word_natAbs b
  have unsigned (c : Word) : (c.toNat : Int).natAbs ≤ 2 ^ 32 - 1 := by
    have := c.isLt
    omega
  cases product with
  | mul =>
    rw [productOverflows,smulOverflow_iff]
    exact product_natAbs a.toInt b.toInt (2 ^ 31)
  | mulh =>
    have bound := product_bound signedA signedB
    rw [productOverflows,smulOverflow_iff,BitVec.toInt_signExtend_of_le (by decide),
      BitVec.toInt_signExtend_of_le (by decide)]
    refine iff_of_true ?_ trivial
    omega
  | mulhsu =>
    have bound := product_bound signedA (unsigned b)
    rw [productOverflows,smulOverflow_iff,BitVec.toInt_signExtend_of_le (by decide),zeroExtend_toInt]
    refine iff_of_true ?_ trivial
    omega
  | mulhu =>
    rw [productOverflows,smulOverflow_iff,zeroExtend_toInt,zeroExtend_toInt,← Int.natCast_mul,
      SmallOperands]
    omega

/-- `65536 * 65536` in 32 bits, and the square of the largest unsigned operand in 64. -/
theorem largeOperands_overflow : productOverflows .mul 0x10000 0x10000 = true ∧
    productOverflows .mulhu 0xffffffff 0xffffffff = true := by
  decide

end Emuriscv
