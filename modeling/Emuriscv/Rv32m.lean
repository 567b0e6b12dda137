import Mathlib.Algebra.Ring.Int.Defs
import Mathlib.Tactic.Common

/-! The instructions of the M extension as the architecture describes them: words of the exact
product of two integers, and quotients that are rounded towards zero. -/
namespace Rv32m

abbrev Word := BitVec 32

inductive Product where
  | mul
  | mulh
  | mulhsu
  | mulhu
  deriving DecidableEq, Repr

/-- The product of the operands, each signed or unsigned. -/
def Product.exact : Product → Word → Word → Int
  | .mul, a, b | .mulh, a, b => a.toInt * b.toInt
  | .mulhsu, a, b => a.toInt * b.toNat
  | .mulhu, a, b => a.toNat * b.toNat

/-- The low or the high word of the product. -/
def Product.result : Product → Word → Word → Word
  | .mul, a, b => BitVec.ofInt 32 (Product.mul.exact a b)
  | .mulh, a, b => BitVec.ofInt 32 (Product.mulh.exact a b / 2 ^ 32)
  | .mulhsu, a, b => BitVec.ofInt 32 (Product.mulhsu.exact a b / 2 ^ 32)
  | .mulhu, a, b => BitVec.ofInt 32 (Product.mulhu.exact a b / 2 ^ 32)

inductive Division where
  | div
  | divu
  | rem
  | remu
  deriving DecidableEq, Repr

/-- By zero, all bits of the quotient are set and the remainder is the dividend. -/
def Division.result : Division → Word → Word → Word
  | .div, a, b => if b = 0 then -1 else BitVec.ofInt 32 (a.toInt.tdiv b.toInt)
  | .divu, a, b => if b = 0 then -1 else BitVec.ofNat 32 (a.toNat / b.toNat)
  | .rem, a, b => if b = 0 then a else BitVec.ofInt 32 (a.toInt.tmod b.toInt)
  | .remu, a, b => if b = 0 then a else BitVec.ofNat 32 (a.toNat % b.toNat)

inductive Op where
  | product (which : Product)
  | division (which : Division)
  deriving DecidableEq, Repr

def Op.result : Op → Word → Word → Word
  | .product which => which.result
  | .division which => which.result

/-- The only quotient that is no word. -/
theorem div_overflow : Division.div.result 0x80000000 (-1) = 0x80000000 ∧
    Division.rem.result 0x80000000 (-1) = 0 := by
  decide

theorem signed_identity (a b : Word) :
    Division.div.result a b * b + Division.rem.result a b = a := by
  simp only [Division.result]
  split
  next zero => simp [zero]
  next =>
    apply BitVec.eq_of_toInt_eq
    have exact : a.toInt.tdiv b.toInt * b.toInt + a.toInt.tmod b.toInt = a.toInt :=
      Int.tdiv_mul_add_tmod ..
    have wrapped : a.toInt.bmod (2 ^ 32) = a.toInt := BitVec.toInt_bmod_cancel a
    rw [BitVec.toInt_add,BitVec.toInt_mul,BitVec.toInt_ofInt,BitVec.toInt_ofInt]
    simpa [exact] using wrapped

theorem unsigned_identity (a b : Word) :
    Division.divu.result a b * b + Division.remu.result a b = a := by
  simp only [Division.result]
  split
  next zero => simp [zero]
  next =>
    apply BitVec.eq_of_toNat_eq
    have exact : a.toNat / b.toNat * b.toNat + a.toNat % b.toNat = a.toNat := Nat.div_add_mod' ..
    have bound := a.isLt
    simpa [exact] using bound

end Rv32m
