import Emuriscv.BitField
import Mathlib.Data.Nat.Find

/-! Masks whose set bits have no gap are the masks of the fields, and a field is as long as its
mask has bits. The laws of reading and writing under a mask follow without a look at where the
bits are. -/
namespace BitField

variable {w : Nat} {mask : BitVec w}

/-- No bit between two set ones is clear. -/
structure Contiguous (mask : BitVec w) : Prop where
  nonzero : mask ≠ 0
  filled : ∀ i j k, i ≤ j → j ≤ k → mask.getLsbD i = true → mask.getLsbD k = true →
    mask.getLsbD j = true

theorem contiguous_mask (f : Field w) : Contiguous f.mask where
  nonzero := by
    intro zero
    have bit := mask_bit f f.lo
    simp [zero,f.positive] at bit
  filled := by
    intro i j k low high first last
    simp only [mask_bit,Bool.and_eq_true,decide_eq_true_eq] at first last ⊢
    omega

/-- The field goes from the lowest set bit to the highest one. -/
theorem Contiguous.field (contiguous : Contiguous mask) : ∃ f : Field w, mask = f.mask := by
  obtain ⟨nonzero,filled⟩ := contiguous
  have here : ∃ i, mask.getLsbD i = true := by
    by_contra none
    refine nonzero (BitVec.eq_of_getLsbD_eq fun i _ => ?_)
    exact (Bool.eq_false_iff.mpr fun set => none ⟨i,set⟩).trans BitVec.getLsbD_zero.symm
  have lowest := Nat.find_spec here
  have least i (set : mask.getLsbD i = true) : Nat.find here ≤ i := Nat.find_min' here set
  have inside := BitVec.lt_of_getLsbD lowest
  have highest := Nat.findGreatest_spec (P := fun i => mask.getLsbD i = true) (Nat.le_of_lt inside) lowest
  have ordered := least _ highest
  have greatest i (set : mask.getLsbD i = true) : i ≤ Nat.findGreatest (fun i => mask.getLsbD i = true) w :=
    Nat.le_findGreatest (Nat.le_of_lt (BitVec.lt_of_getLsbD set)) set
  generalize Nat.find here = lo at *
  generalize Nat.findGreatest (fun i => mask.getLsbD i = true) w = hi at *
  have under := BitVec.lt_of_getLsbD highest
  refine ⟨⟨lo, hi + 1 - lo, by omega, by omega⟩, ?_⟩
  apply BitVec.eq_of_getLsbD_eq
  intro i _
  rw [mask_bit,Bool.eq_iff_iff]
  simp only [Bool.and_eq_true,decide_eq_true_eq]
  constructor
  · intro set
    have after := least i set
    have before := greatest i set
    omega
  · rintro ⟨after,before⟩
    exact filled lo i hi after (by omega) lowest highest

/-- Counted from the bottom, the bits of the field are those passed since it began. -/
theorem cpopNatRec_mask (f : Field w) (n : Nat) :
    f.mask.cpopNatRec n 0 = min n (f.lo + f.len) - f.lo := by
  induction n with
  | zero => simp
  | succ n ih =>
    rw [BitVec.cpopNatRec_succ,BitVec.cpopNatRec_eq,ih,mask_bit]
    by_cases inside : f.lo ≤ n ∧ n < f.lo + f.len
    · simp [inside]
      omega
    · have outside : (decide (f.lo ≤ n) && decide (n < f.lo + f.len)) = false := by
        simpa using inside
      rw [outside,Bool.toNat_false]
      omega

theorem cpop_mask (f : Field w) : f.mask.cpop.toNat = f.len := by
  have inside := f.inside
  rw [BitVec.toNat_cpop,cpopNatRec_mask]
  omega

/-- Cutting to the bits of a field is taking the remainder. -/
theorem and_low_toNat (f : Field w) (val : BitVec w) :
    (val &&& f.low).toNat = val.toNat % 2 ^ f.len := by
  have inside := f.inside
  have small : 2 ^ f.len ≤ 2 ^ w := Nat.pow_le_pow_right (by decide) (by omega)
  have positive := Nat.two_pow_pos f.len
  rw [BitVec.toNat_and,Field.low,BitVec.toNat_setWidth,BitVec.toNat_allOnes,
    Nat.mod_eq_of_lt (by omega : 2 ^ f.len - 1 < 2 ^ w),Nat.and_two_pow_sub_one_eq_mod]

theorem Contiguous.get_set (contiguous : Contiguous mask) (reg val : BitVec w) :
    (get (set reg mask val) mask).toNat = val.toNat % 2 ^ mask.cpop.toNat := by
  obtain ⟨f,rfl⟩ := contiguous.field
  rw [BitField.get_set,and_low_toNat,cpop_mask]

theorem Contiguous.set_get (contiguous : Contiguous mask) (reg : BitVec w) :
    set reg mask (get reg mask) = reg := by
  obtain ⟨f,rfl⟩ := contiguous.field
  apply BitVec.eq_of_getLsbD_eq
  intro i bound
  rw [set_bit _ _ f i bound,get_bit]
  split
  next inside => simp [show i - f.lo < f.len by omega,show f.lo + (i - f.lo) = i by omega]
  next => rfl

/-- Neither write reaches what the other one leaves. -/
theorem set_comm (reg : BitVec w) {mask mask' : BitVec w} (disjoint : mask &&& mask' = 0)
    (val val' : BitVec w) : set (set reg mask val) mask' val' = set (set reg mask' val') mask val := by
  apply BitVec.eq_of_getElem_eq
  intro i bound
  have apart : (mask[i] && mask'[i]) = false := by
    simp [← BitVec.getElem_and,disjoint]
  simp only [set,BitVec.getElem_or,BitVec.getElem_and,BitVec.getElem_not]
  cases here : mask[i] with
  | false => simp
  | true =>
    rw [here,Bool.true_and] at apart
    simp [apart]

end BitField
