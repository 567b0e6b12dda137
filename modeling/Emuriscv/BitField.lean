import Mathlib.Algebra.Group.Nat.Defs
import Mathlib.Tactic.Common

/-! Fields of a register named by a mask of contiguous bits, extracted by division and
inserted by multiplication with the lowest bit of the mask. Each operation is described
by the bits of its result; everything else follows by extensionality. -/
namespace BitField

variable {w : Nat}

/-- The lowest bit of a contiguous mask. -/
def lowBit (mask : BitVec w) : BitVec w := mask &&& ~~~(mask <<< 1)

def get (reg mask : BitVec w) : BitVec w := (reg &&& mask) / lowBit mask

def set (reg mask val : BitVec w) : BitVec w := (reg &&& ~~~mask) ||| (val * lowBit mask &&& mask)

/-- The place of a field, which is not empty and lies in the register. -/
structure Field (w : Nat) where
  lo : Nat
  len : Nat
  positive : 0 < len := by decide
  inside : lo + len ≤ w := by decide

/-- A field of one bit. -/
def Field.bit (place : Fin w) : Field w :=
  { lo := place, len := 1, positive := Nat.one_pos, inside := place.isLt }

/-- The bits of a value that fit into the field. -/
def Field.low (f : Field w) : BitVec w := (BitVec.allOnes f.len).setWidth w

def Field.mask (f : Field w) : BitVec w := f.low <<< f.lo

/-- No bit belongs to both fields. -/
def Field.Apart (f g : Field w) : Prop := f.lo + f.len ≤ g.lo ∨ g.lo + g.len ≤ f.lo

instance (f g : Field w) : Decidable (f.Apart g) := inferInstanceAs (Decidable (_ ∨ _))

theorem Field.lo_lt (f : Field w) : f.lo < w :=
  Nat.lt_of_lt_of_le (Nat.lt_add_of_pos_right f.positive) f.inside

theorem low_bit (f : Field w) (i : Nat) : f.low.getLsbD i = decide (i < f.len) := by
  have inside := f.inside
  rw [Bool.eq_iff_iff]
  simp only [Field.low,BitVec.getLsbD_setWidth,BitVec.getLsbD_allOnes,Bool.and_eq_true,
    decide_eq_true_eq]
  omega

theorem mask_bit (f : Field w) (i : Nat) :
    f.mask.getLsbD i = (decide (f.lo ≤ i) && decide (i < f.lo + f.len)) := by
  have inside := f.inside
  rw [Bool.eq_iff_iff]
  simp only [Field.mask,BitVec.getLsbD_shiftLeft,low_bit,Bool.and_eq_true,Bool.not_eq_true',
    decide_eq_true_eq,decide_eq_false_iff_not]
  omega

theorem lowBit_mask (f : Field w) : lowBit f.mask = BitVec.twoPow w f.lo := by
  have positive := f.positive
  apply BitVec.eq_of_getLsbD_eq
  intro i bound
  rw [Bool.eq_iff_iff]
  simp only [lowBit,BitVec.getLsbD_and,BitVec.getLsbD_not,BitVec.getLsbD_shiftLeft,mask_bit,
    BitVec.getLsbD_twoPow,Bool.and_eq_true,Bool.not_eq_true',decide_eq_true_eq,
    decide_eq_false_iff_not,Bool.and_eq_false_iff,Bool.not_eq_false']
  omega

/-- A field is read as the bits of the mask, moved to the bottom. -/
theorem get_bit (reg : BitVec w) (f : Field w) (i : Nat) :
    (get reg f.mask).getLsbD i = (decide (i < f.len) && reg.getLsbD (f.lo + i)) := by
  rw [get,lowBit_mask,BitVec.udiv_twoPow_eq_of_lt f.lo_lt,BitVec.getLsbD_ushiftRight,
    BitVec.getLsbD_and,mask_bit]
  simp [Bool.and_comm]

/-- What is read from a field fits into it. -/
theorem get_lt (reg : BitVec w) (f : Field w) : (get reg f.mask).toNat < 2 ^ f.len := by
  apply Nat.lt_pow_two_of_testBit
  intro i above
  change (get reg f.mask).getLsbD i = false
  rw [get_bit,decide_eq_false (by omega),Bool.false_and]

/-- Writing a field replaces the bits of the mask and no other. -/
theorem set_bit (reg val : BitVec w) (f : Field w) (i : Nat) (bound : i < w) :
    (set reg f.mask val).getLsbD i =
      if f.lo ≤ i ∧ i < f.lo + f.len then val.getLsbD (i - f.lo) else reg.getLsbD i := by
  simp only [set,lowBit_mask,BitVec.mul_twoPow_eq_shiftLeft,BitVec.getLsbD_or,BitVec.getLsbD_and,
    BitVec.getLsbD_not,BitVec.getLsbD_shiftLeft,mask_bit,bound]
  split
  next inside => simp [inside]
  next outside =>
    by_cases low : f.lo ≤ i
    · simp [low,show ¬i < f.lo + f.len by omega]
    · simp [low]

/-- A field written and read is the value, cut to the length of the field. -/
theorem get_set (reg val : BitVec w) (f : Field w) :
    get (set reg f.mask val) f.mask = val &&& f.low := by
  have inside := f.inside
  apply BitVec.eq_of_getLsbD_eq
  intro i _
  rw [get_bit,BitVec.getLsbD_and,low_bit]
  by_cases fits : i < f.len
  · rw [set_bit _ _ f (f.lo + i) (by omega)]
    simp [fits]
  · simp [fits]

/-- A field moved into one that is as long arrives whole. -/
theorem get_set_get (reg reg' : BitVec w) (f g : Field w) (long : g.len ≤ f.len) :
    get (set reg f.mask (get reg' g.mask)) f.mask = get reg' g.mask := by
  rw [get_set]
  apply BitVec.eq_of_getLsbD_eq
  intro i _
  rw [BitVec.getLsbD_and,low_bit,get_bit]
  by_cases fits : i < g.len
  · simp [fits,Nat.lt_of_lt_of_le fits long]
  · simp [fits]

/-- Fields that are apart do not see each other. -/
theorem get_set_other (reg val : BitVec w) (f g : Field w) (apart : f.Apart g) :
    get (set reg f.mask val) g.mask = get reg g.mask := by
  have inside := g.inside
  unfold Field.Apart at apart
  apply BitVec.eq_of_getLsbD_eq
  intro i _
  rw [get_bit,get_bit]
  by_cases fits : i < g.len
  · rw [set_bit _ _ f (g.lo + i) (by omega),if_neg (by omega)]
  · simp [fits]

/-- Two registers agree on a field when its bits are the same. -/
theorem get_eq_iff (a b : BitVec w) (f : Field w) :
    get a f.mask = get b f.mask ↔ a &&& f.mask = b &&& f.mask := by
  constructor
  · intro same
    apply BitVec.eq_of_getLsbD_eq
    intro i _
    have bit := congrArg (BitVec.getLsbD · (i - f.lo)) same
    simp only [get_bit] at bit
    simp only [BitVec.getLsbD_and,mask_bit]
    by_cases inside : f.lo ≤ i ∧ i < f.lo + f.len
    · rw [show f.lo + (i - f.lo) = i by omega,decide_eq_true (by omega)] at bit
      simpa [inside] using bit
    · have outside : (decide (f.lo ≤ i) && decide (i < f.lo + f.len)) = false := by
        simpa using inside
      simp [outside]
  · intro same
    rw [get,get,same]

/-- Writing a field leaves the bits that are not in its mask alone. -/
theorem set_outside (reg val part other : BitVec w) (apart : part &&& other = 0) :
    set reg part val &&& other = reg &&& other := by
  apply BitVec.eq_of_getElem_eq
  intro i bound
  have bit : (part[i] && other[i]) = false := by
    simp [← BitVec.getElem_and,apart]
  cases here : other[i] with
  | false => simp [here]
  | true =>
    rw [here,Bool.and_true] at bit
    simp [set,here,bit]

/-- Agreement on two masks together is agreement on each. -/
theorem and_or_eq_iff (a b part part' : BitVec w) :
    a &&& (part ||| part') = b &&& (part ||| part') ↔
      a &&& part = b &&& part ∧ a &&& part' = b &&& part' := by
  have absorb (x y z : BitVec w) : x &&& (y ||| z) &&& y = x &&& y := by
    apply BitVec.eq_of_getElem_eq
    intro i bound
    simp only [BitVec.getElem_and,BitVec.getElem_or]
    cases y[i] <;> simp
  constructor
  · intro same
    constructor
    · rw [← absorb a part part',same,absorb]
    · rw [BitVec.or_comm] at same
      rw [← absorb a part' part,same,absorb]
  · rintro ⟨same,same'⟩
    rw [BitVec.and_or_distrib_left,BitVec.and_or_distrib_left,same,same']

/-- Setting bits changes nothing under a mask when they are set already. -/
theorem or_and_eq_iff (old operand mask : BitVec w) :
    (old ||| operand) &&& mask = old &&& mask ↔ operand &&& ~~~old &&& mask = 0 := by
  simp only [BitVec.eq_of_getElem_eq_iff,BitVec.getElem_and,BitVec.getElem_or,BitVec.getElem_not]
  refine forall₂_congr fun i bound => ?_
  cases old[i] <;> cases operand[i] <;> simp

/-- Clearing bits changes nothing under a mask when they are clear already. -/
theorem and_not_and_eq_iff (old operand mask : BitVec w) :
    old &&& ~~~operand &&& mask = old &&& mask ↔ operand &&& old &&& mask = 0 := by
  simp only [BitVec.eq_of_getElem_eq_iff,BitVec.getElem_and,BitVec.getElem_not]
  refine forall₂_congr fun i bound => ?_
  cases old[i] <;> cases operand[i] <;> simp

theorem extract_eq_iff {a b : BitVec w} {lo len : Nat} :
    a.extractLsb' lo len = b.extractLsb' lo len ↔
      ∀ i, lo ≤ i → i < lo + len → a.getLsbD i = b.getLsbD i := by
  constructor
  · intro same i low high
    have bit := congrArg (fun field => field.getLsbD (i - lo)) same
    simpa [show i - lo < len by omega,show lo + (i - lo) = i by omega] using bit
  · intro same
    apply BitVec.eq_of_getLsbD_eq
    intro i bound
    simp [bound,same (lo + i) (by omega) (by omega)]

theorem append_eq_iff {a c : BitVec v} {b d : BitVec w} : a ++ b = c ++ d ↔ a = c ∧ b = d := by
  constructor
  · intro same
    refine ⟨?_,?_⟩
    · rw [← BitVec.extractLsb'_append_eq_left (a := a) (b := b),same,
        BitVec.extractLsb'_append_eq_left]
    · rw [← BitVec.setWidth_append_eq_right (a := a) (b := b),same,
        BitVec.setWidth_append_eq_right]
  · rintro ⟨rfl,rfl⟩
    rfl

/-- Sign extension to a wider word loses nothing. -/
theorem signExtend_eq_iff {v : Nat} {a b : BitVec v} (wider : v ≤ w) :
    a.signExtend w = b.signExtend w ↔ a = b := by
  refine ⟨fun same => ?_, fun same => by rw [same]⟩
  apply BitVec.eq_of_getLsbD_eq
  intro i bound
  have bit := congrArg (fun extended => extended.getLsbD i) same
  simp only [BitVec.getLsbD_signExtend,bound,show i < w by omega,decide_true,Bool.true_and,if_true]
    at bit
  exact bit

theorem setWidth_eq_iff {v : Nat} {a b : BitVec v} (wider : v ≤ w) :
    a.setWidth w = b.setWidth w ↔ a = b := by
  refine ⟨fun same => ?_, fun same => by rw [same]⟩
  apply BitVec.eq_of_getLsbD_eq
  intro i bound
  have bit := congrArg (fun extended => extended.getLsbD i) same
  simp only [BitVec.getLsbD_setWidth,show i < w by omega,decide_true,Bool.true_and] at bit
  exact bit

/-- Masking with the upper bits rounds down. -/
theorem and_upper_toNat (f : Field w) (upper : f.lo + f.len = w) (v : BitVec w) :
    (v &&& f.mask).toNat = v.toNat / 2 ^ f.lo * 2 ^ f.lo := by
  have shifted : v &&& f.mask = v >>> f.lo <<< f.lo := by
    apply BitVec.eq_of_getLsbD_eq
    intro i bound
    rw [BitVec.getLsbD_and,mask_bit,upper,BitVec.getLsbD_shiftLeft,BitVec.getLsbD_ushiftRight]
    by_cases high : f.lo ≤ i
    · simp [bound,high,Nat.not_lt.mpr high]
    · simp [bound,high,Nat.lt_of_not_le high]
  have small : v.toNat / 2 ^ f.lo * 2 ^ f.lo < 2 ^ w :=
    Nat.lt_of_le_of_lt (Nat.div_mul_le_self _ _) v.isLt
  rw [shifted,BitVec.toNat_shiftLeft,BitVec.toNat_ushiftRight,Nat.shiftLeft_eq,
    Nat.shiftRight_eq_div_pow,Nat.mod_eq_of_lt small]

theorem and_twoPow_eq_iff {i : Nat} (inside : i < w) (v : BitVec w) :
    v &&& BitVec.twoPow w i = BitVec.twoPow w i ↔ v.getLsbD i = true := by
  rw [BitVec.and_twoPow]
  cases v.getLsbD i with
  | true => simp
  | false =>
    refine iff_of_false (fun same => ?_) (by simp)
    have bit := congrArg (BitVec.getLsbD · i) same
    simp [inside] at bit

/-- Sign extension from the low `n` bits, by a test of the sign and a mask of the bits above. -/
def maskExtend (n : Nat) (v : BitVec w) : BitVec w :=
  if v &&& BitVec.twoPow w (n - 1) = BitVec.twoPow w (n - 1) then v ||| BitVec.allOnes w <<< n else v

theorem maskExtend_bit (positive : 0 < n) (narrow : n ≤ w) (v : BitVec w) {i : Nat} (bound : i < w) :
    (maskExtend n v).getLsbD i = (v.getLsbD i || (v.getLsbD (n - 1) && decide (n ≤ i))) := by
  have test := and_twoPow_eq_iff (show n - 1 < w by omega) v
  unfold maskExtend
  cases sign : v.getLsbD (n - 1) with
  | true =>
    rw [if_pos (test.mpr sign),BitVec.getLsbD_or,BitVec.getLsbD_shiftLeft,BitVec.getLsbD_allOnes]
    by_cases high : n ≤ i
    · simp [bound,high,show i - n < w by omega,Nat.not_lt.mpr high]
    · simp [high,Nat.lt_of_not_le high]
  | false =>
    rw [if_neg (fun set => Bool.false_ne_true (sign.symm.trans (test.mp set)))]
    simp

/-- A narrow value is extended as its sign says. -/
theorem maskExtend_setWidth (positive : 0 < n) (narrow : n ≤ w) (v : BitVec n) :
    maskExtend n (v.setWidth w) = v.signExtend w := by
  apply BitVec.eq_of_getLsbD_eq
  intro i bound
  rw [maskExtend_bit positive narrow _ bound,BitVec.getLsbD_signExtend,BitVec.msb_eq_getLsbD_last,
    BitVec.getLsbD_setWidth,BitVec.getLsbD_setWidth]
  have last : n - 1 < w := by omega
  by_cases low : i < n
  · have under : ¬n ≤ i := Nat.not_le.mpr low
    simp [bound,low,under]
  · simp [bound,low,last,Nat.le_of_not_lt low]

/-- The result is the sign extension of its own low bits if the sign is set, or if nothing was
there above the low bits. -/
theorem maskExtend_iff (positive : 0 < n) (narrow : n ≤ w) (v : BitVec w) :
    maskExtend n v = ((maskExtend n v).setWidth n).signExtend w ↔
      v.getLsbD (n - 1) = true ∨ v.toNat < 2 ^ n := by
  cases sign : v.getLsbD (n - 1) with
  | true =>
    refine iff_of_true ?_ (Or.inl rfl)
    apply BitVec.eq_of_getLsbD_eq
    intro i bound
    have last : n - 1 < w := by omega
    rw [BitVec.getLsbD_signExtend,BitVec.msb_eq_getLsbD_last,BitVec.getLsbD_setWidth,
      BitVec.getLsbD_setWidth,maskExtend_bit positive narrow v bound,
      maskExtend_bit positive narrow v last,sign]
    by_cases low : i < n
    · simp [bound,low]
    · simp [bound,low,Nat.le_of_not_lt low,show n - 1 < n by omega]
  | false =>
    have same : maskExtend n v = v := by
      have test := and_twoPow_eq_iff (show n - 1 < w by omega) v
      exact if_neg fun set => Bool.false_ne_true (sign.symm.trans (test.mp set))
    have clear : (v.setWidth n).msb = false := by
      rw [BitVec.msb_setWidth,sign,Bool.and_false]
    have wide : 2 ^ n ≤ 2 ^ w := Nat.pow_le_pow_right (by decide) narrow
    have low : v.toNat % 2 ^ n < 2 ^ n := Nat.mod_lt _ (Nat.two_pow_pos n)
    rw [same,BitVec.signExtend_eq_setWidth_of_msb_false clear,← BitVec.toNat_inj,
      BitVec.toNat_setWidth,BitVec.toNat_setWidth,Nat.mod_eq_of_lt (Nat.lt_of_lt_of_le low wide)]
    constructor
    · intro equal
      exact Or.inr (equal ▸ low)
    · rintro (impossible | small)
      · contradiction
      · exact (Nat.mod_eq_of_lt small).symm
end BitField
