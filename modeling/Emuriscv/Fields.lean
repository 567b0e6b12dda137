import Emuriscv.Decode
import Emuriscv.Register
import Emuriscv.Rv32i
import Mathlib.Tactic.IntervalCases

/-! The macros, immediate decoders and bit-fields of the program extract the fields of the
architecture. A sum of pieces that share no bit is read off bit by bit. -/
namespace Emuriscv

theorem registerField (word : Word) (lo : Nat) :
    ((word >>> lo) &&& 0x1F).setWidth 5 = word.extractLsb' lo 5 := by
  apply BitVec.eq_of_getLsbD_eq
  intro i bound
  interval_cases i <;> simp

theorem getRd_eq (word : Word) : getRd word = Rv32i.rd word := registerField word 7

theorem getRs1_eq (word : Word) : getRs1 word = Rv32i.rs1 word := registerField word 15

theorem getRs2_eq (word : Word) : getRs2 word = Rv32i.rs2 word := registerField word 20

theorem lowMask_bit (len i : Nat) (short : len < 32) :
    (((1 : Word) <<< len) - 1).getLsbD i = decide (i < len) := by
  have value : (((1 : Word) <<< len) - 1).toNat = 2 ^ len - 1 := by
    interval_cases len <;> rfl
  rw [BitVec.getLsbD,value,Nat.testBit_two_pow_sub_one]

@[simp] theorem bextr_bit (word : Word) (start len i : Nat) (short : len < 32) :
    (bextr word start len).getLsbD i = (decide (i < len) && word.getLsbD (start + i)) := by
  rw [bextr,BitVec.getLsbD_and,BitVec.getLsbD_ushiftRight,lowMask_bit len i short,Bool.and_comm]

@[simp] theorem bextr_getElem (word : Word) (start len i : Nat) (bound : i < 32) (short : len < 32) :
    (bextr word start len)[i] = (decide (i < len) && word.getLsbD (start + i)) :=
  bextr_bit word start len i short

/-- A sum without carries. -/
theorem add_eq_or {a b : Word} (n : Nat) (low : ∀ i, n ≤ i → a.getLsbD i = false)
    (high : ∀ i, i < n → b.getLsbD i = false) : a + b = a ||| b := by
  apply BitVec.add_eq_or_of_and_eq_zero
  apply BitVec.eq_of_getLsbD_eq
  intro i _
  by_cases below : i < n
  · simp [high i below]
  · simp [low i (by omega)]

/-- Pieces of a word that are put one above the other add up without carries. -/
theorem pieces_eq_or (word d : Word) {s0 s1 s2 l0 l1 l2 p0 p1 p2 n : Nat}
    (short : l0 < 32 ∧ l1 < 32 ∧ l2 < 32) (apart : p0 + l0 ≤ p1 ∧ p1 + l1 ≤ p2 ∧ p2 + l2 ≤ n)
    (above : ∀ i, i < n → d.getLsbD i = false) :
    bextr word s0 l0 <<< p0 + bextr word s1 l1 <<< p1 + bextr word s2 l2 <<< p2 + d =
      bextr word s0 l0 <<< p0 ||| bextr word s1 l1 <<< p1 ||| bextr word s2 l2 <<< p2 ||| d := by
  have first : bextr word s0 l0 <<< p0 + bextr word s1 l1 <<< p1 =
      bextr word s0 l0 <<< p0 ||| bextr word s1 l1 <<< p1 := by
    apply add_eq_or p1 <;> intro i bound <;> simp (disch := omega) <;> omega
  have second : (bextr word s0 l0 <<< p0 ||| bextr word s1 l1 <<< p1) + bextr word s2 l2 <<< p2 =
      bextr word s0 l0 <<< p0 ||| bextr word s1 l1 <<< p1 ||| bextr word s2 l2 <<< p2 := by
    apply add_eq_or p2 <;> intro i bound <;> simp (disch := omega) <;> omega
  rw [first,second]
  refine add_eq_or n (fun i bound => ?_) above
  simp (disch := omega)
  omega

theorem signBit (word : Word) : bextr word 31 1 = 1 ↔ word[31] = true := by
  constructor
  · intro one
    have bit := bextr_bit word 31 1 0 (by decide)
    rw [one] at bit
    simpa using bit.symm
  · intro bit
    apply BitVec.eq_of_getLsbD_eq
    intro i bound
    rw [bextr_bit word 31 1 i (by decide)]
    interval_cases i <;> simp [bit]

theorem getIImm_eq (word : Word) : getIImm word = Rv32i.iImm word := by
  apply BitVec.eq_of_getLsbD_eq
  intro i bound
  simp only [getIImm,signBit,Rv32i.iImm]
  interval_cases i <;> cases sign : word[31] <;> simp [sign,BitVec.getElem_signExtend,BitVec.getMsbD]

theorem instructionIImm_eq (word : Word) : instructionIImm word = Rv32i.iImm word := rfl

theorem getSImm_eq (word : Word) : getSImm word = Rv32i.sImm word := by
  have pieces : bextr word 7 5 + bextr word 25 7 <<< 5 = bextr word 7 5 ||| bextr word 25 7 <<< 5 := by
    apply add_eq_or 5 <;> intro i bound <;> simp (disch := omega) <;> omega
  rw [getSImm,pieces]
  apply BitVec.eq_of_getLsbD_eq
  intro i bound
  simp only [signBit,Rv32i.sImm,BitVec.getLsbD_signExtend,BitVec.getLsbD_append,BitVec.msb_append]
  interval_cases i <;> cases sign : word[31] <;> simp [sign,BitVec.getMsbD]

theorem getBImm_eq (word : Word) : getBImm word = Rv32i.bImm word := by
  rw [getBImm,pieces_eq_or (n := 12) word _ (by decide) (by decide) (by simp +contextual)]
  apply BitVec.eq_of_getLsbD_eq
  intro i bound
  simp only [immSign,signBit,Rv32i.bImm,BitVec.getLsbD_signExtend,BitVec.getLsbD_append,
    BitVec.msb_append]
  interval_cases i <;> cases sign : word[31] <;> simp [sign,BitVec.getMsbD]

theorem getJImm_eq (word : Word) : getJImm word = Rv32i.jImm word := by
  rw [getJImm,pieces_eq_or (n := 20) word _ (by decide) (by decide) (by simp +contextual)]
  apply BitVec.eq_of_getLsbD_eq
  intro i bound
  simp only [signBit,Rv32i.jImm,BitVec.getLsbD_signExtend,BitVec.getLsbD_append,BitVec.msb_append]
  interval_cases i <;> cases sign : word[31] <;> simp [sign,BitVec.getMsbD]

theorem uData_eq (word : Word) : instructionUData word <<< 12 = Rv32i.uImm word := by
  apply BitVec.eq_of_getLsbD_eq
  intro i bound
  simp only [instructionUData,bitField,Rv32i.uImm,BitVec.getLsbD_append]
  interval_cases i <;> simp [BitVec.getElem_signExtend]

end Emuriscv
