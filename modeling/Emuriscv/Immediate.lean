import Emuriscv.Reassembly

/-! The decoders of immediates against the encodings: an immediate put into the places of its format
is decoded to itself, and a decoded one put back restores the word. -/
namespace Emuriscv

open Assembler MatchChain

inductive ImmediateFormat where
  | i
  | s
  | b
  | j
  deriving DecidableEq, Repr

namespace ImmediateFormat

/-- The decoder of the program. -/
def decode : ImmediateFormat → Word → Word
  | .i => getIImm
  | .s => getSImm
  | .b => getBImm
  | .j => getJImm

def len : ImmediateFormat → Nat
  | .i | .s => 12
  | .b => 13
  | .j => 21

/-- Branch and jump offsets are even. -/
def unit : ImmediateFormat → Int
  | .i | .s => 1
  | .b | .j => 2

/-- The immediate is in the range of its format. -/
structure Encodable (format : ImmediateFormat) (imm : Int) : Prop where
  low : -2 ^ (format.len - 1) ≤ imm
  high : imm < 2 ^ (format.len - 1)
  whole : format.unit ∣ imm

/-- The fields of the instruction, each with its part of the immediate. -/
def demands : (format : ImmediateFormat) → BitVec format.len → List (Demand 32)
  | .i, imm => [iImmIs imm]
  | .s, imm => sImmIs imm
  | .b, imm => bImmIs imm
  | .j, imm => jImmIs imm

/-- The word with the immediate in it. -/
def encode (format : ImmediateFormat) (imm : Int) (word : Word) : Word :=
  (patternOf (format.demands (BitVec.ofInt format.len imm))).impose word

/-- The places of the immediate. -/
def mask : ImmediateFormat → Word
  | .i => 0xfff00000
  | .s | .b => 0xfe000f80
  | .j => 0xfffff000

/-- The fields are the same for all immediates. -/
theorem demands_field (format : ImmediateFormat) (imm : BitVec format.len) :
    (format.demands imm).map Demand.field = (format.demands 0).map Demand.field := by
  cases format <;> rfl

theorem demands_mask (format : ImmediateFormat) (imm : BitVec format.len) :
    (patternOf (format.demands imm)).mask = format.mask := by
  rw [patternOf_mask,format.demands_field]
  cases format <;> decide

theorem demands_apart (format : ImmediateFormat) (imm : BitVec format.len) :
    (format.demands imm).Pairwise fun a b => a.field.Apart b.field := by
  have apart : ((format.demands 0).map Demand.field).Pairwise BitField.Field.Apart := by
    cases format <;> decide
  rw [← format.demands_field imm] at apart
  exact List.pairwise_map.mp apart

/-- The immediate of a word, as wide as the format has it. -/
def field : (format : ImmediateFormat) → Word → BitVec format.len
  | .i, word => word.extractLsb' 20 12
  | .s, word => sField word
  | .b, word => bField word
  | .j, word => jField word

theorem decode_eq (format : ImmediateFormat) (word : Word) :
    format.decode word = (format.field word).signExtend 32 := by
  cases format with
  | i => exact getIImm_eq word
  | s => exact getSImm_eq word
  | b => exact getBImm_eq word
  | j => exact getJImm_eq word

theorem field_met (format : ImmediateFormat) (word : Word) :
    ∀ demand ∈ format.demands (format.field word), demand.Met word := by
  cases format with
  | i => simp [demands,field,iImmIs,Demand.Met]
  | s =>
    obtain ⟨high,low⟩ := sField_pieces word
    simp only [demands,field,sImmIs,List.forall_mem_cons]
    exact ⟨high.symm, low.symm, by simp⟩
  | b =>
    obtain ⟨first,second,third,fourth⟩ := bField_pieces word
    simp only [demands,field,bImmIs,List.forall_mem_cons]
    exact ⟨first.symm, second.symm, third.symm, fourth.symm, by simp⟩
  | j =>
    obtain ⟨first,second,third,fourth⟩ := jField_pieces word
    simp only [demands,field,jImmIs,List.forall_mem_cons]
    exact ⟨first.symm, second.symm, third.symm, fourth.symm, by simp⟩

theorem even_bit {n : Nat} {imm : BitVec (n + 1)} (even : (2 : Int) ∣ imm.toInt) :
    imm[0] = false := by
  have bound : ((2 ^ (n + 1) : Nat) : Int) = 2 * 2 ^ n := by
    rw [Nat.pow_succ,Nat.mul_comm]
    rfl
  have parity : imm.toNat % 2 = 0 := by
    rw [BitVec.toInt_eq_toNat_cond,bound] at even
    split at even <;> omega
  rw [← BitVec.getLsbD_eq_getElem,BitVec.getLsbD,Nat.testBit_zero,parity]
  rfl

/-- The parts of an immediate say all of it, but for the bit that the offsets do not store. -/
theorem field_of_met (format : ImmediateFormat) {imm : BitVec format.len} {word : Word}
    (whole : format.unit ∣ imm.toInt) (met : ∀ demand ∈ format.demands imm, demand.Met word) :
    format.field word = imm := by
  cases format with
  | i => exact met (iImmIs imm) (List.mem_singleton.mpr rfl)
  | s => exact sField_of_met met
  | b => exact bField_of_met (even_bit (n := 12) whole) met
  | j => exact jField_of_met (even_bit (n := 20) whole) met

theorem Encodable.toInt {format : ImmediateFormat} {imm : Int} (encodable : format.Encodable imm) :
    (BitVec.ofInt format.len imm).toInt = imm := by
  obtain ⟨low,high,_⟩ := encodable
  cases format <;> exact BitVec.toInt_ofInt_eq_self (by decide) low high

theorem decode_toInt (format : ImmediateFormat) (word : Word) :
    (format.decode word).toInt = (format.field word).toInt := by
  rw [decode_eq]
  exact BitVec.toInt_signExtend_of_le (by cases format <;> decide)

theorem encode_met (format : ImmediateFormat) (imm : Int) (word : Word) :
    ∀ demand ∈ format.demands (BitVec.ofInt format.len imm), demand.Met (format.encode imm word) :=
  (patternOf_accepts_iff (format.demands_apart _) _).mp
    (Pattern.impose_accepts (patternOf_proper _) word)

/-- The bits of the immediate are those of its pattern. -/
theorem encode_mask (format : ImmediateFormat) (imm : Int) (word : Word) :
    format.encode imm word &&& format.mask =
      (patternOf (format.demands (BitVec.ofInt format.len imm))).value := by
  rw [← format.demands_mask (BitVec.ofInt format.len imm)]
  exact Pattern.impose_accepts (patternOf_proper _) word

theorem field_mask (format : ImmediateFormat) (word : Word) :
    word &&& format.mask = (patternOf (format.demands (format.field word))).value := by
  rw [← format.demands_mask (format.field word)]
  exact (patternOf_accepts_iff (format.demands_apart _) word).mpr (format.field_met word)

end ImmediateFormat

/-- An encoded immediate is decoded to itself whatever the other bits are, a decoded one is encoded
by the bits that it came from, and the bit-field of `InstructionI` is decoded as `get_i_imm` does. -/
theorem immediate_laws (format : ImmediateFormat) (word : Word) :
    (∀ imm, format.Encodable imm → (format.decode (format.encode imm word)).toInt = imm ∧
      format.encode imm word &&& ~~~format.mask = word &&& ~~~format.mask) ∧
    (∀ other, format.encode (format.decode word).toInt other &&& format.mask = word &&& format.mask) ∧
    instructionIImm word = getIImm word := by
  refine ⟨?_, ?_, (getIImm_eq word).symm⟩
  · intro imm encodable
    have value := encodable.toInt
    have whole : format.unit ∣ (BitVec.ofInt format.len imm).toInt := by
      rw [value]
      exact encodable.whole
    constructor
    · rw [format.decode_toInt,format.field_of_met whole (format.encode_met imm word),value]
    · rw [← format.demands_mask (BitVec.ofInt format.len imm)]
      exact Pattern.impose_outside (patternOf_proper _) word
  · intro other
    rw [format.encode_mask,format.decode_toInt,BitVec.ofInt_toInt,format.field_mask]

/-- The longest branch back, in the word of all ones. -/
theorem immediate_laws_branch :
    (getBImm (ImmediateFormat.b.encode (-4096) 0xffffffff)).toInt = -4096 ∧
      ImmediateFormat.b.encode (-4096) 0xffffffff = 0x81fff07f := by
  obtain ⟨decoded,_⟩ := (immediate_laws .b 0xffffffff).1 (-4096) ⟨by decide,by decide,by decide⟩
  exact ⟨decoded, by decide⟩

end Emuriscv
