import Emuriscv.BitField
import Emuriscv.DecodeTable
import Emuriscv.Fields
import Emuriscv.Rereads

/-! Which bits of an instruction word matter to it: those that its entry of the chain tests, and
those that its handler extracts. Two words with the same bits there are the same instruction. -/
namespace Emuriscv

/-- A part of the word that a handler extracts. -/
inductive InstructionField where
  | register (field : RegisterField)
  | iImm
  | sImm
  | bImm
  | uImm
  | jImm
  | shamt
  | csr
  | csrImm
  deriving DecidableEq, Repr

/-- The extraction gives the same for both words. -/
def InstructionField.Same (field : InstructionField) (a b : Word) : Prop :=
  match field with
  | .register field => field.of a = field.of b
  | .iImm => getIImm a = getIImm b
  | .sImm => getSImm a = getSImm b
  | .bImm => getBImm a = getBImm b
  | .uImm => instructionUData a = instructionUData b
  | .jImm => getJImm a = getJImm b
  | .shamt => instructionIShiftShamt a = instructionIShiftShamt b
  | .csr => csrField a = csrField b
  | .csrImm => getCsrImm a = getCsrImm b

def RegisterField.lo : RegisterField → Nat
  | .rd => 7
  | .rs1 => 15
  | .rs2 => 20

/-- Bit `i` of the word is a bit of the field. -/
def InstructionField.Covers : InstructionField → Nat → Prop
  | .register field, i => field.lo ≤ i ∧ i < field.lo + 5
  | .iImm, i => 20 ≤ i ∧ i < 20 + 12
  | .sImm, i => (25 ≤ i ∧ i < 25 + 7) ∨ (7 ≤ i ∧ i < 7 + 5)
  | .bImm, i => (((31 ≤ i ∧ i < 31 + 1) ∨ (7 ≤ i ∧ i < 7 + 1)) ∨ (25 ≤ i ∧ i < 25 + 6)) ∨
      (8 ≤ i ∧ i < 8 + 4)
  | .uImm, i => 12 ≤ i ∧ i < 12 + 20
  | .jImm, i => (((31 ≤ i ∧ i < 31 + 1) ∨ (12 ≤ i ∧ i < 12 + 8)) ∨ (20 ≤ i ∧ i < 20 + 1)) ∨
      (21 ≤ i ∧ i < 21 + 10)
  | .shamt, i => 20 ≤ i ∧ i < 20 + 5
  | .csr, i => 20 ≤ i ∧ i < 20 + 12
  | .csrImm, i => 15 ≤ i ∧ i < 15 + 5

theorem RegisterField.of_eq (field : RegisterField) (word : Word) :
    field.of word = word.extractLsb' field.lo 5 := by
  cases field
  · exact getRd_eq word
  · exact getRs1_eq word
  · exact getRs2_eq word

theorem csrField_eq (word : Word) : csrField word = word.extractLsb' 20 12 := by
  apply BitVec.eq_of_getLsbD_eq
  intro i bound
  simp [csrField,getIImmUnsigned,bound]

theorem getCsrImm_eq (word : Word) : getCsrImm word = (word.extractLsb' 15 5).setWidth 32 := by
  apply BitVec.eq_of_getLsbD_eq
  intro i bound
  interval_cases i <;> simp [getCsrImm]

/-- The bits of two pieces are the bits of both. -/
theorem pieces_iff {p q : Nat → Prop} {a b : Word} :
    ((∀ i, p i → a.getLsbD i = b.getLsbD i) ∧ ∀ i, q i → a.getLsbD i = b.getLsbD i) ↔
      ∀ i, p i ∨ q i → a.getLsbD i = b.getLsbD i := by
  constructor
  · rintro ⟨first,second⟩ i (here | here)
    · exact first i here
    · exact second i here
  · exact fun both => ⟨fun i here => both i (Or.inl here), fun i here => both i (Or.inr here)⟩

/-- An extraction gives the same for words with the same bits in the field, and only for them. -/
theorem InstructionField.same_iff (field : InstructionField) (a b : Word) :
    field.Same a b ↔ ∀ i, field.Covers i → a.getLsbD i = b.getLsbD i := by
  have piece (lo len : Nat) : a.extractLsb' lo len = b.extractLsb' lo len ↔
      ∀ i, lo ≤ i ∧ i < lo + len → a.getLsbD i = b.getLsbD i :=
    BitField.extract_eq_iff.trans (forall_congr' fun _ => and_imp.symm)
  cases field with
  | register field =>
    rw [Same,field.of_eq,field.of_eq,piece]
    rfl
  | iImm =>
    rw [Same,getIImm_eq,getIImm_eq,Rv32i.iImm,Rv32i.iImm,BitField.signExtend_eq_iff (by decide),piece]
    rfl
  | sImm =>
    rw [Same,getSImm_eq,getSImm_eq,Rv32i.sImm,Rv32i.sImm,BitField.signExtend_eq_iff (by decide),
      BitField.append_eq_iff,piece,piece,pieces_iff]
    rfl
  | bImm =>
    rw [Same,getBImm_eq,getBImm_eq,Rv32i.bImm,Rv32i.bImm,BitField.signExtend_eq_iff (by decide)]
    simp only [BitField.append_eq_iff,and_true,piece,pieces_iff]
    rfl
  | uImm =>
    rw [Same,instructionUData,instructionUData,bitField,bitField,
      BitField.signExtend_eq_iff (by decide),piece]
    rfl
  | jImm =>
    rw [Same,getJImm_eq,getJImm_eq,Rv32i.jImm,Rv32i.jImm,BitField.signExtend_eq_iff (by decide)]
    simp only [BitField.append_eq_iff,and_true,piece,pieces_iff]
    rfl
  | shamt =>
    rw [Same,instructionIShiftShamt,instructionIShiftShamt,bitField,bitField,
      BitField.signExtend_eq_iff (by decide),piece]
    rfl
  | csr =>
    rw [Same,csrField_eq,csrField_eq,piece]
    rfl
  | csrImm =>
    rw [Same,getCsrImm_eq,getCsrImm_eq,BitField.setWidth_eq_iff (by decide),piece]
    rfl

/-- The fields that the handler of an instruction extracts. -/
def Op.fields : Op → List InstructionField
  | .add | .and | .or | .xor | .sub | .sll | .srl | .sra | .slt | .sltu | .mul | .mulh | .mulhsu
  | .mulhu | .opDiv | .divu | .rem | .remu => [.register .rd, .register .rs1, .register .rs2]
  | .addi | .andi | .ori | .xori | .slti | .sltiu | .jalr | .lb | .lbu | .lh | .lhu | .lw =>
    [.register .rd, .register .rs1, .iImm]
  | .slli | .srli | .srai => [.register .rd, .register .rs1, .shamt]
  | .sb | .sh | .sw => [.register .rs1, .register .rs2, .sImm]
  | .beq | .bne | .blt | .bge | .bltu | .bgeu => [.register .rs1, .register .rs2, .bImm]
  | .lui | .auipc => [.register .rd, .uImm]
  | .jal => [.register .rd, .jImm]
  | .csrrs | .csrrw | .csrrc => [.register .rd, .register .rs1, .csr]
  | .csrrsi | .csrrwi | .csrrci => [.register .rd, .csrImm, .csr]
  | .amoaddW | .amoorW | .amoandW | .amoxorW | .amoswapW | .sc =>
    [.register .rd, .register .rs1, .register .rs2]
  | .lr => [.register .rd, .register .rs1]
  | .ebreak | .ecall | .fence | .fencei | .wfi | .mret | .sret | .uret | .sfenceVma => []

/-- A word is the same instruction as an accepted one if it has the same bits under the mask. -/
theorem decode_same_iff {a b : Word} (decoded : decode a = some op) :
    decode b = some op ↔ ∀ i, op.entry.mask.getLsbD i = true → b.getLsbD i = a.getLsbD i := by
  rw [decode_eq_some_iff] at decoded ⊢
  have accepted : a &&& op.entry.mask = op.entry.value := decoded
  change b &&& op.entry.mask = op.entry.value ↔ _
  rw [← accepted]
  constructor
  · intro same i tested
    have bit := congrArg (fun word => word.getLsbD i) same
    simpa [tested] using bit
  · intro same
    apply BitVec.eq_of_getLsbD_eq
    intro i _
    rw [BitVec.getLsbD_and,BitVec.getLsbD_and]
    cases tested : op.entry.mask.getLsbD i with
    | false => simp
    | true => rw [same i tested]

end Emuriscv
