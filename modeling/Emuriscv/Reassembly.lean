import Emuriscv.AssemblerText
import Emuriscv.HeldStep

/-! Disassembly and assembly in turn: the assembler reads a printed line as an instruction word in
which every field that the handler extracts is that of the printed word. -/
namespace Emuriscv

open Assembler Disassembler MatchChain NameTable Numeral

/-- The branch offset as a field of the instruction. -/
def bField (word : Word) : BitVec 13 :=
  word.extractLsb' 31 1 ++ word.extractLsb' 7 1 ++ word.extractLsb' 25 6 ++ word.extractLsb' 8 4 ++ 0#1

def jField (word : Word) : BitVec 21 :=
  word.extractLsb' 31 1 ++ word.extractLsb' 12 8 ++ word.extractLsb' 20 1 ++
    word.extractLsb' 21 10 ++ 0#1

def sField (word : Word) : BitVec 12 := word.extractLsb' 25 7 ++ word.extractLsb' 7 5

namespace Assembler

def count (word : Word) : Operand := .hex (instructionIShiftShamt word &&& 0x1F)

def upperImm (word : Word) : Operand :=
  .hex ((instructionUData word <<< 12).sshiftRight 12 &&& 0xfffff)

/-- The operands of an instruction word, without abbreviation. -/
def Format.operands (pc word : Word) : Format → List Operand
  | .registers => [rd word, rs1 word, rs2 word]
  | .immediate => [rd word, rs1 word, .decimal (getIImm word)]
  | .shift => [rd word, rs1 word, count word]
  | .load => [rd word, .offset (getIImm word) (getRs1 word)]
  | .store => [rs2 word, .offset (getSImm word) (getRs1 word)]
  | .upper => [rd word, upperImm word]
  | .branch => [rs1 word, rs2 word, target word pc]
  | .jump => [rd word, .hexUpper (getJImm word + pc)]
  | .atomic => [rd word, rs2 word, .indirect (getRs1 word)]
  | .reserved => [rd word, .indirect (getRs1 word)]
  | .csr => [rd word, .csr (getIImmUnsigned word), rs1 word]
  | .csrImmediate => [rd word, .csr (getIImmUnsigned word), .decimal (getCsrImm word)]
  | .plain _ => []

/-- The demands that an instruction word meets through its operands. -/
def Format.demands (word : Word) : Format → List (Demand 32)
  | .registers => [rdIs (Rv32i.rd word), rs1Is (Rv32i.rs1 word), rs2Is (Rv32i.rs2 word)]
  | .immediate | .load | .csr =>
    [rdIs (Rv32i.rd word), rs1Is (Rv32i.rs1 word), iImmIs (word.extractLsb' 20 12)]
  | .shift => [rdIs (Rv32i.rd word), rs1Is (Rv32i.rs1 word), rs2Is (word.extractLsb' 20 5)]
  | .store => rs1Is (Rv32i.rs1 word) :: rs2Is (Rv32i.rs2 word) :: sImmIs (sField word)
  | .upper => [rdIs (Rv32i.rd word), uImmIs (word.extractLsb' 12 20)]
  | .branch => rs1Is (Rv32i.rs1 word) :: rs2Is (Rv32i.rs2 word) :: bImmIs (bField word)
  | .jump => rdIs (Rv32i.rd word) :: jImmIs (jField word)
  | .atomic => [rdIs (Rv32i.rd word), rs1Is (Rv32i.rs1 word), rs2Is (Rv32i.rs2 word), relaxed]
  | .reserved => [rdIs (Rv32i.rd word), rs1Is (Rv32i.rs1 word), relaxed]
  | .csrImmediate =>
    [rdIs (Rv32i.rd word), rs1Is (word.extractLsb' 15 5), iImmIs (word.extractLsb' 20 12)]
  | .plain fixed => fixed

/-- The fields that the operands name. -/
def Format.fields : Format → List InstructionField
  | .registers | .atomic => [.register .rd, .register .rs1, .register .rs2]
  | .immediate | .load => [.register .rd, .register .rs1, .iImm]
  | .shift => [.register .rd, .register .rs1, .shamt]
  | .store => [.register .rs1, .register .rs2, .sImm]
  | .upper => [.register .rd, .uImm]
  | .branch => [.register .rs1, .register .rs2, .bImm]
  | .jump => [.register .rd, .jImm]
  | .reserved => [.register .rd, .register .rs1]
  | .csr => [.register .rd, .register .rs1, .csr]
  | .csrImmediate => [.register .rd, .csrImm, .csr]
  | .plain _ => []

theorem fields_format (op : Op) : (format op).fields = op.fields := by
  cases op <;> rfl

theorem registerNamed_rd (word : Word) :
    registerNamed (rd word).text = some (Rv32i.rd word) := by
  rw [← getRd_eq]
  exact registerNamed_text _

theorem registerNamed_rs1 (word : Word) :
    registerNamed (rs1 word).text = some (Rv32i.rs1 word) := by
  rw [← getRs1_eq]
  exact registerNamed_text _

theorem registerNamed_rs2 (word : Word) :
    registerNamed (rs2 word).text = some (Rv32i.rs2 word) := by
  rw [← getRs2_eq]
  exact registerNamed_text _

theorem signed_iImm (word : Word) :
    signed 12 (writeSigned (getIImm word)) = some (word.extractLsb' 20 12) := by
  rw [getIImm_eq]
  exact signed_writeSigned _ (by decide)

theorem signed_sImm (word : Word) : signed 12 (writeSigned (getSImm word)) = some (sField word) := by
  rw [getSImm_eq]
  exact signed_writeSigned _ (by decide)

theorem unsigned_csrImm (word : Word) :
    unsigned 5 (writeSigned (getCsrImm word)) = some (word.extractLsb' 15 5) := by
  rw [getCsrImm_eq]
  exact unsigned_writeSigned _ (by decide)

theorem unsigned_count (word : Word) :
    unsigned 5 (count word).text = some (word.extractLsb' 20 5) := by
  have value : instructionIShiftShamt word &&& 0x1F = (word.extractLsb' 20 5).setWidth 32 := by
    apply BitVec.eq_of_getLsbD_eq
    intro i bound
    interval_cases i <;> simp [instructionIShiftShamt,bitField,BitVec.getElem_signExtend]
  rw [count,value]
  exact unsigned_hex _ (by decide)

theorem unsigned_upperImm (word : Word) :
    unsigned 20 (upperImm word).text = some (word.extractLsb' 12 20) := by
  have value : (instructionUData word <<< 12).sshiftRight 12 &&& 0xfffff =
      (word.extractLsb' 12 20).setWidth 32 := by
    rw [uData_eq]
    apply BitVec.eq_of_getLsbD_eq
    intro i bound
    simp only [BitVec.getLsbD_and,BitVec.getLsbD_sshiftRight,Rv32i.uImm,BitVec.getLsbD_append]
    interval_cases i <;> simp
  rw [upperImm,value]
  exact unsigned_hex _ (by decide)

theorem distance_bImm (pc word : Word) :
    distance 13 pc (target word pc).text = some (bField word) := by
  refine distance_of_number (bField word) (by decide) ?_ ?_
  · rw [bField,BitVec.getLsbD_append]
    rfl
  · rw [target,Operand.text,number_hex,getBImm_eq]
    rfl

theorem distance_jImm (pc word : Word) :
    distance 21 pc (Operand.hexUpper (getJImm word + pc)).text = some (jField word) := by
  refine distance_of_number (jField word) (by decide) ?_ ?_
  · rw [jField,BitVec.getLsbD_append]
    rfl
  · rw [Operand.text,number_hexUpper,getJImm_eq]
    rfl

/-- A CSR instruction names a CSR that has a name. -/
def Format.Named (word : Word) : Format → Prop
  | .csr | .csrImmediate => Assembler.Named (getIImmUnsigned word)
  | _ => True

/-- The operands are read back as the fields of the word. -/
theorem Format.read_operands (format : Format) (pc word : Word) (named : format.Named word) :
    format.read pc ((format.operands pc word).map Operand.text) = some (format.demands word) := by
  have d := registerNamed_rd word
  have a := registerNamed_rs1 word
  have b := registerNamed_rs2 word
  have imm := signed_iImm word
  have number (csr : Assembler.Named (getIImmUnsigned word)) :
      csrNamed (Operand.csr (getIImmUnsigned word)).text = some (word.extractLsb' 20 12) := by
    rw [← csrField_eq]
    exact csrNamed_text csr
  have base : registerNamed (registerText (getRs1 word)) = some (Rv32i.rs1 word) := a
  cases format with
  | registers => simp [Format.read,operands,d,a,b,demands]
  | immediate =>
    have text : (Operand.decimal (getIImm word)).text = writeSigned (getIImm word) := rfl
    simp [Format.read,operands,d,a,text,imm,demands]
  | shift => simp [Format.read,operands,d,a,unsigned_count,demands]
  | load => simp [Format.read,operands,d,address_offset,base,imm,demands]
  | store => simp [Format.read,operands,b,address_offset,base,signed_sImm,demands]
  | upper => simp [Format.read,operands,d,unsigned_upperImm,demands]
  | branch => simp [Format.read,operands,a,b,distance_bImm,demands]
  | jump => simp [Format.read,operands,d,distance_jImm,demands]
  | atomic => simp [Format.read,operands,d,b,address_indirect,base,demands]
  | reserved => simp [Format.read,operands,d,address_indirect,base,demands]
  | csr => simp [Format.read,operands,d,a,number named,demands]
  | csrImmediate =>
    have text : (Operand.decimal (getCsrImm word)).text = writeSigned (getCsrImm word) := rfl
    simp [Format.read,operands,d,number named,text,unsigned_csrImm,demands]
  | plain fixed => rfl

theorem Format.read_unnamed (format : Format) (pc word : Word) (unnamed : ¬format.Named word) :
    format.read pc ((format.operands pc word).map Operand.text) = none := by
  have number (csr : ¬Assembler.Named (getIImmUnsigned word)) :
      csrNamed (Operand.csr (getIImmUnsigned word)).text = none := csrNamed_unknown csr
  cases format with
  | csr => simp [Format.read,operands,registerNamed_rd,number unnamed]
  | csrImmediate => simp [Format.read,operands,registerNamed_rd,number unnamed]
  | _ => exact absurd trivial unnamed

theorem Format.places (format : Format) (word : Word) :
    (format.demands word).map Demand.field = (format.demands 0).map Demand.field := by
  cases format <;> rfl

/-- No operand has a place that another has, or that the encoding fixes. -/
theorem demands_apart (op : Op) (word : Word) :
    (op.encoding ++ (format op).demands word).Pairwise fun a b => a.field.Apart b.field := by
  have apart : ((op.encoding ++ (format op).demands 0).map Demand.field).Pairwise
      BitField.Field.Apart := by
    cases op <;> decide
  rw [List.map_append,← Format.places _ word,← List.map_append] at apart
  exact List.pairwise_map.mp apart

theorem sField_pieces (word : Word) : (sField word).extractLsb' 5 7 = word.extractLsb' 25 7 ∧
    (sField word).extractLsb' 0 5 = word.extractLsb' 7 5 := by
  refine ⟨?_,?_⟩
  all_goals
    apply BitVec.eq_of_getLsbD_eq
    intro i bound
    simp only [sField,BitVec.getLsbD_extractLsb',BitVec.getLsbD_append]
    interval_cases i <;> simp

theorem bField_pieces (word : Word) : (bField word).extractLsb' 12 1 = word.extractLsb' 31 1 ∧
    (bField word).extractLsb' 11 1 = word.extractLsb' 7 1 ∧
    (bField word).extractLsb' 5 6 = word.extractLsb' 25 6 ∧
    (bField word).extractLsb' 1 4 = word.extractLsb' 8 4 := by
  refine ⟨?_,?_,?_,?_⟩
  all_goals
    apply BitVec.eq_of_getLsbD_eq
    intro i bound
    simp only [bField,BitVec.getLsbD_extractLsb',BitVec.getLsbD_append]
    interval_cases i <;> simp

theorem jField_pieces (word : Word) : (jField word).extractLsb' 20 1 = word.extractLsb' 31 1 ∧
    (jField word).extractLsb' 12 8 = word.extractLsb' 12 8 ∧
    (jField word).extractLsb' 11 1 = word.extractLsb' 20 1 ∧
    (jField word).extractLsb' 1 10 = word.extractLsb' 21 10 := by
  refine ⟨?_,?_,?_,?_⟩
  all_goals
    apply BitVec.eq_of_getLsbD_eq
    intro i bound
    simp only [jField,BitVec.getLsbD_extractLsb',BitVec.getLsbD_append]
    interval_cases i <;> simp

section Met

variable {word word' : Word}

/-- The two parts of a store offset are all of it. -/
theorem sField_of_met {value : BitVec 12} (met : ∀ demand ∈ sImmIs value, demand.Met word) :
    sField word = value := by
  obtain ⟨high,low,_⟩ := by simpa only [sImmIs,List.forall_mem_cons] using met
  have upper : word.extractLsb' 25 7 = value.extractLsb' 5 7 := high
  have lower : word.extractLsb' 7 5 = value.extractLsb' 0 5 := low
  rw [sField,upper,lower]
  apply BitVec.eq_of_getLsbD_eq
  intro i bound
  simp only [BitVec.getLsbD_append,BitVec.getLsbD_extractLsb']
  interval_cases i <;> simp

/-- The lowest bit of an offset is not stored. -/
theorem bField_of_met {offset : BitVec 13} (even : offset[0] = false)
    (met : ∀ demand ∈ bImmIs offset, demand.Met word) : bField word = offset := by
  obtain ⟨first,second,third,fourth,_⟩ := by simpa only [bImmIs,List.forall_mem_cons] using met
  have bit12 : word.extractLsb' 31 1 = offset.extractLsb' 12 1 := first
  have bit11 : word.extractLsb' 7 1 = offset.extractLsb' 11 1 := second
  have upper : word.extractLsb' 25 6 = offset.extractLsb' 5 6 := third
  have lower : word.extractLsb' 8 4 = offset.extractLsb' 1 4 := fourth
  rw [bField,bit12,bit11,upper,lower]
  apply BitVec.eq_of_getLsbD_eq
  intro i bound
  simp only [BitVec.getLsbD_append,BitVec.getLsbD_extractLsb']
  interval_cases i <;> simp [even]

theorem jField_of_met {offset : BitVec 21} (even : offset[0] = false)
    (met : ∀ demand ∈ jImmIs offset, demand.Met word) : jField word = offset := by
  obtain ⟨first,second,third,fourth,_⟩ := by simpa only [jImmIs,List.forall_mem_cons] using met
  have bit20 : word.extractLsb' 31 1 = offset.extractLsb' 20 1 := first
  have upper : word.extractLsb' 12 8 = offset.extractLsb' 12 8 := second
  have bit11 : word.extractLsb' 20 1 = offset.extractLsb' 11 1 := third
  have lower : word.extractLsb' 21 10 = offset.extractLsb' 1 10 := fourth
  rw [jField,bit20,upper,bit11,lower]
  apply BitVec.eq_of_getLsbD_eq
  intro i bound
  simp only [BitVec.getLsbD_append,BitVec.getLsbD_extractLsb']
  interval_cases i <;> simp [even]

theorem bField_even (word : Word) : (bField word)[0] = false := by
  rw [← BitVec.getLsbD_eq_getElem,bField,BitVec.getLsbD_append]
  rfl

theorem jField_even (word : Word) : (jField word)[0] = false := by
  rw [← BitVec.getLsbD_eq_getElem,jField,BitVec.getLsbD_append]
  rfl

theorem sField_met (met : ∀ demand ∈ sImmIs (sField word), demand.Met word') :
    sField word' = sField word := sField_of_met met

theorem bField_met (met : ∀ demand ∈ bImmIs (bField word), demand.Met word') :
    bField word' = bField word := bField_of_met (bField_even word) met

theorem jField_met (met : ∀ demand ∈ jImmIs (jField word), demand.Met word') :
    jField word' = jField word := jField_of_met (jField_even word) met

theorem same_register (field : RegisterField)
    (met : word'.extractLsb' field.lo 5 = word.extractLsb' field.lo 5) :
    InstructionField.Same (.register field) word' word := by
  rw [InstructionField.Same,RegisterField.of_eq,RegisterField.of_eq]
  exact met

/-- A word has the fields of the other one when it meets its demands. -/
theorem Format.same_of_met (format : Format) (met : ∀ demand ∈ format.demands word, demand.Met word') :
    ∀ field ∈ format.fields, field.Same word' word := by
  have iImm (same : word'.extractLsb' 20 12 = word.extractLsb' 20 12) :
      InstructionField.Same .iImm word' word := by
    rw [InstructionField.Same,getIImm_eq,getIImm_eq,Rv32i.iImm,same]
    rfl
  have csr (same : word'.extractLsb' 20 12 = word.extractLsb' 20 12) :
      InstructionField.Same .csr word' word := by
    rw [InstructionField.Same,csrField_eq,csrField_eq,same]
  cases format with
  | registers | atomic =>
    obtain ⟨d,a,b,_⟩ := by simpa only [demands,List.forall_mem_cons] using met
    simp only [fields,List.forall_mem_cons]
    exact ⟨same_register .rd d, same_register .rs1 a, same_register .rs2 b, List.forall_mem_nil _⟩
  | reserved =>
    obtain ⟨d,a,_⟩ := by simpa only [demands,List.forall_mem_cons] using met
    simp only [fields,List.forall_mem_cons]
    exact ⟨same_register .rd d, same_register .rs1 a, List.forall_mem_nil _⟩
  | immediate | load =>
    obtain ⟨d,a,imm,_⟩ := by simpa only [demands,List.forall_mem_cons] using met
    simp only [fields,List.forall_mem_cons]
    exact ⟨same_register .rd d, same_register .rs1 a, iImm imm, List.forall_mem_nil _⟩
  | shift =>
    obtain ⟨d,a,shamt,_⟩ := by simpa only [demands,List.forall_mem_cons] using met
    simp only [fields,List.forall_mem_cons]
    exact ⟨same_register .rd d, same_register .rs1 a,
      congrArg (BitVec.signExtend 32) shamt, List.forall_mem_nil _⟩
  | store =>
    obtain ⟨a,b,imm⟩ := by simpa only [demands,List.forall_mem_cons] using met
    simp only [fields,List.forall_mem_cons]
    refine ⟨same_register .rs1 a, same_register .rs2 b, ?_, List.forall_mem_nil _⟩
    rw [InstructionField.Same,getSImm_eq,getSImm_eq]
    exact congrArg (BitVec.signExtend 32) (sField_met imm)
  | upper =>
    obtain ⟨d,imm,_⟩ := by simpa only [demands,List.forall_mem_cons] using met
    simp only [fields,List.forall_mem_cons]
    exact ⟨same_register .rd d, congrArg (BitVec.signExtend 32) imm, List.forall_mem_nil _⟩
  | branch =>
    obtain ⟨a,b,offset⟩ := by simpa only [demands,List.forall_mem_cons] using met
    simp only [fields,List.forall_mem_cons]
    refine ⟨same_register .rs1 a, same_register .rs2 b, ?_, List.forall_mem_nil _⟩
    rw [InstructionField.Same,getBImm_eq,getBImm_eq]
    exact congrArg (BitVec.signExtend 32) (bField_met offset)
  | jump =>
    obtain ⟨d,offset⟩ := by simpa only [demands,List.forall_mem_cons] using met
    simp only [fields,List.forall_mem_cons]
    refine ⟨same_register .rd d, ?_, List.forall_mem_nil _⟩
    rw [InstructionField.Same,getJImm_eq,getJImm_eq]
    exact congrArg (BitVec.signExtend 32) (jField_met offset)
  | csr =>
    obtain ⟨d,a,number,_⟩ := by simpa only [demands,List.forall_mem_cons] using met
    simp only [fields,List.forall_mem_cons]
    exact ⟨same_register .rd d, same_register .rs1 a, csr number, List.forall_mem_nil _⟩
  | csrImmediate =>
    obtain ⟨d,imm,number,_⟩ := by simpa only [demands,List.forall_mem_cons] using met
    simp only [fields,List.forall_mem_cons]
    refine ⟨same_register .rd d, ?_, csr number, List.forall_mem_nil _⟩
    rw [InstructionField.Same,getCsrImm_eq,getCsrImm_eq]
    exact congrArg (BitVec.setWidth 32) imm
  | plain fixed => exact List.forall_mem_nil _

end Met

/-- The legal encodings of an instruction are decoded as it. -/
theorem decode_of_encodes {op : Op} {word : Word} (encodes : (Instruction.handled op).Encodes word) :
    decode word = some op := by
  rw [decode_eq_some_iff]
  cases loose : op.reserved with
  | none =>
    rw [entry_pattern op loose]
    exact (encodes_iff op word).mp encodes
  | some demands => exact (accepts_shift op loose word).mpr (Or.inl encodes)

/-- The word that the assembler makes of the operands of a word. -/
def reassembled (op : Op) (word : Word) : Word :=
  (patternOf (op.encoding ++ (format op).demands word)).value

theorem reassembled_same {op : Op} {word : Word} (decoded : decode word = some op) :
    SameInstruction word (reassembled op word) op := by
  have proper := patternOf_proper (op.encoding ++ (format op).demands word)
  have met := (patternOf_accepts_iff (demands_apart op word) _).mp proper
  obtain ⟨encodes,named⟩ := List.forall_mem_append.mp met
  refine ⟨decoded, decode_of_encodes encodes, ?_⟩
  rw [← fields_format]
  exact (format op).same_of_met named

end Assembler

end Emuriscv
