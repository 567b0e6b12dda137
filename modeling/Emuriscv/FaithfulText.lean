import Emuriscv.Reassembly

/-! The text of an instruction against the instruction. Each printed line, an abbreviation or not,
expands to the operation with the operands of its word, so that the assembler gives back an
instruction of the same effect. The names of CSRs and a few mnemonics are what can fail. -/
namespace Emuriscv

open Assembler Disassembler MatchChain NameTable Numeral

/-- The line stands for the operation with these operands. -/
def Expands (line : Line) (op : Op) (operands : List Operand) : Prop :=
  ∃ mnemonic : Mnemonic, line.mnemonic = mnemonic.name ∧
    mnemonic.expand (line.operands.map Operand.text) = some (op, operands.map Operand.text) ∧
    (line.newline = "\n" ∨ line.newline = "\r\n")

theorem mnemonic_mem (mnemonic : Mnemonic) : mnemonic ∈ mnemonics := by
  cases mnemonic with
  | instruction op =>
    obtain ⟨member,same⟩ := op.entry_mem
    exact List.mem_append_left _ (List.mem_map.mpr ⟨op.entry, member, congrArg Mnemonic.instruction same⟩)
  | pseudo p =>
    refine List.mem_append_right _ (List.mem_map_of_mem ?_)
    cases p <;> decide

theorem assemble_expands {line : Line} {operands : List Operand} (expands : Expands line op operands)
    (pc : Word) : assemble pc line.text = ((format op).read pc (operands.map Operand.text)).map
      fun demands => (patternOf (op.encoding ++ demands)).value := by
  obtain ⟨mnemonic,name,expanded,newline⟩ := expands
  have member := mnemonic_mem mnemonic
  have characters := name ▸ mnemonics_legible.plain mnemonic member
  have found := lookup_name mnemonics_legible.distinct member
  rw [assemble,split_text line characters newline,name]
  dsimp only
  rw [found]
  change (mnemonic.expand _).bind _ = _
  rw [expanded]
  change ((format op).read pc _).bind _ = _
  cases (format op).read pc (operands.map Operand.text) <;> rfl

/-- The mnemonic of the instruction stands for itself. -/
theorem expands_plain {op : Op} {printed : Line} (many : op ≠ .jalr)
    (same : printed = { mnemonic := instructionName op, operands := operands }) :
    Expands printed op operands := by
  subst same
  refine ⟨.instruction op, rfl, ?_, Or.inl rfl⟩
  cases op <;> first | rfl | contradiction

theorem expands_pseudo (p : Pseudo) (operands : List Operand)
    (expanded : (Mnemonic.pseudo p).expand (operands.map Operand.text) =
      some (op, operands'.map Operand.text)) :
    Expands ⟨p.name,operands,"\n"⟩ op operands' :=
  ⟨.pseudo p, rfl, expanded, Or.inl rfl⟩

theorem decimal_text : (Operand.decimal 0).text = ['0'] ∧ (Operand.decimal 1).text = ['1'] ∧
    (Operand.decimal (-1)).text = ['-','1'] := by
  decide

theorem register_zero {index : RegisterIndex} (same : index = 0) :
    (Operand.register index).text = zero := by
  rw [same]
  rfl

section Lines

variable (pc word : Word)

theorem iImm_bitField : instructionIImm word = getIImm word :=
  (instructionIImm_eq word).trans (getIImm_eq word).symm

theorem addi_expands : Expands (addi word) .addi [rd word, rs1 word, .decimal (getIImm word)] := by
  unfold addi
  dsimp only
  split
  next source =>
    split
    next both =>
      refine expands_pseudo .nop [] ?_
      simp only [List.map,rd,rs1,register_zero both.1,register_zero source,both.2,decimal_text]
      rfl
    next =>
      refine expands_pseudo .li _ ?_
      simp only [List.map,rs1,register_zero source]
      rfl
  next =>
    split
    next imm =>
      refine expands_pseudo .mv _ ?_
      simp only [List.map,imm,decimal_text]
      rfl
    next => exact expands_plain (by decide) rfl

theorem xori_expands : Expands (xori word) .xori [rd word, rs1 word, .decimal (getIImm word)] := by
  unfold xori
  rw [iImm_bitField]
  split
  next imm =>
    refine expands_pseudo .not _ ?_
    simp only [List.map,imm,decimal_text]
    rfl
  next => exact expands_plain (by decide) rfl

theorem sltiu_expands : Expands (sltiu word) .sltiu [rd word, rs1 word, .decimal (getIImm word)] := by
  unfold sltiu
  rw [iImm_bitField]
  split
  next imm =>
    refine expands_pseudo .seqz _ ?_
    simp only [List.map,imm,decimal_text]
    rfl
  next => exact expands_plain (by decide) rfl

/-- `sub`, `slt` and `sltu` have a name of their own when the first operand is `x0`. -/
theorem zeroFirst_expands (op : Op) (p : Pseudo) (many : op ≠ .jalr)
    (expanded : ∀ d b, (Mnemonic.pseudo p).expand [d,b] = some (op, [d, zero, b])) :
    Expands (if getRs1 word = 0 then { mnemonic := p.name, operands := [rd word, rs2 word] }
      else Disassembler.registers (instructionName op) word) op [rd word, rs1 word, rs2 word] := by
  split
  next source =>
    refine expands_pseudo p _ ?_
    simp only [List.map,rs1,register_zero source]
    exact expanded _ _
  next => exact expands_plain many rfl

/-- A branch that compares with `x0` has a name of its own. -/
theorem branchZero_expands (op : Op) (p : Pseudo)
    (expanded : ∀ a t, (Mnemonic.pseudo p).expand [a,t] = some (op, [a, zero, t]))
    (second : getRs2 word = 0) : Expands (branchZero p.name word (getRs1 word) pc) op
      [rs1 word, rs2 word, target word pc] := by
  refine expands_pseudo p _ ?_
  simp only [List.map,rs2,register_zero second]
  exact expanded _ _

theorem zeroBranch_expands (op : Op) (p : Pseudo)
    (expanded : ∀ b t, (Mnemonic.pseudo p).expand [b,t] = some (op, [zero, b, t]))
    (first : getRs1 word = 0) : Expands (branchZero p.name word (getRs2 word) pc) op
      [rs1 word, rs2 word, target word pc] := by
  refine expands_pseudo p _ ?_
  simp only [List.map,rs1,register_zero first]
  exact expanded _ _

theorem equality_expands (op : Op) (p : Pseudo) (many : op ≠ .jalr)
    (expanded : ∀ a t, (Mnemonic.pseudo p).expand [a,t] = some (op, [a, zero, t])) :
    Expands (if getRs2 word = 0 then branchZero p.name word (getRs1 word) pc
      else Disassembler.branch (instructionName op) word pc) op
      [rs1 word, rs2 word, target word pc] := by
  split
  next second => exact branchZero_expands pc word op p expanded second
  next => exact expands_plain many rfl

theorem order_expands (op : Op) (p p' : Pseudo) (many : op ≠ .jalr)
    (expanded : ∀ a t, (Mnemonic.pseudo p).expand [a,t] = some (op, [a, zero, t]))
    (expanded' : ∀ b t, (Mnemonic.pseudo p').expand [b,t] = some (op, [zero, b, t])) :
    Expands (if getRs2 word = 0 then branchZero p.name word (getRs1 word) pc
      else if getRs1 word = 0 then branchZero p'.name word (getRs2 word) pc
      else Disassembler.branch (instructionName op) word pc) op
      [rs1 word, rs2 word, target word pc] := by
  split
  next second => exact branchZero_expands pc word op p expanded second
  next =>
    split
    next first => exact zeroBranch_expands pc word op p' expanded' first
    next => exact expands_plain many rfl

theorem jal_expands : Expands (jal pc word) .jal [rd word, .hexUpper (getJImm word + pc)] := by
  unfold jal
  dsimp only
  split
  next link =>
    refine expands_pseudo .j _ ?_
    simp only [List.map,rd,register_zero link]
    rfl
  next => exact expands_plain (by decide) rfl

/-- The two forms of a CSR instruction, by whether it has a destination. -/
theorem printCsr_expands (op : Op) (p : Pseudo) (many : op ≠ .jalr)
    (expanded : ∀ n a, (Mnemonic.pseudo p).expand [n,a] = some (op, [zero, n, a])) :
    Expands (printCsr word (instructionName op) p.name) op
      [rd word, .csr (getIImmUnsigned word), rs1 word] := by
  unfold printCsr
  dsimp only
  split
  next destination =>
    refine expands_pseudo p _ ?_
    simp only [List.map,rd,register_zero destination]
    exact expanded _ _
  next => exact expands_plain many rfl

theorem printCsri_expands (op : Op) (p : Pseudo) (many : op ≠ .jalr) (full : String)
    (expanded : ∀ n i, (Mnemonic.pseudo p).expand [n,i] = some (op, [zero, n, i]))
    (name : getRd word ≠ 0 → full = instructionName op) :
    Expands (printCsri word full p.name) op
      [rd word, .csr (getIImmUnsigned word), .decimal (getCsrImm word)] := by
  unfold printCsri
  dsimp only
  split
  next destination =>
    refine expands_pseudo p _ ?_
    simp only [List.map,rd,register_zero destination]
    exact expanded _ _
  next destination =>
    rw [name destination]
    exact expands_plain many rfl

theorem csrrs_expands : Expands (csrrs word) .csrrs
    [rd word, .csr (getIImmUnsigned word), rs1 word] := by
  unfold csrrs
  split
  next source =>
    refine expands_pseudo .csrr _ ?_
    simp only [List.map,rs1,register_zero source]
    rfl
  next => exact printCsr_expands word .csrrs .csrs (by decide) fun _ _ => rfl

theorem register_ra {index : RegisterIndex} (same : index = 1) :
    (Operand.register index).text = ra := by
  rw [same]
  rfl

/-- A jump that links in another register must not leave its name out. -/
def LeavesOutLink (word : Word) : Prop :=
  getRd word = getRs1 word ∧ getRd word ≠ 1 ∧ ¬(getIImm word = 0 ∧ getRd word = 0)

instance : Decidable (LeavesOutLink word) := inferInstanceAs (Decidable (_ ∧ _ ∧ _))

theorem jalr_expands (named : ¬LeavesOutLink word) :
    Expands (jalr word) .jalr [rd word, rs1 word, .decimal (getIImm word)] := by
  unfold jalr
  dsimp only
  split
  next all =>
    refine expands_pseudo .ret [] ?_
    simp only [List.map,rd,rs1,register_zero all.2.1,register_ra all.2.2,all.1,decimal_text]
    rfl
  next =>
    split
    next both =>
      have simple : address (rs1 word).text = none := address_none (registerText_plain _)
      refine ⟨.instruction .jalr, rfl, ?_, Or.inl rfl⟩
      simp only [List.map,Mnemonic.expand,simple,rd,register_ra both.2,both.1,decimal_text]
    next =>
      split
      next both =>
        refine expands_pseudo .jr _ ?_
        simp only [List.map,rd,register_zero both.2,both.1,decimal_text]
        rfl
      next other =>
        split
        next same =>
          have link : getRd word = 1 := by
            by_contra different
            exact named ⟨same,different,other⟩
          refine ⟨.instruction .jalr, rfl, ?_, Or.inl rfl⟩
          simp only [List.map,Mnemonic.expand,address_offset,rd,register_ra link]
          rfl
        next => exact ⟨.instruction .jalr, rfl, rfl, Or.inl rfl⟩

end Lines

/-- The mnemonic is not that of an instruction, or the line is that of another one. -/
def Misprinted (op : Op) (word : Word) : Prop :=
  match op with
  | .lr | .sc => True
  | .csrrwi => getRd word ≠ 0
  | .jalr => LeavesOutLink word
  | _ => False

/-- Every line stands for its operation and the operands of its word. -/
theorem line_expands {op : Op} (pc word : Word) (printed : ¬Misprinted op word) :
    Expands (line op pc word) op ((format op).operands pc word) := by
  cases op
  case addi => exact addi_expands word
  case xori => exact xori_expands word
  case sltiu => exact sltiu_expands word
  case ori | slti =>
    refine expands_plain (by decide) ?_
    simp only [line,Disassembler.ori,Disassembler.slti,iImm_bitField]
    rfl
  case sub => exact zeroFirst_expands word .sub .neg (by decide) fun _ _ => rfl
  case slt => exact zeroFirst_expands word .slt .sgtz (by decide) fun _ _ => rfl
  case sltu => exact zeroFirst_expands word .sltu .snez (by decide) fun _ _ => rfl
  case beq => exact equality_expands pc word .beq .beqz (by decide) fun _ _ => rfl
  case bne => exact equality_expands pc word .bne .bnez (by decide) fun _ _ => rfl
  case bge => exact order_expands pc word .bge .bgez .blez (by decide) (fun _ _ => rfl) fun _ _ => rfl
  case blt => exact order_expands pc word .blt .bltz .bgtz (by decide) (fun _ _ => rfl) fun _ _ => rfl
  case jal => exact jal_expands pc word
  case jalr => exact jalr_expands word printed
  case csrrs => exact csrrs_expands word
  case csrrw => exact printCsr_expands word .csrrw .csrw (by decide) fun _ _ => rfl
  case csrrc => exact printCsr_expands word .csrrc .csrc (by decide) fun _ _ => rfl
  case csrrsi =>
    exact printCsri_expands word .csrrsi .csrsi (by decide) _ (fun _ _ => rfl) fun _ => rfl
  case csrrci =>
    exact printCsri_expands word .csrrci .csrci (by decide) _ (fun _ _ => rfl) fun _ => rfl
  case csrrwi =>
    exact printCsri_expands word .csrrwi .csrwi (by decide) _ (fun _ _ => rfl) fun other =>
      absurd other printed
  case lr | sc => exact absurd trivial printed
  case sfenceVma => exact ⟨.instruction .sfenceVma, rfl, rfl, Or.inr rfl⟩
  all_goals exact expands_plain (by decide) rfl

/-- Either word has the effect of the other from every state, and so has a step of the machine that
fetches the first, when its accesses have not changed what its handler extracts after them. -/
structure SameEffect [Platform] (word word' : Word) : Prop where
  held : ∀ s, stepWord word s = stepWord word' s
  fetched : ∀ s f p op, Fetches s f p op → deref f p = word →
    (∀ field u, Rereads f p op field u → field.of (deref u p) = field.of word) →
    emulateOp s = stepWord word' f

/-- The text denotes, at this address, an instruction that has the effect of the word. -/
def Denotes [Platform] (pc : Word) (text : Text) (word : Word) : Prop :=
  ∃ word', assemble pc text = some word' ∧ SameEffect word word'

theorem SameInstruction.sameEffect [Platform] (same : SameInstruction word word' op) :
    SameEffect word word' := by
  constructor
  case held => exact stepWord_congr same
  case fetched =>
    rintro s f p op fetched rfl spared
    rw [emulateOp_stepWord fetched spared,stepWord_congr same]

/-- The instruction names a CSR that has no name. -/
def Op.Unnamed (op : Op) (word : Word) : Prop :=
  op.csrOp ≠ none ∧ ¬Assembler.Named (getIImmUnsigned word)

theorem named_iff (op : Op) (word : Word) : (format op).Named word ↔ ¬op.Unnamed word := by
  unfold Op.Unnamed
  cases op <;> simp [format,Format.Named,Op.csrOp]

section Text

variable {op : Op} {word : Word} (pc : Word) (decoded : decode word = some op)
  (printed : ¬Misprinted op word)

include decoded printed

theorem assemble_disassembleOp : assemble pc (disassembleOp word pc) =
    ((format op).read pc (((format op).operands pc word).map Operand.text)).map
      fun demands => (patternOf (op.encoding ++ demands)).value := by
  rw [disassembleOp,show select word = some op from decoded]
  exact assemble_expands (line_expands pc word printed) pc

theorem named_denotes [Platform] (named : ¬op.Unnamed word) :
    Denotes pc (disassembleOp word pc) word := by
  rw [← named_iff] at named
  rw [Denotes,assemble_disassembleOp pc decoded printed,(format op).read_operands pc word named]
  exact ⟨_, rfl, (reassembled_same decoded).sameEffect⟩

theorem unnamed_assemble (unnamed : op.Unnamed word) : assemble pc (disassembleOp word pc) = none := by
  have other : ¬(format op).Named word := fun named => (named_iff op word).mp named unnamed
  rw [assemble_disassembleOp pc decoded printed,(format op).read_unnamed pc word other]
  rfl

end Text

/-- The text of an instruction denotes one of the same effect, unless it names a CSR that has no
name: then it denotes none. -/
theorem disassembleOp_denotes [Platform] (pc word : Word) (op : Op) (decoded : decode word = some op)
    (printed : ¬Misprinted op word) :
    (¬op.Unnamed word → Denotes pc (disassembleOp word pc) word) ∧
      (op.Unnamed word → assemble pc (disassembleOp word pc) = none) :=
  ⟨named_denotes pc decoded printed, unnamed_assemble pc decoded printed⟩

/-- `addi a0, zero, 5`, which is printed as `li a0,5`. -/
theorem disassembleOp_denotes_li : @Denotes clearingPlatform 0x80000000
    (disassembleOp 0x00500513 0x80000000) 0x00500513 := by
  have both := @disassembleOp_denotes clearingPlatform 0x80000000 0x00500513 .addi (by decide) id
  exact both.1 fun unnamed => unnamed.1 rfl

/-- `csrrw zero, 0x7c0, zero` is printed with `unknown-csr`. -/
theorem customCsr_denotes_none : decode 0x7c001073 = some .csrrw ∧
    ¬@Denotes clearingPlatform 0x80000000 (disassembleOp 0x7c001073 0x80000000) 0x7c001073 := by
  have decoded : decode 0x7c001073 = some .csrrw := by decide
  have unnamed : Op.Unnamed .csrrw 0x7c001073 := by
    refine ⟨by decide, ?_⟩
    rintro ⟨entry,member,same⟩
    have other : ∀ entry ∈ csrNames, entry.2 ≠ getIImmUnsigned 0x7c001073 := by decide +kernel
    exact other entry member same
  refine ⟨decoded,?_⟩
  rintro ⟨word',denoted,_⟩
  rw [unnamed_assemble 0x80000000 decoded id unnamed] at denoted
  contradiction

theorem assemble_misprinted {line : Line} (name : line.mnemonic ∈ ["lr","sc","csrwwi"])
    (newline : line.newline = "\n") (pc : Word) : assemble pc line.text = none := by
  have characters := printedNames_legible.plain line.mnemonic (List.mem_append_left _ name)
  rw [assemble,split_text line characters (Or.inl newline)]
  dsimp only
  rw [misprinted_absent name]
  rfl

theorem stepWord_jalr [Platform] {word : Word} (decoded : decode word = some .jalr) (s : State) :
    stepWord word s = .ok (finishOp { s with
      x := writeX s.x (getRd word) s.pc
      pc := s.x (getRs1 word) + getIImm word }) := by
  let after (s : State) (x : RegisterIndex → Word) (pc : Word) : State := { s with x := x, pc := pc }
  have ran : execute .jalr (hold (byteOf word) s) (heldPtr s) = .ok (hold (byteOf word)
      (after s (writeX s.x (getRd word) s.pc) (s.x (getRs1 word) + getIImm word))) := by
    refine congrArg Except.ok ?_
    rw [Handler.jalr,setRdValue_eq,getRs1Value,getReg,deref_held]
    rfl
  have self (x : RegisterIndex → Word) (pc : Word) :
      hold (s.ram s.memoryMap.length) (after s x pc) = after s x pc :=
    congrArg (fun s => after s x pc) (hold_self s)
  rw [stepWord,decoded]
  dsimp only
  rw [ran,ok_bind,hold_hold,self]
  rfl

/-- The link tells the destinations of two jumps apart. -/
theorem jalr_effect [Platform] {word word' : Word} (decoded : decode word = some .jalr)
    (decoded' : decode word' = some .jalr) (link : getRd word' = 1) (other : getRd word ≠ 1) :
    ¬SameEffect word word' := by
  intro same
  have both := same.held { guest privM [] with pc := 4 }
  rw [stepWord_jalr decoded,stepWord_jalr decoded'] at both
  have x := congrArg (fun s : State => s.x 1) (Except.ok.inj both)
  simp only [(finishOp_frame _).1,link] at x
  have linked : writeX (guest privM []).x 1 4 1 = 4 := rfl
  have unlinked : writeX (guest privM []).x (getRd word) 4 1 = 0 := by
    rw [writeX]
    split
    next => rfl
    next => exact Function.update_of_ne (Ne.symm other) ..
  rw [linked,unlinked] at x
  contradiction

theorem link_expands {word : Word} (misprinted : LeavesOutLink word) :
    Expands (jalr word) .jalr [.register 1, rs1 word, .decimal (getIImm word)] := by
  obtain ⟨same,other,still⟩ := misprinted
  have returns : ¬(getIImm word = 0 ∧ getRd word = 0 ∧ getRs1 word = 1) :=
    fun all => still ⟨all.1,all.2.1⟩
  have links : ¬(getIImm word = 0 ∧ getRd word = 1) := fun both => other both.2
  rw [jalr,if_neg returns,if_neg links,if_neg still,if_pos same]
  refine ⟨.instruction .jalr, rfl, ?_, Or.inl rfl⟩
  simp only [List.map,Mnemonic.expand,address_offset]
  rfl

theorem misprinted_line {op : Op} {word : Word} (pc : Word) (misprinted : Misprinted op word)
    (many : op ≠ .jalr) : (line op pc word).mnemonic ∈ ["lr","sc","csrwwi"] ∧
      (line op pc word).newline = "\n" := by
  cases op
  case jalr => contradiction
  case lr => exact ⟨List.mem_cons_self, rfl⟩
  case sc => exact ⟨List.mem_cons_of_mem _ List.mem_cons_self, rfl⟩
  case csrrwi =>
    have destination : getRd word ≠ 0 := misprinted
    have full : line .csrrwi pc word = { mnemonic := "csrwwi", operands :=
        [rd word, .csr (getIImmUnsigned word), .decimal (getCsrImm word)] } := if_neg destination
    rw [full]
    exact ⟨List.mem_of_getLast? rfl, rfl⟩
  all_goals exact misprinted.elim

/-- The link register is in the word that the assembler makes of the line. -/
theorem assemble_link {word word' : Word} (pc : Word) (misprinted : LeavesOutLink word)
    (denoted : assemble pc (jalr word).text = some word') :
    decode word' = some .jalr ∧ getRd word' = 1 := by
  let demands := [rdIs 1, rs1Is (Rv32i.rs1 word), iImmIs (word.extractLsb' 20 12)]
  have link : registerNamed (Operand.register 1#5).text = some 1#5 := by decide
  have imm : (Operand.decimal (getIImm word)).text = writeSigned (getIImm word) := rfl
  have read : (format .jalr).read pc ([Operand.register 1, rs1 word,
      .decimal (getIImm word)].map Operand.text) = some demands := by
    simp [format,Format.read,link,registerNamed_rs1,imm,signed_iImm,demands]
  rw [assemble_expands (link_expands misprinted),read] at denoted
  obtain rfl := Option.some.inj denoted
  have apart : (Op.jalr.encoding ++ demands).Pairwise fun a b => a.field.Apart b.field := by
    have places := List.pairwise_map.mpr (demands_apart .jalr word)
    exact List.pairwise_map.mp places
  have proper := patternOf_proper (Op.jalr.encoding ++ demands)
  have met := (patternOf_accepts_iff apart _).mp proper
  obtain ⟨encodes,named⟩ := List.forall_mem_append.mp met
  refine ⟨decode_of_encodes encodes, ?_⟩
  rw [getRd_eq]
  exact named _ List.mem_cons_self

/-- What is left out denotes no instruction or one of another effect. -/
theorem misprinted_misleads [Platform] {op : Op} {word : Word} (pc : Word)
    (decoded : decode word = some op) (misprinted : Misprinted op word) :
    ¬Denotes pc (disassembleOp word pc) word := by
  rintro ⟨word',denoted,same⟩
  rw [disassembleOp,show select word = some op from decoded] at denoted
  dsimp only at denoted
  by_cases many : op = .jalr
  · subst many
    have leaves : LeavesOutLink word := misprinted
    have both := assemble_link pc leaves denoted
    exact jalr_effect decoded both.1 both.2 leaves.2.1 same
  · have absent := misprinted_line pc misprinted many
    rw [assemble_misprinted absent.1 absent.2] at denoted
    contradiction

end Emuriscv
