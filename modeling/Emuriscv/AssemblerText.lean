import Emuriscv.Assembler
import Mathlib.Data.List.TakeWhile

/-! What the assembler makes of the texts that the disassembler prints: every operand is read
back, and a line falls into its mnemonic and its operands. -/
namespace Emuriscv.Assembler

open Disassembler (Operand Line csrName csrNames registerName registerText)
open NameTable Numeral

/-- A character that ends neither a line nor an operand. -/
def inner (c : Char) : Bool := c ≠ ',' && c ≠ '\t' && c ≠ '\n' && c ≠ '\r'

def plain (c : Char) : Bool := c ≠ '(' && inner c

set_option maxRecDepth 8000 in
theorem registers_legible : Legible Prod.fst registers plain := by
  apply legible_of_spelled
  apply Exists.intro
  apply And.intro
  · unfold registers
    dsimp only
    repeat' first | exact rfl | apply List.Forall₂.cons | exact List.Forall₂.nil
  · constructor <;> decide

/-- The standard names, and what is printed for the other numbers. -/
def printedCsrs : List (String × Word) := ("unknown-csr",0) :: csrNames

set_option maxRecDepth 8000 in
theorem printedCsrs_legible : Legible Prod.fst printedCsrs plain := by
  apply legible_of_spelled
  apply Exists.intro
  apply And.intro
  · unfold printedCsrs csrNames
    dsimp only
    repeat' first | exact rfl | apply List.Forall₂.cons | exact List.Forall₂.nil
  · constructor <;> decide +kernel

/-- The names of instructions, and what is printed for three of them. -/
def printedNames : List String := ["lr","sc","csrwwi"] ++ mnemonics.map Mnemonic.name

set_option maxRecDepth 8000 in
theorem printedNames_legible : Legible id printedNames plain := by
  apply legible_of_spelled
  apply Exists.intro
  apply And.intro
  · unfold printedNames mnemonics insMatches
    dsimp only [List.map,List.cons_append,List.nil_append]
    repeat' first | exact rfl | apply List.Forall₂.cons | exact List.Forall₂.nil
  · constructor <;> decide +kernel

theorem mnemonics_legible : Legible Mnemonic.name mnemonics plain := by
  obtain ⟨distinct,characters⟩ := printedNames_legible
  rw [List.map_id,printedNames,List.nodup_append] at distinct
  refine ⟨distinct.2.1, fun mnemonic member => ?_⟩
  exact characters _ (List.mem_append_right _ (List.mem_map_of_mem member))

/-- The names that are printed for three instructions are those of none. -/
theorem misprinted_absent {name : String} (misprinted : name ∈ ["lr","sc","csrwwi"]) :
    lookup Mnemonic.name mnemonics name.toList = none := by
  have distinct := printedNames_legible.distinct
  rw [List.map_id,printedNames,List.nodup_append] at distinct
  refine lookup_absent fun mnemonic member same => ?_
  exact distinct.2.2 name misprinted _ (List.mem_map_of_mem member) same.symm

theorem registerName_mem (index : RegisterIndex) : (registerName index,index) ∈ registers := by
  have position : ∀ index : RegisterIndex,
      registers[index.toNat]? = some (registerName index,index) := by
    rintro ⟨i,bound⟩
    interval_cases i <;> rfl
  exact List.mem_of_getElem? (position index)

theorem registerNamed_text (index : RegisterIndex) : registerNamed (registerText index) = some index := by
  have found := lookup_name registers_legible.distinct (registerName_mem index)
  rw [registerNamed,registerText,found]
  rfl

/-- The number has a name in `csr_names.h`. -/
def Named (number : Word) : Prop := ∃ entry ∈ csrNames, entry.2 = number

theorem csrName_named {number : Word} (named : Named number) : (csrName number,number) ∈ csrNames := by
  unfold csrName
  split
  next entry found =>
    have same := List.find?_some found
    simp only [decide_eq_true_eq] at same
    rw [← same]
    exact List.mem_of_find?_eq_some found
  next none =>
    obtain ⟨entry,member,same⟩ := named
    simpa [same] using List.find?_eq_none.mp none entry member

theorem csrName_unknown {number : Word} (unnamed : ¬Named number) : csrName number = "unknown-csr" := by
  unfold csrName
  split
  next entry found =>
    have same := List.find?_some found
    exact absurd ⟨entry, List.mem_of_find?_eq_some found, of_decide_eq_true same⟩ unnamed
  next => rfl

theorem csrNamed_text {number : Word} (named : Named number) :
    csrNamed (csrName number).toList = some (number.setWidth 12) := by
  have found := lookup_name (List.nodup_cons.mp printedCsrs_legible.distinct).2 (csrName_named named)
  rw [csrNamed,found]
  rfl

theorem csrNamed_unknown {number : Word} (unnamed : ¬Named number) :
    csrNamed (csrName number).toList = none := by
  have absent := (List.nodup_cons.mp printedCsrs_legible.distinct).1
  rw [csrNamed,csrName_unknown unnamed,lookup_absent]
  · rfl
  · intro entry member same
    exact absent (List.mem_map.mpr ⟨entry,member,same⟩)

theorem digit_plain {c : Char} (present : digit c ≠ none) : plain c = true := by
  have apart : c ≠ '(' ∧ c ≠ ',' ∧ c ≠ '\t' ∧ c ≠ '\n' ∧ c ≠ '\r' := by
    refine ⟨?_,?_,?_,?_,?_⟩ <;> rintro rfl <;> exact present rfl
  simp [plain,inner,apart]

theorem number_write (n : Nat) : number (write 10 n) = some (Int.ofNat n) := by
  have digits := @write_digits 10 (by decide) (by decide) n
  have trip := @read_write 10 (by decide) (by decide) n
  cases text : write 10 n with
  | nil =>
    rw [text] at trip
    contradiction
  | cons c rest =>
    rw [text] at digits trip
    have sign : c ≠ '-' := by
      rintro rfl
      exact digits '-' (by simp) rfl
    have hex (tail : Text) : rest ≠ 'x' :: tail := by
      rintro rfl
      exact digits 'x' (by simp) rfl
    unfold number
    split
    next same => exact absurd (List.cons.inj same).2 (hex _)
    next same => exact absurd (List.cons.inj same).1 sign
    next => rw [trip,Option.map_some]

theorem number_writeSigned (value : Word) : number (writeSigned value) = some value.toInt := by
  unfold writeSigned
  split
  next negative =>
    have below := value.isLt
    have high := BitVec.msb_eq_decide value
    rw [negative] at high
    have large := of_decide_eq_true high.symm
    rw [number,read_write (by decide) (by decide),Option.map_some,BitVec.toInt_eq_msb_cond,
      if_pos negative,BitVec.toNat_neg]
    refine congrArg some ?_
    change -(((2 ^ 32 - value.toNat) % 2 ^ 32 : Nat) : Int) = _
    omega
  next positive =>
    rw [number_write,BitVec.toInt_eq_msb_cond,if_neg positive]
    rfl

theorem number_hex (n : Nat) : number ('0' :: 'x' :: write 16 n) = some (Int.ofNat n) := by
  rw [number,read_write (by decide) (by decide)]
  rfl

theorem number_hexUpper (n : Nat) : number ('0' :: 'x' :: writeUpper 16 n) = some (Int.ofNat n) := by
  rw [number,read_writeUpper (by decide) (by decide)]
  rfl

variable {len : Nat}

theorem signed_writeSigned (field : BitVec len) (short : len ≤ 32) :
    signed len (writeSigned (field.signExtend 32)) = some field := by
  rw [signed,number_writeSigned,BitVec.toInt_signExtend_of_le short]
  change (if _ then _ else _) = _
  rw [BitVec.ofInt_toInt,if_pos rfl]

theorem unsigned_of_number {text : Text} (field : BitVec len)
    (value : number text = some (Int.ofNat field.toNat)) : unsigned len text = some field := by
  have whole : BitVec.ofInt len (Int.ofNat field.toNat) = field := by
    rw [Int.ofNat_eq_natCast,BitVec.ofInt_natCast,BitVec.ofNat_toNat,BitVec.setWidth_eq]
  rw [unsigned,value]
  change (if _ then _ else _) = _
  rw [whole,if_pos rfl]

theorem unsigned_hex (field : BitVec len) (short : len ≤ 32) :
    unsigned len (Operand.hex (field.setWidth 32)).text = some field := by
  refine unsigned_of_number field ?_
  rw [Operand.text,number_hex,BitVec.toNat_setWidth_of_le short]

/-- A field that is shorter than the word is printed without a sign. -/
theorem unsigned_writeSigned (field : BitVec len) (short : len < 32) :
    unsigned len (writeSigned (field.setWidth 32)) = some field := by
  have below := field.isLt
  have value : (field.setWidth 32).toNat = field.toNat := BitVec.toNat_setWidth_of_le (by omega)
  refine unsigned_of_number field ?_
  rw [number_writeSigned,BitVec.toInt_eq_toNat_of_lt,value]
  · rfl
  · have bound : 2 ^ (len + 1) ≤ 2 ^ 32 := Nat.pow_le_pow_right (by decide) short
    rw [value]
    omega

/-- The target of a jump gives back its distance. -/
theorem distance_of_number {text : Text} {pc : Word} (offset : BitVec len) (short : len ≤ 32)
    (even : offset.getLsbD 0 = false)
    (value : number text = some (Int.ofNat (offset.signExtend 32 + pc).toNat)) :
    distance len pc text = some offset := by
  have back : BitVec.ofInt 32 (Int.ofNat (offset.signExtend 32 + pc).toNat) - pc =
      offset.signExtend 32 := by
    rw [Int.ofNat_eq_natCast,BitVec.ofInt_natCast,BitVec.ofNat_toNat,BitVec.setWidth_eq,
      BitVec.add_sub_cancel]
  have cut : (offset.signExtend 32).setWidth len = offset := by
    apply BitVec.eq_of_getLsbD_eq
    intro i bound
    have low : i < 32 := by omega
    rw [BitVec.getLsbD_setWidth,BitVec.getLsbD_signExtend]
    simp only [bound,low,decide_true,Bool.true_and,if_true]
  rw [distance,value]
  change (if _ then _ else _) = _
  rw [back,cut,if_pos ⟨rfl,even⟩]

theorem writeSigned_plain {w : Nat} (value : BitVec w) : ∀ c ∈ writeSigned value, plain c = true := by
  have digits (n : Nat) : ∀ c ∈ write 10 n, plain c = true :=
    fun c member => digit_plain (write_digits (by decide) (by decide) n c member)
  unfold writeSigned
  split
  next => exact List.forall_mem_cons.mpr ⟨by decide, digits _⟩
  next => exact digits _

theorem registerText_plain (index : RegisterIndex) : ∀ c ∈ registerText index, plain c = true :=
  registers_legible.plain _ (registerName_mem index)

theorem csrName_plain (number : Word) : ∀ c ∈ (csrName number).toList, plain c = true := by
  by_cases named : Named number
  · exact printedCsrs_legible.plain _ (List.mem_cons_of_mem _ (csrName_named named))
  · rw [csrName_unknown named]
    exact printedCsrs_legible.plain ("unknown-csr",0) (by simp [printedCsrs])

theorem inner_of_plain {c : Char} (characters : plain c = true) : inner c = true :=
  (Bool.and_eq_true_iff.mp characters).2

/-- The text up to the first character that ends it, and the rest. -/
theorem cut {p : Char → Bool} {text : Text} (inside : ∀ c ∈ text, p c = true) (stop : p d = false)
    (rest : Text) : (text ++ d :: rest).takeWhile p = text ∧
      (text ++ d :: rest).dropWhile p = d :: rest := by
  have ends : ¬p d = true := by simp [stop]
  rw [List.takeWhile_append_of_pos inside,List.dropWhile_append_of_pos inside,
    List.takeWhile_cons_of_neg ends,List.dropWhile_cons_of_neg ends,List.append_nil]
  exact ⟨rfl,rfl⟩

theorem ne_paren {text : Text} (characters : ∀ c ∈ text, plain c = true) :
    ∀ c ∈ text, decide (c ≠ '(') = true :=
  fun c member => (Bool.and_eq_true_iff.mp (characters c member)).1

theorem address_text (base : Text) {offset : Text} (characters : ∀ c ∈ offset, plain c = true) :
    address (offset ++ '(' :: base ++ [')']) = some (offset,base) := by
  obtain ⟨before,after⟩ := cut (d := '(') (ne_paren characters) (by decide) (base ++ [')'])
  rw [address,List.append_assoc,List.cons_append,after,before]
  simp

theorem address_offset (value : Word) (base : RegisterIndex) :
    address (Operand.offset value base).text = some (writeSigned value, registerText base) :=
  address_text _ (writeSigned_plain value)

theorem address_indirect (base : RegisterIndex) :
    address (Operand.indirect base).text = some ([], registerText base) :=
  @address_text (registerText base) [] (List.forall_mem_nil _)

theorem address_none {text : Text} (characters : ∀ c ∈ text, plain c = true) : address text = none := by
  have all := List.dropWhile_eq_nil_iff.mpr (ne_paren characters)
  rw [address,all]

/-- No operand has a character that ends it. -/
theorem operand_inner (operand : Operand) : ∀ c ∈ operand.text, inner c = true := by
  have hex (digits : Text) (all : ∀ c ∈ digits, digit c ≠ none) :
      ∀ c ∈ '0' :: 'x' :: digits, inner c = true := by
    refine List.forall_mem_cons.mpr ⟨by decide, List.forall_mem_cons.mpr ⟨by decide, ?_⟩⟩
    exact fun c member => inner_of_plain (digit_plain (all c member))
  have register (index : RegisterIndex) : ∀ c ∈ registerText index, inner c = true :=
    fun c member => inner_of_plain (registerText_plain index c member)
  have decimal (value : Word) : ∀ c ∈ writeSigned value, inner c = true :=
    fun c member => inner_of_plain (writeSigned_plain value c member)
  have paren (offset : Text) (base : RegisterIndex) (all : ∀ c ∈ offset, inner c = true) :
      ∀ c ∈ offset ++ '(' :: registerText base ++ [')'], inner c = true := by
    simp only [List.forall_mem_append,List.forall_mem_cons]
    exact ⟨⟨all, by decide, register base⟩, by decide, List.forall_mem_nil _⟩
  cases operand with
  | register index => exact register index
  | csr number => exact fun c member => inner_of_plain (csrName_plain number c member)
  | decimal value => exact decimal value
  | hex value => exact hex _ (write_digits (by decide) (by decide) _)
  | hexUpper value => exact hex _ (writeUpper_digits (by decide) (by decide) _)
  | offset value base => exact paren _ base (decimal value)
  | indirect base => exact paren [] base (by simp)

theorem operandsText_eq (operands : List Operand) :
    Disassembler.operandsText operands = List.intercalate [','] (operands.map Operand.text) := by
  induction operands with
  | nil => rfl
  | cons operand rest ih =>
    cases rest with
    | nil => simp [Disassembler.operandsText,List.intercalate]
    | cons next rest =>
      rw [Disassembler.operandsText,ih]
      · simp [List.intercalate]
      · simp

theorem within_of_inner {c : Char} (characters : inner c = true) : within c = true := by
  simp only [inner,Bool.and_eq_true,decide_eq_true_eq] at characters
  exact decide_eq_true ⟨characters.1.2,characters.2⟩

theorem operandsText_within (operands : List Operand) :
    ∀ c ∈ Disassembler.operandsText operands, within c = true := by
  have text (operand : Operand) : ∀ c ∈ operand.text, within c = true :=
    fun c member => within_of_inner (operand_inner operand c member)
  induction operands with
  | nil => simp [Disassembler.operandsText]
  | cons operand rest ih =>
    cases rest with
    | nil => exact text operand
    | cons next rest =>
      rw [Disassembler.operandsText]
      · exact List.forall_mem_append.mpr ⟨text operand, List.forall_mem_cons.mpr ⟨by decide, ih⟩⟩
      · simp

/-- A line falls into its mnemonic and its operands. -/
theorem split_text (line : Line) (mnemonic : ∀ c ∈ line.mnemonic.toList, plain c = true)
    (newline : line.newline = "\n" ∨ line.newline = "\r\n") :
    split line.text = (line.mnemonic.toList, line.operands.map Operand.text) := by
  obtain ⟨d,rest,ending,stop⟩ : ∃ d rest, line.newline.toList = d :: rest ∧ within d = false := by
    rcases newline with unix | dos
    · exact ⟨'\n', [], by rw [unix]; rfl, by decide⟩
    · exact ⟨'\r', ['\n'], by rw [dos]; rfl, by decide⟩
  have name : ∀ c ∈ line.mnemonic.toList, within c = true :=
    fun c member => within_of_inner (inner_of_plain (mnemonic c member))
  have separated : ∀ c ∈ line.mnemonic.toList, decide (c ≠ '\t') = true := by
    intro c member
    have characters := inner_of_plain (mnemonic c member)
    simp only [inner,Bool.and_eq_true] at characters
    exact characters.1.1.2
  unfold Line.text split
  dsimp only
  by_cases empty : line.operands = []
  · have all := List.dropWhile_eq_nil_iff.mpr separated
    rw [if_pos empty,List.append_nil,ending,(cut name stop rest).1,all,empty]
    rfl
  · have body : ∀ c ∈ line.mnemonic.toList ++ '\t' :: Disassembler.operandsText line.operands,
        within c = true :=
      List.forall_mem_append.mpr
        ⟨name, List.forall_mem_cons.mpr ⟨by decide, operandsText_within line.operands⟩⟩
    obtain ⟨before,after⟩ := cut (d := '\t') separated (by decide) (Disassembler.operandsText line.operands)
    have apart : ∀ text ∈ line.operands.map Operand.text, ',' ∉ text := by
      intro text member comma
      obtain ⟨operand,_,rfl⟩ := List.mem_map.mp member
      exact absurd (operand_inner operand ',' comma) (by decide)
    rw [if_neg empty,ending,(cut body stop rest).1,after,before]
    dsimp only
    rw [operandsText_eq,List.splitOn_intercalate ',' apart (by simpa using empty)]

end Emuriscv.Assembler
