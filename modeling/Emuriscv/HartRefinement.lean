import Emuriscv.AddressSpace
import Emuriscv.AtomicStep
import Emuriscv.LegalEncoding
import Emuriscv.MultiplyStep
import Emuriscv.Reset
import Emuriscv.Rv32ima

/-! Programs of the architecture. Step for step the emulator does what the hart does on the flat
memory that the state shows, whatever the address space, as long as the program keeps away from
what the handlers do differently. -/
namespace Emuriscv

open LabelledRun

theorem store_mod (m : FlatMemory.Memory) (address width value : Nat) :
    FlatMemory.store m address width (value % 256 ^ width) = FlatMemory.store m address width value := by
  rw [FlatMemory.store_eq_storeBytes,FlatMemory.store_eq_storeBytes,FlatMemory.toBytes_mod]

def Op.load : Op → Option (Rv32ima.Width × Bool)
  | .lb => some (.byte,true)
  | .lbu => some (.byte,false)
  | .lh => some (.half,true)
  | .lhu => some (.half,false)
  | .lw => some (.word,true)
  | _ => none

def Op.store : Op → Option Rv32ima.Width
  | .sb => some .byte
  | .sh => some .half
  | .sw => some .word
  | _ => none

namespace AddressSpace

variable {space : AddressSpace} [Platform] {s : State} {address : Word} {op : Op}
  {width : Rv32ima.Width}

/-- A read as `memory.c` returns it. -/
theorem Lawful.value {sizeLog2 bits : Nat} (lawful : space.Lawful) (shown : space.shows s m)
    (size : sizeLog2 ≤ 2) (same : bits = 8 * 2 ^ sizeLog2)
    (inside : space.inside address (2 ^ sizeLog2)) : ∃ t, readCommon s address sizeLog2 = .ok
      ((BitVec.ofNat bits (FlatMemory.load m address.toNat (2 ^ sizeLog2))).setWidth 32, t) ∧
      RamOnly s t ∧ space.shows t m := by
  obtain ⟨value,t,read,number,only,shown⟩ := lawful.read shown size inside
  have fits : bits ≤ 32 := by
    rw [same]
    calc 8 * 2 ^ sizeLog2 ≤ 8 * 2 ^ 2 := Nat.mul_le_mul_left 8 (Nat.pow_le_pow_right (by decide) size)
      _ = 32 := rfl
  rw [word_of_small number (load_small m address.toNat same) fits] at read
  exact ⟨t,read,only,shown⟩

theorem Lawful.readWord (lawful : space.Lawful) (shown : space.shows s m)
    (inside : space.inside address 4) : ∃ t, readWord s address =
      .ok (BitVec.ofNat 32 (FlatMemory.load m address.toNat 4), t) ∧ RamOnly s t ∧ space.shows t m := by
  obtain ⟨t,read,rest⟩ := lawful.value shown (show 2 ≤ 2 by decide) (show 32 = 8 * 2 ^ 2 by rfl) inside
  rw [BitVec.setWidth_eq] at read
  exact ⟨t,read,rest⟩

/-- A load reads what the architecture has it read. -/
theorem Lawful.load (lawful : space.Lawful) (loads : op.load = some (width,signed))
    (shown : space.shows s m) (inside : space.inside address width.bytes) :
    ∃ read t, (∀ s p, execute op s p = Handler.loadOp read s p) ∧ read s address =
      .ok (width.extend signed (FlatMemory.load m address.toNat width.bytes), t) ∧
      RamOnly s t ∧ space.shows t m := by
  cases op <;> simp only [Op.load,Option.some.injEq,Prod.mk.injEq,reduceCtorEq] at loads
  all_goals obtain ⟨rfl,rfl⟩ := loads
  case lb =>
    obtain ⟨t,read,rest⟩ := lawful.value shown (show 0 ≤ 2 by decide) (show 8 = 8 * 2 ^ 0 by rfl) inside
    refine ⟨_, t, fun _ _ => rfl, ?_, rest⟩
    rw [readByteSigned,sizeByte,read]
    exact congrArg (fun value => Except.ok (value,t)) (extendByte _)
  case lbu =>
    obtain ⟨t,read,rest⟩ := lawful.value shown (show 0 ≤ 2 by decide) (show 8 = 8 * 2 ^ 0 by rfl) inside
    exact ⟨_, t, fun _ _ => rfl, read, rest⟩
  case lh =>
    obtain ⟨t,read,rest⟩ := lawful.value shown (show 1 ≤ 2 by decide) (show 16 = 8 * 2 ^ 1 by rfl) inside
    refine ⟨_, t, fun _ _ => rfl, ?_, rest⟩
    rw [readHalfwordSigned,sizeHalf,read]
    exact congrArg (fun value => Except.ok (value,t)) (extendHalfword _)
  case lhu =>
    obtain ⟨t,read,rest⟩ := lawful.value shown (show 1 ≤ 2 by decide) (show 16 = 8 * 2 ^ 1 by rfl) inside
    exact ⟨_, t, fun _ _ => rfl, read, rest⟩
  case lw =>
    obtain ⟨t,read,rest⟩ := lawful.readWord shown inside
    refine ⟨_, t, fun _ _ => rfl, read.trans ?_, rest⟩
    simp [Rv32ima.Width.extend,Rv32ima.Width.bytes]

theorem Lawful.writeWord (lawful : space.Lawful) (shown : space.shows s m)
    (inside : space.inside address 4) (value : Word) : ∃ t, writeWord s address value = .ok t ∧
      RamOnly s t ∧ space.shows t (FlatMemory.store m address.toNat 4 value.toNat) :=
  lawful.write shown (show 2 ≤ 2 by decide) inside value

/-- A store leaves the memory that the architecture leaves, and nothing else but RAM changes. -/
theorem Lawful.store {p : WordPtr} (lawful : space.Lawful) (stores : op.store = some width)
    (shown : space.shows s m)
    (inside : space.inside (getRs1Value s p + getSImm (deref s p)) width.bytes) :
    ∃ t, execute op s p = .ok t ∧ RamOnly s t ∧ space.shows t (FlatMemory.store m
      (getRs1Value s p + getSImm (deref s p)).toNat width.bytes (getRs2Value s p).toNat) := by
  cases op <;> simp only [Op.store,Option.some.injEq,reduceCtorEq] at stores
  all_goals subst stores
  case sb =>
    obtain ⟨t,written,only,after⟩ := lawful.write shown (show 0 ≤ 2 by decide) inside
      (((getRs2Value s p).setWidth 8).setWidth 32)
    have value : (((getRs2Value s p).setWidth 8).setWidth 32).toNat = (getRs2Value s p).toNat % 256 ^ 1 := by
      rw [widened_toNat,BitVec.toNat_setWidth]
      rfl
    rw [value,show 2 ^ 0 = 1 from rfl,store_mod] at after
    exact ⟨t,written,only,after⟩
  case sh =>
    obtain ⟨t,written,only,after⟩ := lawful.write shown (show 1 ≤ 2 by decide) inside
      (((getRs2Value s p).setWidth 16).setWidth 32)
    have value : (((getRs2Value s p).setWidth 16).setWidth 32).toNat = (getRs2Value s p).toNat % 256 ^ 2 := by
      rw [BitVec.toNat_setWidth_of_le (by decide),BitVec.toNat_setWidth]
      rfl
    rw [value,show 2 ^ 1 = 2 from rfl,store_mod] at after
    exact ⟨t,written,only,after⟩
  case sw => exact lawful.writeWord shown inside (getRs2Value s p)

end AddressSpace

def Shift.arith : Shift → Rv32i.Arith
  | .left => .sll
  | .logical => .srl
  | .arithmetic => .sra

def AmoOp.law : AmoOp → Rv32ima.Amo
  | .add => .add
  | .and => .and
  | .or => .or
  | .xor => .xor
  | .swap => .swap

/-- The instruction of the architecture that a handler is for. -/
inductive Op.Means : Op → Rv32ima.Instruction → Prop
  | computation (computes : op.computation = some which) : Means op (.computation which)
  | shift (which : Shift) : Means which.immediate (.computation (.immediate which.arith))
  | transfer (transfers : op.transfer = some which) : Means op (.transfer which)
  | jalr : Means .jalr .jalr
  | multiply (multiplies : op.multiply = some which) : Means op (.multiply which)
  | load (loads : op.load = some (width,signed)) : Means op (.load width signed)
  | store (stores : op.store = some width) : Means op (.store width)
  | amo (which : AmoOp) : Means which.op (.amo which.law)
  | loadReserved : Means .lr .loadReserved
  | storeConditional : Means .sc .storeConditional
  | fence : Means .fence .fence

/-- The instruction that is encoded; the last four have no handler. -/
inductive Instruction.Means : Instruction → Rv32ima.Instruction → Prop
  | handled {op : Op} (means : op.Means which) : Means (.handled op) which
  | min : Means .amominW (.amo .min)
  | max : Means .amomaxW (.amo .max)
  | minu : Means .amominuW (.amo .minu)
  | maxu : Means .amomaxuW (.amo .maxu)

/-- The legal encodings. -/
def Encoded (instruction : Rv32ima.Instruction) (word : Word) : Prop :=
  ∃ encoding : Instruction, encoding.Means instruction ∧ encoding.Encodes word

theorem Encoded.of_means (op : Op) (means : op.Means instruction)
    (encodes : (Instruction.handled op).Encodes word) : Encoded instruction word :=
  ⟨.handled op, .handled means, encodes⟩

theorem decode_of_encodes {op : Op} (encodes : (Instruction.handled op).Encodes word) :
    decode word = some op := by
  rw [decode_eq_some_iff]
  cases loose : op.reserved with
  | none =>
    rw [entry_pattern op loose]
    exact (encodes_iff op word).mp encodes
  | some demands => exact (accepts_shift op loose word).mpr (Or.inl encodes)

/-- Without a reservation no access that the space allows meets the address that is kept. -/
def Reserves (space : AddressSpace) (s : State) : Option Word → Prop
  | some address => s.loadReservation = address
  | none => ¬space.inside s.loadReservation 4

/-- The state carries out the hart. -/
structure Refines (space : AddressSpace) (h : Rv32ima.Hart) (s : State) : Prop where
  pc : s.pc = h.pc
  x : s.x = h.x
  memory : space.shows s h.memory
  reservation : Reserves space s h.reservation
  aligned : 4 ∣ h.pc.toNat

/-- What a program of these instructions changes. -/
structure Programmed (s t : State) : Prop where
  rest : t = { s with
    pc := t.pc
    x := t.x
    csr := t.csr
    loadReservation := t.loadReservation
    ram := t.ram
    pcHistory := t.pcHistory
    instructionCounter := t.instructionCounter }
  csr : UpToCounters s t

/-- Where the handlers do as the architecture has it: a shift by an immediate takes its amount for
a signed field, `jalr` keeps bit 0, `amoswap_w` reads its operand after it has written `rd`, the
other stores of `cpu_a.c` are followed by another look at the instruction, and the minimum and the
maximum of `amomin`, `amomax`, `amominu` and `amomaxu` have no handler at all. -/
def Conforms (h : Rv32ima.Hart) : Rv32ima.Instruction → Word → Prop
  | .computation (.immediate op), word =>
    op = .sll ∨ op = .srl ∨ op = .sra → (shiftField word).toNat < 16
  | .jalr, word => (h.x (Rv32i.rs1 word) + Rv32i.iImm word).getLsbD 0 = false
  | .amo .swap, word => Rv32i.rd word = 0 ∨ Rv32i.rs2 word ≠ Rv32i.rd word ∨
      h.wordAt (h.x (Rv32i.rs1 word)) = h.x (Rv32i.rs2 word)
  | .amo .min, _ | .amo .max, _ | .amo .minu, _ | .amo .maxu, _ => False
  | .amo _, word => h.x (Rv32i.rs1 word) ≠ h.pc
  | .storeConditional, word =>
    h.reservation = some (h.x (Rv32i.rs1 word)) → h.x (Rv32i.rs1 word) ≠ h.pc
  | _, _ => True

/-- What conforms has a handler. -/
theorem Encoded.handled {instruction : Rv32ima.Instruction} (encoded : Encoded instruction word)
    (conforms : Conforms h instruction word) :
    ∃ op : Op, op.Means instruction ∧ (Instruction.handled op).Encodes word := by
  obtain ⟨_,means,encodes⟩ := encoded
  cases means with
  | handled means => exact ⟨_,means,encodes⟩
  | min | max | minu | maxu => exact conforms.elim

theorem Programmed.refl (s : State) : Programmed s s := ⟨rfl, fun _ _ _ => rfl⟩

theorem Programmed.trans {s t u : State} (first : Programmed s t) (second : Programmed t u) :
    Programmed s u := by
  refine ⟨?_, fun number time cycle =>
    (second.csr number time cycle).trans (first.csr number time cycle)⟩
  rw [second.rest,first.rest]

theorem Programmed.quiet {s t : State} (programmed : Programmed s t) (quiet : Quiet s) : Quiet t := by
  refine quiet.congr ?_ ?_ ?_ <;> rw [programmed.rest]

/-- The handler of the instruction at `pc` receives such a state. -/
structure Handles (space : AddressSpace) (h : Rv32ima.Hart) (f : State) (p : WordPtr) : Prop where
  pc : f.pc = h.pc + 4
  x : f.x = h.x
  memory : space.shows f h.memory
  reservation : Reserves space f h.reservation
  aligned : 4 ∣ h.pc.toNat
  holds : space.holds h.pc p
  quiet : Quiet f

/-- What a handler leaves, compared with the hart that the architecture leaves. -/
structure Answers (space : AddressSpace) (f u : State) (h : Rv32ima.Hart) : Prop where
  rest : u = { f with pc := u.pc, x := u.x, ram := u.ram, loadReservation := u.loadReservation }
  pc : u.pc = h.pc
  x : u.x = h.x
  memory : space.shows u h.memory
  reservation : Reserves space u h.reservation

theorem iImm_shift (word : Word) : (Rv32i.iImm word).toNat % 32 = (shiftField word).toNat := by
  have low : (Rv32i.iImm word).setWidth 5 = shiftField word := by
    apply BitVec.eq_of_getLsbD_eq
    intro i bound
    interval_cases i <;> simp [Rv32i.iImm,shiftField,BitVec.getElem_signExtend]
  rw [← low,BitVec.toNat_setWidth]

section Instructions

variable {space : AddressSpace} {h : Rv32ima.Hart} {s f u : State} {p : WordPtr} {op : Op}

theorem Reserves.congr {s t : State} (reserves : Reserves space s reservation)
    (kept : t.loadReservation = s.loadReservation) : Reserves space t reservation := by
  cases reservation with
  | none => rwa [Reserves,kept]
  | some address => exact kept.trans reserves

theorem Handles.source (handles : Handles space h f p) :
    getRs1Value f p = h.x (Rv32i.rs1 (deref f p)) := by
  rw [getRs1Value,getReg,getRs1_eq,← handles.x]

theorem Handles.operand (handles : Handles space h f p) :
    getRs2Value f p = h.x (Rv32i.rs2 (deref f p)) := by
  rw [getRs2Value,getReg,getRs2_eq,← handles.x]

/-- An access that changes RAM only, and none that the program sees. -/
theorem Handles.looked (handles : Handles space h f p) (only : RamOnly f u)
    (shown : space.shows u h.memory) : Handles space h u p := by
  refine ⟨?_, ?_, shown, handles.reservation.congr ?_, handles.aligned, handles.holds,
    handles.quiet.congr ?_ ?_ ?_⟩
  · rw [only]
    exact handles.pc
  · rw [only]
    exact handles.x
  all_goals rw [only]

theorem Handles.stored (handles : Handles space h f p) (only : RamOnly f u)
    (memory : space.shows u m) : Answers space f u { h with pc := h.pc + 4, memory := m } := by
  refine ⟨?_, ?_, ?_, memory, handles.reservation.congr ?_⟩
  · rw [only]
  · rw [only]
    exact handles.pc
  · rw [only]
    exact handles.x
  · rw [only]

theorem Answers.looked {g : State} (answers : Answers space g u h) (only : RamOnly f g) :
    Answers space f u h := by
  refine ⟨?_, answers.pc, answers.x, answers.memory, answers.reservation⟩
  rw [answers.rest,only]

variable [Platform]

theorem Handles.word (handles : Handles space h f p) (lawful : space.Lawful) :
    deref f p = h.wordAt h.pc :=
  lawful.word handles.memory handles.holds

theorem Handles.same (handles : Handles space h f p) (lawful : space.Lawful)
    (handles' : Handles space h u p) : deref u p = deref f p :=
  (handles'.word lawful).trans (handles.word lawful).symm

theorem Handles.next (handles : Handles space h f p) (lawful : space.Lawful) (word : Word)
    (same : value = value') :
    Answers space f { f with x := Rv32i.write f.x (Rv32i.rd word) value } (h.next word value') := by
  refine ⟨rfl, handles.pc, ?_, lawful.congr handles.memory ⟨rfl,rfl,rfl,rfl⟩, handles.reservation⟩
  rw [handles.x,same]
  rfl

theorem computation_answers (handles : Handles space h f p) (lawful : space.Lawful)
    (computes : op.computation = some which) : ∃ u, execute op f p = .ok u ∧
      Answers space f u ((Rv32ima.Instruction.computation which).effect h (deref f p)) := by
  refine ⟨_, execute_computation f p computes, ?_⟩
  rw [setRdValue_eq,writeX_eq,getRd_eq]
  exact handles.next lawful (deref f p) (congrArg (fun x => which.result x (deref f p)) handles.x)

theorem shift_answers (handles : Handles space h f p) (lawful : space.Lawful) (shift : Shift)
    (small : (shiftField (deref f p)).toNat < 16) :
    ∃ u, execute shift.immediate f p = .ok u ∧ Answers space f u
      ((Rv32ima.Instruction.computation (.immediate shift.arith)).effect h (deref f p)) := by
  have ran (eval : Word → Nat → Word) : Handler.immediateShift eval f p =
      .ok { f with
        x := Rv32i.write f.x (Rv32i.rd (deref f p))
          (eval (h.x (Rv32i.rs1 (deref f p))) ((Rv32i.iImm (deref f p)).toNat % 32)) } := by
    rw [immediateShift_eq,if_pos small,setRdValue_eq,writeX_eq,getRd_eq,handles.source,← iImm_shift]
  cases shift with
  | left => exact ⟨_, ran _, handles.next lawful (deref f p) rfl⟩
  | logical => exact ⟨_, ran _, handles.next lawful (deref f p) rfl⟩
  | arithmetic => exact ⟨_, ran _, handles.next lawful (deref f p) rfl⟩

theorem transfer_answers (handles : Handles space h f p) (lawful : space.Lawful)
    (transfers : op.transfer = some which) : ∃ u, execute op f p = .ok u ∧
      Answers space f u ((Rv32ima.Instruction.transfer which).effect h (deref f p)) := by
  have back : f.pc - 4 = h.pc := by rw [handles.pc,BitVec.add_sub_cancel]
  refine ⟨_, execute_transfer f p transfers, rfl, ?_, ?_,
    lawful.congr handles.memory ⟨rfl,rfl,rfl,rfl⟩, handles.reservation⟩
  · exact congrArg₂ (fun x pc => which.target x pc (deref f p)) handles.x back
  · exact congrArg₂ (fun x pc => which.registers x pc (deref f p)) handles.x back

theorem jalr_answers (handles : Handles space h f p) (lawful : space.Lawful)
    (even : (h.x (Rv32i.rs1 (deref f p)) + Rv32i.iImm (deref f p)).getLsbD 0 = false) :
    ∃ u, execute .jalr f p = .ok u ∧
      Answers space f u (Rv32ima.Instruction.jalr.effect h (deref f p)) := by
  refine ⟨_, execute_jalr f p, rfl, ?_, ?_, lawful.congr handles.memory ⟨rfl,rfl,rfl,rfl⟩,
    handles.reservation⟩
  · have target : Rv32i.jalrTarget h.x (deref f p) =
        h.x (Rv32i.rs1 (deref f p)) + Rv32i.iImm (deref f p) := (clear_low_iff _).mpr even
    exact (congrFun handles.x _ ▸ rfl : _ = _).trans target.symm
  · dsimp only
    rw [handles.x,handles.pc]
    rfl

theorem multiply_answers (handles : Handles space h f p) (lawful : space.Lawful)
    (multiplies : op.multiply = some which) : ∃ u, execute op f p = .ok u ∧
      Answers space f u ((Rv32ima.Instruction.multiply which).effect h (deref f p)) := by
  refine ⟨_, execute_multiply f p multiplies, ?_⟩
  exact handles.next lawful (deref f p)
    (congrArg (fun x => which.result (x (Rv32i.rs1 (deref f p))) (x (Rv32i.rs2 (deref f p)))) handles.x)

/-- What a load leaves when its access does not fault. -/
theorem loaded_answers {t : State} {value : Word} {read : State → Word → Except Stop (Word × State)}
    (handles : Handles space h f p) (lawful : space.Lawful) (executed : execute op f p = Handler.loadOp read f p)
    (reads : read f (h.x (Rv32i.rs1 (deref f p)) + Rv32i.iImm (deref f p)) = .ok (value,t))
    (only : RamOnly f t) (shown : space.shows t h.memory) :
    ∃ u, execute op f p = .ok u ∧ Answers space f u (h.next (deref f p) value) := by
  have handles' := handles.looked only shown
  have same := handles.same lawful handles'
  have calm : ¬t.pendingException ≠ 0 := not_not.mpr handles'.quiet.exception
  refine ⟨_, ?_, (handles'.next lawful (deref f p) rfl).looked only⟩
  rw [executed,Handler.loadOp]
  dsimp only
  rw [handles.source,getIImm_eq,reads,ok_bind]
  dsimp only
  rw [if_neg calm,setRdValue_eq,writeX_eq,getRd_eq,same]
  rfl

theorem load_answers (handles : Handles space h f p) (lawful : space.Lawful)
    (loads : op.load = some (width,signed))
    (inside : space.inside (h.x (Rv32i.rs1 (deref f p)) + Rv32i.iImm (deref f p)) width.bytes) :
    ∃ u, execute op f p = .ok u ∧
      Answers space f u ((Rv32ima.Instruction.load width signed).effect h (deref f p)) := by
  obtain ⟨read,t,executed,value,only,shown⟩ := lawful.load loads handles.memory inside
  exact loaded_answers handles lawful (executed f p) value only shown

theorem store_answers (handles : Handles space h f p) (lawful : space.Lawful)
    (stores : op.store = some width)
    (inside : space.inside (h.x (Rv32i.rs1 (deref f p)) + Rv32i.sImm (deref f p)) width.bytes) :
    ∃ u, execute op f p = .ok u ∧
      Answers space f u ((Rv32ima.Instruction.store width).effect h (deref f p)) := by
  have address : getRs1Value f p + getSImm (deref f p) =
      h.x (Rv32i.rs1 (deref f p)) + Rv32i.sImm (deref f p) := by
    rw [handles.source,getSImm_eq]
  rw [← address] at inside
  obtain ⟨u,stored,only,memory⟩ := lawful.store stores handles.memory inside
  rw [address,handles.operand] at memory
  exact ⟨u, stored, handles.stored only memory⟩

/-- A store to another aligned word leaves the instruction as it is. -/
theorem Handles.again {address value : Word} (handles : Handles space h f p) (lawful : space.Lawful)
    (memory : space.shows u (FlatMemory.store h.memory address.toNat 4 value.toNat))
    (aligned : 4 ∣ address.toNat) (apart : address ≠ h.pc) : deref u p = deref f p := by
  have distant : address.toNat ≠ h.pc.toNat := fun same => apart (BitVec.eq_of_toNat_eq same)
  have room := handles.aligned
  rw [lawful.word memory handles.holds,FlatMemory.load_store_apart _ (by omega),handles.word lawful]
  rfl

theorem amoOpW_answers (handles : Handles space h f p) (lawful : space.Lawful) (law : Rv32ima.Amo)
    (inside : space.inside (h.x (Rv32i.rs1 (deref f p))) 4)
    (aligned : 4 ∣ (h.x (Rv32i.rs1 (deref f p))).toNat)
    (apart : h.x (Rv32i.rs1 (deref f p)) ≠ h.pc) :
    ∃ u, Handler.amoOpW law.result f p = .ok u ∧
      Answers space f u ((Rv32ima.Instruction.amo law).effect h (deref f p)) := by
  obtain ⟨t,read,looked,shown⟩ := lawful.readWord handles.memory inside
  have handles' := handles.looked looked shown
  have same := handles.same lawful handles'
  obtain ⟨u,stored,only,memory⟩ := lawful.writeWord shown inside
    (law.result (h.wordAt (h.x (Rv32i.rs1 (deref f p)))) (h.x (Rv32i.rs2 (deref f p))))
  have again := handles.again lawful memory aligned apart
  have answers := (handles'.stored only memory).looked looked
  refine ⟨{ u with x := Rv32i.write u.x (Rv32i.rd (deref f p)) (h.wordAt (h.x (Rv32i.rs1 (deref f p)))) },
    ?_, ?_, answers.pc, ?_, lawful.congr memory ⟨rfl,rfl,rfl,rfl⟩, answers.reservation⟩
  · unfold Handler.amoOpW
    dsimp only
    rw [handles.source,read,ok_bind]
    dsimp only
    rw [handles'.operand,same,← Rv32ima.Hart.wordAt,stored,ok_bind,setRdValue_eq,writeX_eq,getRd_eq,
      again]
    rfl
  · rw [only,looked]
  · dsimp only
    rw [answers.x]
    rfl

theorem amoswapW_answers (handles : Handles space h f p) (lawful : space.Lawful)
    (inside : space.inside (h.x (Rv32i.rs1 (deref f p))) 4)
    (kept : Conforms h (.amo .swap) (deref f p)) :
    ∃ u, Handler.amoswapW f p = .ok u ∧
      Answers space f u ((Rv32ima.Instruction.amo .swap).effect h (deref f p)) := by
  obtain ⟨t,read,looked,shown⟩ := lawful.readWord handles.memory inside
  have handles' := handles.looked looked shown
  have same := handles.same lawful handles'
  -- `rd` is written before the operand is read
  let old := h.wordAt (h.x (Rv32i.rs1 (deref f p)))
  let g : State := { t with x := Rv32i.write t.x (Rv32i.rd (deref f p)) old }
  have late : getRs2Value g p = h.x (Rv32i.rs2 (deref f p)) := by
    have seen : getRs2Value g p =
        Rv32i.write t.x (Rv32i.rd (deref f p)) old (Rv32i.rs2 (deref t p)) := by
      rw [getRs2Value,getReg,getRs2_eq]
      rfl
    rw [seen,same,handles'.x,Rv32i.write]
    split
    next hit =>
      rcases kept with zero | other | equal
      · exact absurd (hit.1.trans zero) hit.2
      · exact absurd hit.1 other
      · exact equal
    next => rfl
  have shown' : space.shows g h.memory := lawful.congr shown ⟨rfl,rfl,rfl,rfl⟩
  obtain ⟨u,stored,only,memory⟩ := lawful.writeWord shown' inside (h.x (Rv32i.rs2 (deref f p)))
  refine ⟨u, ?_, ?_, ?_, ?_, memory, handles'.reservation.congr ?_⟩
  · unfold Handler.amoswapW
    dsimp only
    rw [handles.source,read,ok_bind]
    dsimp only
    rw [setRdValue_eq,writeX_eq,getRd_eq,same]
    exact (congrArg (writeWord g _) late).trans stored
  · rw [only]
    exact congrArg (fun a : State => { a with
      pc := t.pc, x := g.x, ram := u.ram, loadReservation := t.loadReservation }) looked
  · rw [only]
    exact handles'.pc
  · rw [only]
    exact congrArg (fun x => Rv32i.write x (Rv32i.rd (deref f p)) old) handles'.x
  · rw [only]

theorem amo_answers (handles : Handles space h f p) (lawful : space.Lawful) (which : AmoOp)
    (inside : space.inside (h.x (Rv32i.rs1 (deref f p))) 4)
    (aligned : 4 ∣ (h.x (Rv32i.rs1 (deref f p))).toNat)
    (conforms : Conforms h (.amo which.law) (deref f p)) :
    ∃ u, execute which.op f p = .ok u ∧
      Answers space f u ((Rv32ima.Instruction.amo which.law).effect h (deref f p)) := by
  cases which
  case swap => exact amoswapW_answers handles lawful inside conforms
  case add => exact amoOpW_answers handles lawful .add inside aligned conforms
  case and => exact amoOpW_answers handles lawful .and inside aligned conforms
  case or => exact amoOpW_answers handles lawful .or inside aligned conforms
  case xor => exact amoOpW_answers handles lawful .xor inside aligned conforms

theorem loadReserved_answers (handles : Handles space h f p) (lawful : space.Lawful)
    (inside : space.inside (h.x (Rv32i.rs1 (deref f p))) 4) :
    ∃ u, execute .lr f p = .ok u ∧
      Answers space f u (Rv32ima.Instruction.loadReserved.effect h (deref f p)) := by
  obtain ⟨t,read,only,shown⟩ := lawful.readWord handles.memory inside
  have handles' := handles.looked only shown
  have same := handles.same lawful handles'
  have answers := (handles'.next lawful (deref f p)
    (rfl : h.wordAt (h.x (Rv32i.rs1 (deref f p))) = _)).looked only
  refine ⟨{ t with
    x := Rv32i.write t.x (Rv32i.rd (deref f p)) (h.wordAt (h.x (Rv32i.rs1 (deref f p))))
    loadReservation := h.x (Rv32i.rs1 (deref f p)) },
    ?_, ?_, answers.pc, answers.x, lawful.congr shown ⟨rfl,rfl,rfl,rfl⟩, rfl⟩
  · change Handler.lr f p = _
    unfold Handler.lr
    dsimp only
    rw [handles.source,read,ok_bind]
    dsimp only
    rw [setRdValue_eq,writeX_eq,getRd_eq,same]
    rfl
  · rw [only]

theorem reserves_none (lawful : space.Lawful) (used : u.loadReservation = -1) :
    Reserves space u none := by
  rw [Reserves,used]
  exact lawful.last

theorem storeConditional_answers (handles : Handles space h f p) (lawful : space.Lawful)
    (inside : space.inside (h.x (Rv32i.rs1 (deref f p))) 4)
    (aligned : 4 ∣ (h.x (Rv32i.rs1 (deref f p))).toNat)
    (conforms : Conforms h .storeConditional (deref f p)) :
    ∃ u, execute .sc f p = .ok u ∧
      Answers space f u (Rv32ima.Instruction.storeConditional.effect h (deref f p)) := by
  have met : f.loadReservation = h.x (Rv32i.rs1 (deref f p)) ↔
      h.reservation = some (h.x (Rv32i.rs1 (deref f p))) := by
    have reserves := handles.reservation
    cases kept : h.reservation with
    | none =>
      rw [kept] at reserves
      refine iff_of_false ?_ (by simp)
      intro same
      exact reserves (same ▸ inside)
    | some address =>
      rw [kept] at reserves
      rw [reserves,Option.some.injEq]
  by_cases reserved : h.reservation = some (h.x (Rv32i.rs1 (deref f p)))
  · obtain ⟨u,stored,only,memory⟩ := lawful.writeWord handles.memory inside
      (h.x (Rv32i.rs2 (deref f p)))
    have again := handles.again lawful memory aligned (conforms reserved)
    have answers := handles.stored only memory
    refine ⟨{ u with
      x := Rv32i.write u.x (Rv32i.rd (deref f p)) 0
      loadReservation := -1 }, ?_, ?_, ?_, ?_, ?_, ?_⟩
    · change Handler.sc f p = _
      unfold Handler.sc
      dsimp only
      rw [handles.source,handles.operand,if_pos (met.mpr reserved),stored,ok_bind,pure_eq_ok,ok_bind,
        setRdValue_eq,writeX_eq,getRd_eq,again]
      rfl
    · rw [only]
    all_goals simp only [Rv32ima.Instruction.effect,if_pos reserved]
    · exact answers.pc
    · rw [answers.x]
      rfl
    · exact lawful.congr memory ⟨rfl,rfl,rfl,rfl⟩
    · exact reserves_none lawful rfl
  · have answers := handles.next lawful (deref f p) (rfl : (1 : Word) = 1)
    refine ⟨{ f with
      x := Rv32i.write f.x (Rv32i.rd (deref f p)) 1
      loadReservation := -1 }, ?_, rfl, ?_, ?_, ?_, ?_⟩
    · change Handler.sc f p = _
      unfold Handler.sc
      dsimp only
      rw [handles.source,if_neg (mt met.mp reserved),pure_eq_ok,ok_bind,setRdValue_eq,writeX_eq,
        getRd_eq]
      rfl
    all_goals simp only [Rv32ima.Instruction.effect,if_neg reserved]
    · exact answers.pc
    · exact answers.x
    · exact lawful.congr handles.memory ⟨rfl,rfl,rfl,rfl⟩
    · exact reserves_none lawful rfl

theorem execute_answers {instruction : Rv32ima.Instruction} (handles : Handles space h f p)
    (lawful : space.Lawful) (means : op.Means instruction)
    (completes : instruction.Completes space.inside h (deref f p))
    (conforms : Conforms h instruction (deref f p)) : ∃ u, execute op f p = .ok u ∧
      Answers space f u (instruction.effect h (deref f p)) := by
  cases means with
  | computation computes => exact computation_answers handles lawful computes
  | shift which =>
    refine shift_answers handles lawful which (conforms ?_)
    cases which <;> simp [Shift.arith]
  | transfer transfers => exact transfer_answers handles lawful transfers
  | jalr => exact jalr_answers handles lawful conforms
  | multiply multiplies => exact multiply_answers handles lawful multiplies
  | load loads => exact load_answers handles lawful loads (completes.access _ _ rfl)
  | store stores => exact store_answers handles lawful stores (completes.access _ _ rfl)
  | amo which =>
    exact amo_answers handles lawful which (completes.access _ _ rfl)
      (completes.aligned _ _ rfl rfl) conforms
  | loadReserved => exact loadReserved_answers handles lawful (completes.access _ _ rfl)
  | storeConditional =>
    exact storeConditional_answers handles lawful (completes.access _ _ rfl)
      (completes.aligned _ _ rfl rfl) conforms
  | fence => exact ⟨_, rfl, handles.stored (.refl _) handles.memory⟩

/-- What the hart has nothing of does not matter. -/
theorem Refines.congr {t : State} (refines : Refines space h s) (lawful : space.Lawful)
    (pc : t.pc = s.pc) (x : t.x = s.x) (reservation : t.loadReservation = s.loadReservation)
    (alike : AddressSpace.Alike s t) : Refines space h t :=
  ⟨pc.trans refines.pc, x.trans refines.x, lawful.congr refines.memory alike,
    refines.reservation.congr reservation, refines.aligned⟩

omit [Platform] in
theorem Refines.alignedNext (refines : Refines space h s) : 4 ∣ (h.pc + 4).toNat := by
  have := refines.aligned
  rw [BitVec.toNat_add]
  simp
  omega

/-- The fetch of an instruction that the space allows. -/
theorem Refines.fetch (refines : Refines space h s) (lawful : space.Lawful) (quiet : Quiet s)
    (inside : space.inside h.pc 4) :
    ∃ f p, FetchesWord s f p ∧ RamOnly (pastPc s) f ∧ Handles space h f p := by
  rw [← refines.pc] at inside
  obtain ⟨f,p,fetched,only,shown,holds⟩ := lawful.fetch refines.memory inside
  refine ⟨f, p, fetched, only, ?_, ?_, shown, refines.reservation.congr ?_, refines.aligned, ?_,
    quiet.congr ?_ ?_ ?_⟩
  · rw [only,← refines.pc]
  · rw [only]
    exact refines.x
  · rw [only]
  · rwa [← refines.pc]
  all_goals rw [only]

theorem Answers.finish (answers : Answers space f u h) (lawful : space.Lawful)
    (only : RamOnly (pastPc s) f) (quiet : Quiet s) (aligned : 4 ∣ h.pc.toNat) :
    Refines space h (finishOp u) ∧ Programmed s (finishOp u) := by
  have rest : u = { s with
      pc := u.pc, x := u.x, ram := u.ram, loadReservation := u.loadReservation } := by
    have rest := answers.rest
    rw [only] at rest
    exact rest
  have flag : u.hasPendingException = false := by
    rw [rest]
    exact quiet.flag
  have counters : UpToCounters s (finishOp u) := by
    intro number time cycle
    have csr : u.csr = s.csr := by rw [rest]
    rw [finishOp_quiet flag,retire_csr _ time cycle]
    exact congrFun csr number
  have satp : readCsr (finishOp u) csrSatp = readCsr u csrSatp := by
    rw [finishOp_quiet flag]
    exact retire_csr _ (by decide) (by decide)
  refine ⟨⟨?_, ?_, lawful.congr answers.memory ⟨?_,?_,?_,satp⟩, answers.reservation.congr ?_, aligned⟩,
    ?_, counters⟩
  · rw [finishOp_quiet flag]
    exact answers.pc
  · rw [finishOp_quiet flag]
    exact answers.x
  all_goals rw [finishOp_quiet flag]
  all_goals first | rfl | skip
  rw [retire,dispatched,rest]
  rfl

/-- The step lemma: one instruction of the hart is one call of `emulate_op`. -/
theorem emulateOp_refines (refines : Refines space h s) (lawful : space.Lawful) (quiet : Quiet s)
    (step : Rv32ima.Step Encoded space.inside h executed h')
    (conforms : Conforms h executed.1 executed.2) :
    ∃ t, emulateOp s = .ok t ∧ Refines space h' t ∧ Programmed s t := by
  obtain ⟨f,p,fetched,only,handles⟩ := refines.fetch lawful quiet step.fetch
  obtain ⟨op,means,encodes⟩ := step.encoded.handled conforms
  have word : executed.2 = deref f p := step.word.trans (handles.word lawful).symm
  have completes := step.completes
  have next := step.effect
  rw [word] at encodes completes conforms next
  obtain ⟨u,ran,answers⟩ := execute_answers handles lawful means completes conforms
  have fetches : Fetches s f p op := ⟨fetched, decode_of_encodes encodes⟩
  subst next
  exact ⟨_, emulateOp_executed fetches ran, answers.finish lawful only quiet completes.target⟩

/-- A program of the hart, whatever it computes and however long it runs, runs on the emulator in
the same number of steps, and every state on the way carries out the hart at that point. -/
theorem AddressSpace.Lawful.run (lawful : space.Lawful) (refines : Refines space h s) (quiet : Quiet s)
    (program : Path (Rv32ima.Step Encoded space.inside) h steps)
    (conforms : Every (fun h executed _ => Conforms h executed.1 executed.2) h steps) :
    ∃ steps', MachineRun s steps' ∧
      List.Forall₂ (fun h t => Refines space h t ∧ Programmed s t) (states h steps) (states s steps') := by
  refine program.simulated conforms ⟨refines, .refl s⟩ ?_
  rintro h executed h' t ⟨refines,programmed⟩ step conforms
  obtain ⟨u,ran,refines',next⟩ :=
    emulateOp_refines refines lawful (programmed.quiet quiet) step conforms
  exact ⟨(), u, ran, refines', programmed.trans next⟩

/-- Without translation the memory of the program is all of RAM. -/
theorem bareRun_refines {map : MemoryMap} (separate : Separate map)
    (refines : Refines (.bare map) h s) (quiet : Quiet s)
    (program : Path (Rv32ima.Step Encoded (InsideRam map)) h steps)
    (conforms : Every (fun h executed _ => Conforms h executed.1 executed.2) h steps) :
    ∃ steps', MachineRun s steps' ∧ List.Forall₂
      (fun h t => Refines (.bare map) h t ∧ Programmed s t) (states h steps) (states s steps') :=
  (AddressSpace.bare_lawful separate).run refines quiet program conforms

end Instructions

/-- The run through a list of instructions. -/
def followHart (h : Rv32ima.Hart) : List Rv32ima.Instruction →
    List ((Rv32ima.Instruction × Word) × Rv32ima.Hart)
  | [] => []
  | instruction :: rest =>
    let next := instruction.effect h (h.wordAt h.pc)
    ((instruction,h.wordAt h.pc),next) :: followHart next rest

/-- `sw x5, 0x100(x6)`, `lb x7, 0x100(x6)`, `mul x8, x7, x5` and `jal x0, -12`. -/
def loopingMachine : State :=
  { guest privM [0x10532023,0x10030383,0x02538433,0xff5ff06f] with
    pc := 0x80000000
    x := fun r => if r = 6 then 0x80000000 else if r = 5 then 7 else 0 }

def loopingHart : Rv32ima.Hart := ⟨0x80000000, loopingMachine.x, flatMemory loopingMachine, some 0⟩

def loopingProgram : List Rv32ima.Instruction :=
  [.store .word, .load .byte true, .multiply (.product .mul), .transfer .jal]

theorem loopingMachine_refines :
    Refines (.bare loopingMachine.memoryMap) loopingHart loopingMachine := by
  have separate : Separate loopingMachine.memoryMap := guest_separate privM []
  exact ⟨rfl, rfl, ⟨rfl, fun walks => walks.1 rfl, flatMemory_represents separate⟩, rfl, by decide⟩

theorem loopingProgram_runs : Path (Rv32ima.Step Encoded (InsideRam loopingMachine.memoryMap))
    loopingHart (followHart loopingHart loopingProgram) := by
  have ram {address : Word} {width : Nat} (low : 0x80000000 ≤ address.toNat)
      (high : address.toNat + width ≤ 0x80010000) :
      InsideRam loopingMachine.memoryMap address width := ⟨_, List.mem_singleton_self _, rfl, low, high⟩
  refine .cons ⟨ram (by decide) (by decide), rfl, .of_means .sw (.store rfl) (by decide), ⟨?_,?_,by decide⟩, rfl⟩
    (.cons ⟨ram (by decide) (by decide), rfl, .of_means .lb (.load rfl) (by decide), ⟨?_,?_,by decide⟩, rfl⟩
    (.cons ⟨ram (by decide) (by decide), rfl, .of_means .mul (.multiply rfl) (by decide), ⟨?_,?_,by decide⟩, rfl⟩
    (.cons ⟨ram (by decide) (by decide), rfl, .of_means .jal (.transfer rfl) (by decide), ⟨?_,?_,by decide⟩, rfl⟩
    .nil)))
  all_goals intro address width accessed
  · obtain ⟨rfl,rfl⟩ := Prod.mk.inj (Option.some.inj accessed)
    exact ram (by decide) (by decide)
  · intro atomic
    contradiction
  · obtain ⟨rfl,rfl⟩ := Prod.mk.inj (Option.some.inj accessed)
    exact ram (by decide) (by decide)
  · intro atomic
    contradiction
  all_goals contradiction

theorem bareRun_refines_looping : ∃ steps', @MachineRun clearingPlatform loopingMachine steps' ∧
    List.Forall₂ (fun h t => Refines (.bare loopingMachine.memoryMap) h t ∧ Programmed loopingMachine t)
      (states loopingHart (followHart loopingHart loopingProgram)) (states loopingMachine steps') := by
  let _ : Platform := clearingPlatform
  exact bareRun_refines (guest_separate privM []) loopingMachine_refines ⟨rfl,rfl,rfl⟩
    loopingProgram_runs ⟨trivial,trivial,trivial,trivial,trivial⟩

end Emuriscv
