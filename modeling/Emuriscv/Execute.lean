import Emuriscv.Access
import Emuriscv.Cpu

/-! What one instruction handler can do. A handler touches registers, memory and devices; or
it is a CSR instruction, a return or an environment call; or its data access faults, and
then the state it leaves is known exactly. -/
namespace Emuriscv

/-- Traps, pending fields, privilege and all CSRs but `mip` stay as they are. -/
structure HandlerFrame (s t : State) : Prop where
  rest : t = { s with
    pc := t.pc
    x := t.x
    csr := t.csr
    loadReservation := t.loadReservation
    ram := t.ram
    vm := t.vm
    uart := t.uart
    console := t.console }
  csr : ∀ number, number ≠ csrMip → t.csr number = s.csr number

theorem HandlerFrame.refl (s : State) : HandlerFrame s s := ⟨rfl, fun _ _ => rfl⟩

theorem WriteFrame.handler {s t : State} (frame : WriteFrame s t) : HandlerFrame s t := by
  refine ⟨?_,frame.csr⟩
  rw [frame.rest]

theorem HandlerFrame.trans {s t u : State} (first : HandlerFrame s t) (second : HandlerFrame t u) :
    HandlerFrame s u := by
  refine ⟨?_, fun number other => (second.csr number other).trans (first.csr number other)⟩
  rw [second.rest,first.rest]

theorem RamOnly.handler {s t : State} (only : RamOnly s t) : HandlerFrame s t :=
  only.writeFrame.handler

theorem setRdValue_frame (s : State) (instruction : WordPtr) (value : Word) :
    HandlerFrame s (setRdValue s instruction value) := by
  rw [setRdValue_eq]
  exact ⟨rfl, fun _ _ => rfl⟩

theorem pc_frame (s : State) (pc : Word) : HandlerFrame s { s with pc := pc } :=
  ⟨rfl, fun _ _ => rfl⟩

theorem reservation_frame (s : State) (address : Word) :
    HandlerFrame s { s with loadReservation := address } := ⟨rfl, fun _ _ => rfl⟩

theorem branch_frame (taken : Word → Word → Bool) (s : State) (instruction : WordPtr) :
    HandlerFrame s (Handler.branch taken s instruction) := by
  unfold Handler.branch
  split
  next => exact pc_frame ..
  next => exact .refl s

theorem immediateShift_ok {s : State} (h : Handler.immediateShift op s instruction = .ok t) :
    ∃ value, t = setRdValue s instruction value := by
  unfold Handler.immediateShift at h
  dsimp only at h
  split at h
  next => exact ⟨_, (Except.ok.inj h).symm⟩
  next => contradiction

theorem immediateShift_frame {s : State} (h : Handler.immediateShift op s instruction = .ok t) :
    HandlerFrame s t := by
  obtain ⟨value,rfl⟩ := immediateShift_ok h
  exact setRdValue_frame ..

/-- The instructions that access data, by the order of their accesses. -/
inductive DataAccess where
  | load
  | store
  | amo
  | loadReserved
  | storeConditional
  deriving DecidableEq, Repr

def Op.dataAccess : Op → Option DataAccess
  | .lb | .lbu | .lh | .lhu | .lw => some .load
  | .sb | .sh | .sw => some .store
  | .amoaddW | .amoorW | .amoandW | .amoxorW | .amoswapW => some .amo
  | .lr => some .loadReserved
  | .sc => some .storeConditional
  | _ => none

def DataAccess.accessType : DataAccess → AccessType
  | .load | .loadReserved => .load
  | .store | .amo | .storeConditional => .store

def DataAccess.address (s : State) (instruction : WordPtr) : DataAccess → Word
  | .load => getRs1Value s instruction + getIImm (deref s instruction)
  | .store => getRs1Value s instruction + getSImm (deref s instruction)
  | .amo | .loadReserved | .storeConditional => getRs1Value s instruction

/-- One of the accesses that the instruction makes ends in a page fault. -/
def DataFaults (s : State) (instruction : WordPtr) (access : DataAccess) : Prop :=
  let address := access.address s instruction
  match access with
  | .load | .loadReserved => PageFaults s address .load
  | .store => PageFaults s address .store
  | .amo => PageFaults s address .load ∨
      ∃ t, translateAddress s address .load = .ok t ∧ t.result = translateOk ∧
        PageFaults t.state address .store
  | .storeConditional => s.loadReservation = address ∧ PageFaults s address .store

/-- The register file that a faulting access leaves: the read half of an atomic returns
`PAGE_FAULT` as its value, and `sc` reports success. -/
def DataAccess.faultedX (s : State) (instruction : WordPtr) : DataAccess → RegisterIndex → Word
  | .load | .store => s.x
  | .amo | .loadReserved => writeX s.x (getRd (deref s instruction)) (-1)
  | .storeConditional => writeX s.x (getRd (deref s instruction)) 0

def DataAccess.faultedReservation (s : State) (instruction : WordPtr) : DataAccess → Word
  | .load | .store | .amo => s.loadReservation
  | .loadReserved => getRs1Value s instruction
  | .storeConditional => -1

/-- The state that a handler leaves when its access faults. -/
def DataAccess.faulted (s : State) (instruction : WordPtr) (access : DataAccess) : State :=
  { pendFault s (access.address s instruction) access.accessType with
    x := access.faultedX s instruction
    loadReservation := access.faultedReservation s instruction }

/-- Both halves of an atomic fault together. -/
theorem amoFaults_iff (s : State) (instruction : WordPtr) :
    DataFaults s instruction .amo ↔ PageFaults s (getRs1Value s instruction) .load := by
  constructor
  · rintro (first | ⟨t,translated,ok,second⟩)
    · exact first
    · by_contra quiet
      exact translateAddress_again translated quiet .store second
  · exact Or.inl

theorem pendFault_tables (s : State) (virtualAddress : Word) (accessType : AccessType) :
    SameTables s (pendFault s virtualAddress accessType) := ⟨rfl,rfl,rfl,rfl⟩

theorem writeX_tables (s : State) (x : RegisterIndex → Word) : SameTables s { s with x := x } :=
  ⟨rfl,rfl,rfl,rfl⟩

theorem setRdValue_pendFault (s : State) (virtualAddress : Word) (accessType : AccessType)
    (instruction : WordPtr) (value : Word) :
    setRdValue (pendFault s virtualAddress accessType) instruction value =
      { pendFault s virtualAddress accessType with
        x := writeX s.x (getRd (deref s instruction)) value } :=
  setRdValue_eq ..

/-- A sized reader: a fault is passed on with some value, and otherwise only flags of page
tables are stored. -/
structure Reads (read : State → Word → Except Stop (Word × State)) : Prop where
  fault : ∀ {s address}, PageFaults s address .load →
    ∃ value, read s address = .ok (value, pendFault s address .load)
  quiet : ∀ {s address value t}, read s address = .ok (value,t) →
    ¬PageFaults s address .load → RamOnly s t

theorem readCommon_reads (sizeLog2 : Nat) :
    Reads fun s address => readCommon s address sizeLog2 :=
  ⟨fun faults => ⟨_, readCommon_fault faults sizeLog2⟩, fun h quiet => (readCommon_quiet h quiet).1⟩

/-- The signed readers extend the value that `read_common` returns. -/
theorem extended_reads (sizeLog2 : Nat) (extend : Word → Word) :
    Reads (fun s address => do
      let (value, s) ← readCommon s address sizeLog2
      pure (extend value, s)) := by
  constructor
  · intro s address faults
    refine ⟨extend (-1), ?_⟩
    dsimp only
    rw [readCommon_fault faults]
    rfl
  · intro s address value t h quiet
    obtain ⟨⟨_,middle⟩,first,rest⟩ := bind_eq_ok.mp h
    obtain ⟨_,rfl⟩ := Prod.mk.inj (Except.ok.inj rest)
    exact (readCommon_quiet first quiet).1

theorem readByteSigned_reads : Reads readByteSigned :=
  extended_reads sizeByte fun value =>
    if value &&& 0x80 = 0x80 then value ||| 0xffffff00 else value

theorem readHalfwordSigned_reads : Reads readHalfwordSigned :=
  extended_reads sizeHalf fun value =>
    if value &&& 0x8000 = 0x8000 then value ||| 0xffff0000 else value

theorem loadOp_fault {read : State → Word → Except Stop (Word × State)} (reads : Reads read)
    (faults : DataFaults s instruction .load) :
    Handler.loadOp read s instruction = .ok (DataAccess.load.faulted s instruction) := by
  have first : PageFaults s (getRs1Value s instruction + getIImm (deref s instruction)) .load :=
    faults
  obtain ⟨value,returned⟩ := reads.fault first
  unfold Handler.loadOp
  dsimp only
  rw [returned,ok_bind]
  exact if_pos (show causeLoadPageFault ≠ 0 by decide)

theorem lr_fault {s : State} (faults : DataFaults s instruction .loadReserved) :
    Handler.lr s instruction = .ok (DataAccess.loadReserved.faulted s instruction) := by
  have first : PageFaults s (getRs1Value s instruction) .load := faults
  unfold Handler.lr readWord
  dsimp only
  rw [readCommon_fault first,ok_bind,setRdValue_pendFault]
  rfl

section Faults

variable [Platform]

theorem amoOpW_fault {s : State} (op : Word → Word → Word)
    (faults : DataFaults s instruction .amo) :
    Handler.amoOpW op s instruction = .ok (DataAccess.amo.faulted s instruction) := by
  have first := (amoFaults_iff s instruction).mp faults
  have second : PageFaults (pendFault s (getRs1Value s instruction) .load)
      (getRs1Value s instruction) .store := by
    rw [(pendFault_tables ..).pageFaults,pageFaults_iff,← pageFaults_iff s _ .load]
    exact first
  unfold Handler.amoOpW readWord writeWord
  dsimp only
  rw [readCommon_fault first,ok_bind,writeCommon_fault second,ok_bind,setRdValue_pendFault]
  rfl

theorem amoswapW_fault {s : State} (faults : DataFaults s instruction .amo) :
    Handler.amoswapW s instruction = .ok (DataAccess.amo.faulted s instruction) := by
  have first := (amoFaults_iff s instruction).mp faults
  unfold Handler.amoswapW readWord writeWord
  dsimp only
  rw [readCommon_fault first,ok_bind,setRdValue_pendFault]
  refine (writeCommon_fault ?_ _ sizeWord).trans rfl
  rw [(writeX_tables ..).pageFaults,(pendFault_tables ..).pageFaults,pageFaults_iff,
    ← pageFaults_iff s _ .load]
  exact first

theorem sc_fault {s : State} (faults : DataFaults s instruction .storeConditional) :
    Handler.sc s instruction = .ok (DataAccess.storeConditional.faulted s instruction) := by
  have reserved : s.loadReservation = getRs1Value s instruction := faults.1
  have only : PageFaults s (getRs1Value s instruction) .store := faults.2
  unfold Handler.sc writeWord
  dsimp only
  rw [if_pos reserved,writeCommon_fault only,ok_bind,setRdValue_pendFault]
  rfl

/-- A handler whose access faults runs to its end. -/
theorem execute_fault {s : State} (accesses : op.dataAccess = some access)
    (faults : DataFaults s instruction access) :
    execute op s instruction = .ok (access.faulted s instruction) := by
  cases op <;> simp only [Op.dataAccess,Option.some.injEq,reduceCtorEq] at accesses
  all_goals subst accesses
  case lb => exact loadOp_fault readByteSigned_reads faults
  case lbu => exact loadOp_fault (readCommon_reads sizeByte) faults
  case lh => exact loadOp_fault readHalfwordSigned_reads faults
  case lhu => exact loadOp_fault (readCommon_reads sizeHalf) faults
  case lw => exact loadOp_fault (readCommon_reads sizeWord) faults
  case sb => exact writeCommon_fault faults _ sizeByte
  case sh => exact writeCommon_fault faults _ sizeHalf
  case sw => exact writeCommon_fault faults _ sizeWord
  case amoaddW => exact amoOpW_fault _ faults
  case amoorW => exact amoOpW_fault _ faults
  case amoandW => exact amoOpW_fault _ faults
  case amoxorW => exact amoOpW_fault _ faults
  case amoswapW => exact amoswapW_fault faults
  case lr => exact lr_fault faults
  case sc => exact sc_fault faults

omit [Platform] in
theorem loadOp_frame {read : State → Word → Except Stop (Word × State)} (reads : Reads read)
    (h : Handler.loadOp read s instruction = .ok t) (quiet : ¬DataFaults s instruction .load) :
    HandlerFrame s t := by
  obtain ⟨⟨value,middle⟩,first,rest⟩ := bind_eq_ok.mp h
  have only := (reads.quiet first quiet).handler
  dsimp only at rest
  split at rest
  next => rwa [← Except.ok.inj rest]
  next =>
    rw [← Except.ok.inj rest]
    exact only.trans (setRdValue_frame ..)

omit [Platform] in
theorem lr_frame (h : Handler.lr s instruction = .ok t)
    (quiet : ¬DataFaults s instruction .loadReserved) : HandlerFrame s t := by
  obtain ⟨⟨value,middle⟩,first,rest⟩ := bind_eq_ok.mp h
  have only := ((readCommon_reads sizeWord).quiet first quiet).handler
  rw [← Except.ok.inj rest]
  exact (only.trans (setRdValue_frame ..)).trans (reservation_frame ..)

theorem writeCommon_frame (h : writeCommon s address value sizeLog2 = .ok t)
    (quiet : ¬PageFaults s address .store) : HandlerFrame s t :=
  (writeCommon_quiet h quiet).handler

theorem amoOpW_frame (h : Handler.amoOpW op s instruction = .ok t)
    (quiet : ¬DataFaults s instruction .amo) : HandlerFrame s t := by
  rw [amoFaults_iff] at quiet
  obtain ⟨⟨value,middle⟩,first,rest⟩ := bind_eq_ok.mp h
  obtain ⟨only,again⟩ := readCommon_quiet first quiet
  obtain ⟨last,second,rest⟩ := bind_eq_ok.mp rest
  rw [← Except.ok.inj rest]
  exact (only.handler.trans (writeCommon_frame second (again .store))).trans (setRdValue_frame ..)

theorem amoswapW_frame (h : Handler.amoswapW s instruction = .ok t)
    (quiet : ¬DataFaults s instruction .amo) : HandlerFrame s t := by
  rw [amoFaults_iff] at quiet
  obtain ⟨⟨value,middle⟩,first,rest⟩ := bind_eq_ok.mp h
  obtain ⟨only,again⟩ := readCommon_quiet first quiet
  refine (only.handler.trans (setRdValue_frame ..)).trans (writeCommon_frame rest ?_)
  rw [setRdValue_eq,(writeX_tables ..).pageFaults]
  exact again .store

theorem sc_frame (h : Handler.sc s instruction = .ok t)
    (quiet : ¬DataFaults s instruction .storeConditional) : HandlerFrame s t := by
  unfold Handler.sc at h
  dsimp only at h
  split at h
  next reserved =>
    obtain ⟨written,write,rest⟩ := bind_eq_ok.mp h
    have faultless : ¬PageFaults s (getRs1Value s instruction) .store :=
      fun faults => quiet ⟨reserved,faults⟩
    rw [← Except.ok.inj rest]
    exact ((writeCommon_frame write faultless).trans (setRdValue_frame ..)).trans
      (reservation_frame ..)
  next =>
    rw [← Except.ok.inj h]
    exact (setRdValue_frame ..).trans (reservation_frame ..)

/-- The CSR instruction that an operation is, if it is one. -/
def Op.csrOp : Op → Option CsrOp
  | .csrrs => some .csrrs
  | .csrrw => some .csrrw
  | .csrrc => some .csrrc
  | .csrrsi => some .csrrsi
  | .csrrwi => some .csrrwi
  | .csrrci => some .csrrci
  | _ => none

/-- All the ways in which a handler returns. -/
inductive Executed (s : State) (instruction : WordPtr) : Op → State → Prop
  | framed (frame : HandlerFrame s t) : Executed s instruction op t
  | csr (number : op.csrOp = some csrOp) : Executed s instruction op (csrOp.handler s instruction)
  | mret (returned : mret s = .ok t) : Executed s instruction .mret t
  | sret (returned : sret s = .ok t) : Executed s instruction .sret t
  | ecall (called : ecall s = .ok t) : Executed s instruction .ecall t
  | faulted (accesses : op.dataAccess = some access) (faults : DataFaults s instruction access) :
    Executed s instruction op (access.faulted s instruction)

/-- A data access that does not fault leaves an ordinary frame. -/
theorem access_frame (accesses : op.dataAccess = some access)
    (h : execute op s instruction = .ok t) (quiet : ¬DataFaults s instruction access) :
    HandlerFrame s t := by
  cases op <;> simp only [Op.dataAccess,Option.some.injEq,reduceCtorEq] at accesses
  all_goals subst accesses
  case lb => exact loadOp_frame readByteSigned_reads h quiet
  case lbu => exact loadOp_frame (readCommon_reads sizeByte) h quiet
  case lh => exact loadOp_frame readHalfwordSigned_reads h quiet
  case lhu => exact loadOp_frame (readCommon_reads sizeHalf) h quiet
  case lw => exact loadOp_frame (readCommon_reads sizeWord) h quiet
  case sb => exact writeCommon_frame h quiet
  case sh => exact writeCommon_frame h quiet
  case sw => exact writeCommon_frame h quiet
  case amoaddW => exact amoOpW_frame h quiet
  case amoorW => exact amoOpW_frame h quiet
  case amoandW => exact amoOpW_frame h quiet
  case amoxorW => exact amoOpW_frame h quiet
  case amoswapW => exact amoswapW_frame h quiet
  case lr => exact lr_frame h quiet
  case sc => exact sc_frame h quiet

/-- The register-only handlers, whose results are all guarded register writes, branches or
the unchanged state. -/
theorem plain_frame (plain : op.dataAccess = none) (notCsr : op.csrOp = none)
    (notReturn : op ≠ .mret ∧ op ≠ .sret) (notCall : op ≠ .ecall)
    (h : execute op s instruction = .ok t) : HandlerFrame s t := by
  cases op with
  | lb | lbu | lh | lhu | lw | sb | sh | sw | amoaddW | amoorW | amoandW | amoxorW | amoswapW | lr
  | sc => contradiction
  | csrrs | csrrw | csrrc | csrrsi | csrrwi | csrrci => contradiction
  | mret => exact absurd rfl notReturn.1
  | sret => exact absurd rfl notReturn.2
  | ecall => exact absurd rfl notCall
  | wfi => contradiction
  | slli | srli | srai => exact immediateShift_frame h
  | beq | bne | blt | bge | bltu | bgeu =>
    rw [← Except.ok.inj h]
    exact branch_frame ..
  | jal | jalr =>
    rw [← Except.ok.inj h]
    exact (setRdValue_frame ..).trans (pc_frame ..)
  | uret =>
    rw [← Except.ok.inj h]
    exact pc_frame ..
  | ebreak | fence | fencei | sfenceVma =>
    rw [← Except.ok.inj h]
    exact .refl s
  | add | addi | and | andi | auipc | lui | or | ori | sll | slt | slti | sltiu | sltu | sra | srl
  | sub | xor | xori | mul | mulh | mulhsu | mulhu | opDiv | divu | rem | remu =>
    rw [← Except.ok.inj h]
    exact setRdValue_frame ..

theorem execute_csrOp (number : op.csrOp = some csrOp) (h : execute op s instruction = .ok t) :
    csrOp.handler s instruction = t := by
  cases op <;> simp only [Op.csrOp,Option.some.injEq,reduceCtorEq] at number
  all_goals
    subst number
    exact Except.ok.inj h

theorem execute_cases (h : execute op s instruction = .ok t) : Executed s instruction op t := by
  cases accesses : op.dataAccess with
  | some access =>
    by_cases faults : DataFaults s instruction access
    · rw [execute_fault accesses faults] at h
      rw [← Except.ok.inj h]
      exact .faulted accesses faults
    · exact .framed (access_frame accesses h faults)
  | none =>
    cases number : op.csrOp with
    | some csrOp =>
      rw [← execute_csrOp number h]
      exact .csr number
    | none =>
      by_cases mret : op = .mret
      · subst mret
        exact .mret h
      · by_cases sret : op = .sret
        · subst sret
          exact .sret h
        · by_cases call : op = .ecall
          · subst call
            exact .ecall h
          · exact .framed (plain_frame accesses number ⟨mret,sret⟩ call h)

end Faults

end Emuriscv
