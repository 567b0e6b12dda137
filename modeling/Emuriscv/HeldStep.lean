import Emuriscv.HeldWord
import Emuriscv.InstructionFields

/-! A step on an instruction word that lies outside guest RAM. What it does depends on the fields
that the handler extracts and on nothing else of the word. -/
namespace Emuriscv

/-- The pointer to the held bytes. -/
def heldPtr (s : State) : WordPtr := ⟨s.memoryMap.length, 0⟩

/-- What `emulate_op` does with an instruction word that it has fetched. -/
def stepWord [Platform] (word : Word) (s : State) : Except Stop State :=
  match decode word with
  | some op => do
    let t ← execute op (hold (byteOf word) s) (heldPtr s)
    pure (finishOp (hold (s.ram s.memoryMap.length) t))
  | none => throw (.exit exitIllegalInstruction)

section Handlers

variable (bytes : Nat → Byte) {s : State} {p q : WordPtr}

/-- The handler extracts the same fields through both pointers. -/
def Alike (fields : List InstructionField) (s : State) (p q : WordPtr) : Prop :=
  ∀ field ∈ fields, field.Same (deref (hold bytes s) q) (deref s p)

variable {bytes}

theorem setRdValue_hold (rd : getRd (deref (hold bytes s) q) = getRd (deref s p)) (value : Word) :
    setRdValue (hold bytes s) q value = hold bytes (setRdValue s p value) := by
  rw [setRdValue_eq,setRdValue_eq,rd]
  rfl

theorem getRs1Value_hold (rs1 : getRs1 (deref (hold bytes s) q) = getRs1 (deref s p)) :
    getRs1Value (hold bytes s) q = getRs1Value s p := by
  rw [getRs1Value,rs1]
  rfl

theorem getRs2Value_hold (rs2 : getRs2 (deref (hold bytes s) q) = getRs2 (deref s p)) :
    getRs2Value (hold bytes s) q = getRs2Value s p := by
  rw [getRs2Value,rs2]
  rfl

theorem registerOp_hold (op : Word → Word → Word)
    (alike : Alike bytes [.register .rd, .register .rs1, .register .rs2] s p q) :
    Handler.registerOp op (hold bytes s) q = hold bytes (Handler.registerOp op s p) := by
  have rs1 := getRs1Value_hold (alike (.register .rs1) (by decide))
  have rs2 := getRs2Value_hold (alike (.register .rs2) (by decide))
  rw [Handler.registerOp,rs1,rs2]
  exact setRdValue_hold (alike (.register .rd) (by decide)) _

theorem immediateOp_hold (imm : Word → Word) (same : ∀ word, imm word = Rv32i.iImm word)
    (op : Word → Word → Word) (alike : Alike bytes [.register .rd, .register .rs1, .iImm] s p q) :
    Handler.immediateOp imm op (hold bytes s) q = hold bytes (Handler.immediateOp imm op s p) := by
  have rs1 := getRs1Value_hold (alike (.register .rs1) (by decide))
  have field : getIImm _ = getIImm _ := alike .iImm (by decide)
  rw [getIImm_eq,getIImm_eq,← same,← same] at field
  rw [Handler.immediateOp,rs1,field]
  exact setRdValue_hold (alike (.register .rd) (by decide)) _

theorem immediateShift_hold (op : Word → Nat → Word)
    (alike : Alike bytes [.register .rd, .register .rs1, .shamt] s p q) :
    Handler.immediateShift op (hold bytes s) q =
      (Handler.immediateShift op s p).map (hold bytes) := by
  have rs1 := getRs1Value_hold (alike (.register .rs1) (by decide))
  have count : instructionIShiftShamt _ = instructionIShiftShamt _ := alike .shamt (by decide)
  rw [Handler.immediateShift,count,rs1]
  exact map_ite _ (congrArg Except.ok (setRdValue_hold (alike (.register .rd) (by decide)) _)) rfl

theorem branch_hold (taken : Word → Word → Bool)
    (alike : Alike bytes [.register .rs1, .register .rs2, .bImm] s p q) :
    Handler.branch taken (hold bytes s) q = hold bytes (Handler.branch taken s p) := by
  have rs1 := getRs1Value_hold (alike (.register .rs1) (by decide))
  have rs2 := getRs2Value_hold (alike (.register .rs2) (by decide))
  have offset : getBImm _ = getBImm _ := alike .bImm (by decide)
  rw [Handler.branch,rs1,rs2,offset,Handler.branch]
  split <;> rfl

theorem csrHandler_hold {op : Op} (csrOp : CsrOp) (number : op.csrOp = some csrOp)
    (alike : Alike bytes op.fields s p q) :
    csrOp.handler (hold bytes s) q = hold bytes (csrOp.handler s p) := by
  have rd : getRd (deref (hold bytes s) q) = getRd (deref s p) := by
    refine alike (.register .rd) ?_
    cases op <;> first | decide | contradiction
  have csr : csrNumber (hold bytes s) q = csrNumber s p := by
    refine alike .csr ?_
    cases op <;> first | decide | contradiction
  have operand : csrOperand csrOp (hold bytes s) q = csrOperand csrOp s p := by
    cases op <;> simp only [Op.csrOp,Option.some.injEq,reduceCtorEq] at number
    case csrrs | csrrc =>
      have rs1 : getRs1 (deref (hold bytes s) q) = getRs1 (deref s p) :=
        alike (.register .rs1) (by decide)
      subst number
      simp only [csrOperand,rd,rs1,csr]
      rfl
    case csrrw =>
      subst number
      exact getRs1Value_hold (alike (.register .rs1) (by decide))
    all_goals
      have imm : getCsrImm (deref (hold bytes s) q) = getCsrImm (deref s p) :=
        alike .csrImm (by decide)
      subst number
      exact imm
  have written : csrWritten csrOp (hold bytes s) q = csrWritten csrOp s p := by
    unfold csrWritten
    rw [operand,csr]
    rfl
  rw [csrHandler_rest,csrHandler_x,csrHandler_csr,written,csr,rd,csrHandler_rest csrOp s p,
    csrHandler_x,csrHandler_csr]
  rfl

/-- The reader does not see what is held. -/
def Commutes (bytes : Nat → Byte) (read : State → Word → Except Stop (Word × State)) : Prop :=
  ∀ s address, read (hold bytes s) address = (read s address).map (Prod.map id (hold bytes))

theorem extended_commutes (sizeLog2 : Nat) (extend : Word → Word) :
    Commutes bytes fun s address => (do
      let (value, s) ← readCommon s address sizeLog2
      pure (extend value, s)) :=
  fun _ _ => bind_map (readCommon_hold ..) fun _ _ => rfl

theorem Op.loadReader_commutes {op : Op} {read : State → Word → Except Stop (Word × State)}
    (reader : op.loadReader = some read) : Commutes bytes read := by
  cases op <;> simp only [Op.loadReader,Option.some.injEq,reduceCtorEq] at reader
  all_goals subst reader
  case lb =>
    exact extended_commutes sizeByte
      fun value => if value &&& 0x80 = 0x80 then value ||| 0xffffff00 else value
  case lh =>
    exact extended_commutes sizeHalf
      fun value => if value &&& 0x8000 = 0x8000 then value ||| 0xffff0000 else value
  all_goals exact fun _ _ => readCommon_hold ..

/-- The fields that the handler extracts later are alike as well. -/
def LateAlike [Platform] (bytes : Nat → Byte) (op : Op) (s : State) (p q : WordPtr) : Prop :=
  ∀ field u, Rereads s p op field u → field.of (deref (hold bytes u) q) = field.of (deref u p)

variable [Platform]

theorem loadOp_hold {op : Op} {read : State → Word → Except Stop (Word × State)}
    (reader : op.loadReader = some read) (accesses : op.dataAccess = some .load)
    (alike : Alike bytes [.register .rd, .register .rs1, .iImm] s p q)
    (late : LateAlike bytes op s p q) :
    Handler.loadOp read (hold bytes s) q = (Handler.loadOp read s p).map (hold bytes) := by
  have rs1 := getRs1Value_hold (alike (.register .rs1) (by decide))
  have offset : getIImm _ = getIImm _ := alike .iImm (by decide)
  rw [Handler.loadOp,rs1,offset]
  refine bind_map (Op.loadReader_commutes reader ..) ?_
  rintro ⟨value,u⟩ ran
  dsimp only [Prod.map,id]
  by_cases quiet : u.pendingException = 0
  · have rd := late .rd u (.loaded reader accesses ran (Or.inr quiet))
    rw [if_neg (not_not.mpr quiet),if_neg (not_not.mpr (show (hold bytes u).pendingException = 0 from quiet))]
    exact congrArg Except.ok (setRdValue_hold rd value)
  · rw [if_pos quiet,if_pos (show (hold bytes u).pendingException ≠ 0 from quiet)]
    rfl

omit [Platform] in
theorem storeOp_hold {write : State → Word → Word → Except Stop State}
    (commutes : ∀ address value, write (hold bytes s) address value =
      (write s address value).map (hold bytes))
    (alike : Alike bytes [.register .rs1, .register .rs2, .sImm] s p q) :
    Handler.storeOp write (hold bytes s) q = (Handler.storeOp write s p).map (hold bytes) := by
  have rs1 := getRs1Value_hold (alike (.register .rs1) (by decide))
  have rs2 := getRs2Value_hold (alike (.register .rs2) (by decide))
  have offset : getSImm _ = getSImm _ := alike .sImm (by decide)
  rw [Handler.storeOp,rs1,rs2,offset]
  exact commutes ..

theorem lr_hold (alike : Alike bytes (Op.fields .lr) s p q) (late : LateAlike bytes .lr s p q) :
    Handler.lr (hold bytes s) q = (Handler.lr s p).map (hold bytes) := by
  have rs1 := getRs1Value_hold (alike (.register .rs1) (by decide))
  rw [Handler.lr,rs1]
  refine bind_map (readCommon_hold ..) ?_
  rintro ⟨value,u⟩ ran
  have rd := late .rd u (.loaded rfl rfl ran (Or.inl rfl))
  have wrote := setRdValue_hold rd value
  dsimp only [Prod.map,id]
  rw [wrote]
  rfl

theorem amoOpW_hold (amo : AmoOp) (arithmetic : amo ≠ .swap)
    (alike : Alike bytes [.register .rd, .register .rs1, .register .rs2] s p q)
    (late : LateAlike bytes amo.op s p q) :
    Handler.amoOpW amo.eval (hold bytes s) q =
      (Handler.amoOpW amo.eval s p).map (hold bytes) := by
  have rs1 := getRs1Value_hold (alike (.register .rs1) (by decide))
  rw [Handler.amoOpW,rs1]
  refine bind_map (readCommon_hold ..) ?_
  rintro ⟨value,u⟩ ran
  have rs2 := getRs2Value_hold (late .rs2 u (.operand arithmetic ran))
  dsimp only [Prod.map,id]
  rw [rs2]
  refine bind_map (writeCommon_hold ..) fun v wrote => ?_
  exact congrArg Except.ok (setRdValue_hold (late .rd v (.stored arithmetic ran wrote)) value)

theorem amoswapW_hold (alike : Alike bytes (Op.fields .amoswapW) s p q)
    (late : LateAlike bytes .amoswapW s p q) :
    Handler.amoswapW (hold bytes s) q = (Handler.amoswapW s p).map (hold bytes) := by
  have rs1 := getRs1Value_hold (alike (.register .rs1) (by decide))
  rw [Handler.amoswapW,rs1]
  refine bind_map (readCommon_hold ..) ?_
  rintro ⟨value,u⟩ ran
  have wrote := setRdValue_hold (late .rd u (.swapped ran)) value
  have rs2 := getRs2Value_hold (late .rs2 _ (.swapOperand ran))
  dsimp only [Prod.map,id]
  rw [wrote,rs2]
  exact writeCommon_hold ..

theorem sc_hold (alike : Alike bytes (Op.fields .sc) s p q) (late : LateAlike bytes .sc s p q) :
    Handler.sc (hold bytes s) q = (Handler.sc s p).map (hold bytes) := by
  have rs1 := getRs1Value_hold (alike (.register .rs1) (by decide))
  have rs2 := getRs2Value_hold (alike (.register .rs2) (by decide))
  have rd := setRdValue_hold (alike (.register .rd) (by decide)) 1
  rw [Handler.sc,rs1,rs2,rd]
  by_cases reserved : s.loadReservation = getRs1Value s p
  · rw [if_pos (show (hold bytes s).loadReservation = _ from reserved),Handler.sc]
    dsimp only
    rw [if_pos reserved]
    refine bind_map (writeCommon_hold ..) fun u wrote => ?_
    have done := setRdValue_hold (late .rd u (.conditional reserved wrote)) 0
    rw [done]
    rfl
  · rw [if_neg (show (hold bytes s).loadReservation ≠ _ from reserved),Handler.sc]
    dsimp only
    rw [if_neg reserved]
    rfl

omit [Platform] in
theorem dumpStringLoop_hold (s : State) (address : Word) (rounds : Nat) :
    dumpStringLoop (hold bytes s) address rounds =
      (dumpStringLoop s address rounds).map (hold bytes) := by
  induction rounds generalizing s address with
  | zero => rfl
  | succ rounds ih =>
    refine bind_map (getMemoryTarget_hold ..) fun l _ => map_ite _ rfl ?_
    exact bind_map (readCommon_hold ..) fun _ _ => map_ite _ rfl (ih ..)

omit [Platform] in
theorem traceEcall_hold (s : State) :
    traceEcall (hold bytes s) = (traceEcall s).map (hold bytes) :=
  map_ite _ (map_ite _ (dumpStringLoop_hold ..) (map_ite _ rfl rfl)) rfl

omit [Platform] in
theorem raiseException_hold (s : State) (cause tval : Word) :
    raiseException (hold bytes s) cause tval = hold bytes (raiseException s cause tval) := by
  cases mode : trapsToSMode s cause with
  | true =>
    rw [raiseException_delegated s cause tval mode,raiseException_delegated (hold bytes s) _ _ mode]
    rfl
  | false =>
    have direct : ¬trapsToSMode s cause = true := by simp [mode]
    rw [raiseException_direct s cause tval direct,raiseException_direct (hold bytes s) _ _ direct]
    rfl

omit [Platform] in
theorem ecall_hold (s : State) : ecall (hold bytes s) = (ecall s).map (hold bytes) := by
  refine bind_map (traceEcall_hold s) fun t _ => congrArg Except.ok ?_
  exact raiseException_hold { t with pendingException := ecallCause t } _ _

/-- A handler through either pointer, when it extracts the same fields. -/
theorem execute_hold (op : Op) (alike : Alike bytes op.fields s p q)
    (late : LateAlike bytes op s p q) :
    execute op (hold bytes s) q = (execute op s p).map (hold bytes) := by
  cases op
  case add | and | or | xor | sub | sll | srl | sra | slt | sltu | mul | mulh | mulhsu | mulhu | opDiv
      | divu | rem | remu => exact congrArg Except.ok (registerOp_hold _ alike)
  case addi | andi => exact congrArg Except.ok (immediateOp_hold _ getIImm_eq _ alike)
  case ori | xori | slti | sltiu =>
    exact congrArg Except.ok (immediateOp_hold _ instructionIImm_eq _ alike)
  case slli | srli | srai => exact immediateShift_hold _ alike
  case beq | bne | blt | bge | bltu | bgeu => exact congrArg Except.ok (branch_hold _ alike)
  case lb | lbu | lh | lhu | lw => exact loadOp_hold rfl rfl alike late
  case sb | sh | sw =>
    dsimp only [execute,Handler.sb,Handler.sh,Handler.sw]
    exact storeOp_hold (fun _ _ => writeCommon_hold ..) alike
  case csrrs => exact congrArg Except.ok (csrHandler_hold .csrrs rfl alike)
  case csrrw => exact congrArg Except.ok (csrHandler_hold .csrrw rfl alike)
  case csrrc => exact congrArg Except.ok (csrHandler_hold .csrrc rfl alike)
  case csrrsi => exact congrArg Except.ok (csrHandler_hold .csrrsi rfl alike)
  case csrrwi => exact congrArg Except.ok (csrHandler_hold .csrrwi rfl alike)
  case csrrci => exact congrArg Except.ok (csrHandler_hold .csrrci rfl alike)
  case amoaddW => exact amoOpW_hold .add (by decide) alike late
  case amoorW => exact amoOpW_hold .or (by decide) alike late
  case amoandW => exact amoOpW_hold .and (by decide) alike late
  case amoxorW => exact amoOpW_hold .xor (by decide) alike late
  case amoswapW => exact amoswapW_hold alike late
  case lr => exact lr_hold alike late
  case sc => exact sc_hold alike late
  case ecall => exact ecall_hold s
  case mret => exact map_ite _ rfl rfl
  case sret => exact map_ite _ rfl rfl
  case lui =>
    have imm : instructionUData _ = instructionUData _ := alike .uImm (by decide)
    have rd := setRdValue_hold (alike (.register .rd) (by decide))
    refine congrArg Except.ok ?_
    rw [Handler.lui,imm,rd]
    rfl
  case auipc =>
    have imm : instructionUData _ = instructionUData _ := alike .uImm (by decide)
    have rd := setRdValue_hold (alike (.register .rd) (by decide))
    refine congrArg Except.ok ?_
    rw [Handler.auipc,imm,rd]
    rfl
  case jal =>
    have offset : getJImm _ = getJImm _ := alike .jImm (by decide)
    have rd := setRdValue_hold (alike (.register .rd) (by decide))
    refine congrArg Except.ok ?_
    rw [Handler.jal,offset,rd]
    rfl
  case jalr =>
    have offset : getIImm _ = getIImm _ := alike .iImm (by decide)
    have rs1 := getRs1Value_hold (alike (.register .rs1) (by decide))
    have rd := setRdValue_hold (alike (.register .rd) (by decide))
    refine congrArg Except.ok ?_
    rw [Handler.jalr,offset,rs1,rd]
    rfl
  all_goals rfl

end Handlers

theorem hold_hold (bytes bytes' : Nat → Byte) (s : State) :
    hold bytes (hold bytes' s) = hold bytes s := by
  simp [hold]

/-- The access reaches neither what is held nor the memory map. -/
structure KeepsHeld (bytes : Nat → Byte) (s t : State) : Prop where
  held : hold bytes s = s → hold bytes t = t
  memoryMap : t.memoryMap = s.memoryMap

theorem KeepsHeld.trans (first : KeepsHeld bytes s t) (second : KeepsHeld bytes t u) :
    KeepsHeld bytes s u :=
  ⟨second.held ∘ first.held, second.memoryMap.trans first.memoryMap⟩

theorem setX_keepsHeld (s : State) (x : RegisterIndex → Word) : KeepsHeld bytes s { s with x := x } :=
  ⟨fun held => congrArg (fun t : State => { t with x := x }) held, rfl⟩

theorem readCommon_keepsHeld (ran : readCommon s address sizeLog2 = .ok (value,t)) :
    KeepsHeld bytes s t := by
  constructor
  case held =>
    intro held
    have again := readCommon_hold bytes s address sizeLog2
    rw [held,ran] at again
    exact (Prod.mk.inj (Except.ok.inj again)).2.symm
  case memoryMap =>
    by_cases faults : PageFaults s address .load
    · rw [readCommon_fault faults] at ran
      rw [← (Prod.mk.inj (Except.ok.inj ran)).2]
      rfl
    · rw [(readCommon_quiet ran faults).1]

section Steps

variable [Platform]

theorem writeCommon_keepsHeld (ran : writeCommon s address value sizeLog2 = .ok t) :
    KeepsHeld bytes s t := by
  constructor
  case held =>
    intro held
    have again := writeCommon_hold bytes s address value sizeLog2
    rw [held,ran] at again
    exact (Except.ok.inj again).symm
  case memoryMap =>
    by_cases faults : PageFaults s address .store
    · rw [writeCommon_fault faults] at ran
      rw [← Except.ok.inj ran]
      rfl
    · rw [(writeCommon_quiet ran faults).rest]

/-- A handler that extracts a field later has not reached what is held. -/
theorem Rereads.keepsHeld {f : State} (reads : Rereads f p op field u) : KeepsHeld bytes f u := by
  cases reads with
  | loaded reader accesses ran free =>
    obtain ⟨_,_,common⟩ := Op.loadReader_common reader ran
    exact readCommon_keepsHeld common
  | operand arithmetic ran => exact readCommon_keepsHeld ran
  | stored arithmetic ran wrote =>
    exact (readCommon_keepsHeld ran).trans (writeCommon_keepsHeld wrote)
  | swapped ran => exact readCommon_keepsHeld ran
  | swapOperand ran =>
    rw [setRdValue_eq]
    exact (readCommon_keepsHeld ran).trans (setX_keepsHeld ..)
  | conditional reserved wrote => exact writeCommon_keepsHeld wrote
  | csrrs =>
    rw [setRdValue_eq]
    exact setX_keepsHeld ..
  | csrrc =>
    rw [readCsrToRd_eq]
    exact setX_keepsHeld ..

theorem Rereads.member {f : State} (reads : Rereads f p op field u) :
    .register field ∈ op.fields := by
  cases reads with
  | loaded reader =>
    cases op <;> first | contradiction | decide
  | @operand amo => cases amo <;> decide
  | @stored amo => cases amo <;> decide
  | _ => decide

omit [Platform] in
theorem deref_held (word : Word) (s : State) : deref (hold (byteOf word) s) (heldPtr s) = word := by
  apply word_ext
  intro k bound
  rw [byteOf_deref _ _ _ bound,heldPtr,hold]
  simp

/-- The words are the same instruction with the same fields. -/
structure SameInstruction (a b : Word) (op : Op) : Prop where
  decoded : decode a = some op
  decoded' : decode b = some op
  fields : ∀ field ∈ op.fields, field.Same b a

/-- Words that are the same instruction have the same effect from every state. -/
theorem stepWord_congr (same : SameInstruction a b op) (s : State) :
    stepWord a s = stepWord b s := by
  have ptr (t : State) (map : t.memoryMap = s.memoryMap) : heldPtr s = heldPtr t := by
    rw [heldPtr,heldPtr,map]
  have word (t : State) (map : t.memoryMap = s.memoryMap) (word : Word) :
      deref (hold (byteOf word) t) (heldPtr s) = word := by
    rw [ptr t map,deref_held]
  have alike : Alike (byteOf b) op.fields (hold (byteOf a) s) (heldPtr s) (heldPtr s) := by
    intro field member
    rw [word (hold (byteOf a) s) rfl,word s rfl]
    exact same.fields field member
  have late : LateAlike (byteOf b) op (hold (byteOf a) s) (heldPtr s) (heldPtr s) := by
    intro field u reads
    obtain ⟨held,map⟩ : KeepsHeld (byteOf a) (hold (byteOf a) s) u := reads.keepsHeld
    rw [← held (hold_hold ..),hold_hold,word u map,word u map]
    exact same.fields _ reads.member
  have executed := execute_hold op alike late
  rw [hold_hold] at executed
  simp only [stepWord,same.decoded,same.decoded']
  rw [executed]
  cases execute op (hold (byteOf a) s) (heldPtr s) with
  | error stop => rfl
  | ok t =>
    simp only [Except.map,ok_bind]
    rw [hold_hold]

omit [Platform] in
theorem InstructionField.Same.refl (field : InstructionField) (word : Word) : field.Same word word := by
  cases field <;> rfl

omit [Platform] in
theorem hold_self (s : State) : hold (s.ram s.memoryMap.length) s = s := by
  simp [hold]

/-- A handler leaves what is held. -/
theorem execute_keepsHeld (ran : execute op s p = .ok t) : hold (s.ram s.memoryMap.length) t = t := by
  have self := hold_self s
  have alike : Alike (s.ram s.memoryMap.length) op.fields s p p := by
    intro field _
    rw [self]
    exact .refl ..
  have late : LateAlike (s.ram s.memoryMap.length) op s p p := by
    intro field u reads
    rw [reads.keepsHeld.held self]
  have again := execute_hold op alike late
  rw [self,ran] at again
  exact (Except.ok.inj again).symm

/-- A step of the machine is the step on the word that it fetched, when its own accesses have not
changed what the handler extracts after them. -/
theorem emulateOp_stepWord {s f : State} {p : WordPtr} {op : Op} (fetched : Fetches s f p op)
    (spared : ∀ field u, Rereads f p op field u → field.of (deref u p) = field.of (deref f p)) :
    emulateOp s = stepWord (deref f p) f := by
  have word (t : State) (map : t.memoryMap = f.memoryMap) :
      deref (hold (byteOf (deref f p)) t) (heldPtr f) = deref f p := by
    rw [heldPtr,← map]
    exact deref_held ..
  have alike : Alike (byteOf (deref f p)) op.fields f p (heldPtr f) := by
    intro field _
    rw [word f rfl]
    exact .refl ..
  have late : LateAlike (byteOf (deref f p)) op f p (heldPtr f) := by
    intro field u reads
    have keeps : KeepsHeld (byteOf (deref f p)) f u := reads.keepsHeld
    have map : u.memoryMap = f.memoryMap := keeps.memoryMap
    rw [word u map,spared field u reads]
  rw [emulateOp_fetched fetched,stepWord,fetched.decoded]
  dsimp only
  rw [execute_hold op alike late]
  cases ran : execute op f p with
  | error stop => rfl
  | ok t =>
    simp only [Except.map,ok_bind]
    rw [hold_hold,execute_keepsHeld ran]

end Steps

end Emuriscv
