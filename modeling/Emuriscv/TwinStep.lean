import Emuriscv.Twin
import Emuriscv.HeldStep

/-! The step of its twin tracks that of a machine. -/
namespace Emuriscv

open Lockstep

/-- All four bytes of the instruction word lie in RAM. -/
def InRam (map : MemoryMap) (p : WordPtr) : Prop := ∀ k < 4, inRam map p.buffer (p.offset + k) = true

/-- The handler sees the hart and the instruction word, and changes the hart. -/
def Grafts (handler : State → WordPtr → State) : Prop :=
  ∀ (t s : State) (p : WordPtr), deref (graft t s) p = deref s p →
    handler (graft t s) p = graft t (handler s p)

section Grafts

variable {t s : State} {p : WordPtr}

theorem setRdValue_graft (word : deref (graft t s) p = deref s p) (value : Word) :
    setRdValue (graft t s) p value = graft t (setRdValue s p value) := by
  rw [setRdValue_eq,setRdValue_eq,word]
  rfl

theorem getRs1Value_graft (word : deref (graft t s) p = deref s p) :
    getRs1Value (graft t s) p = getRs1Value s p := by
  rw [getRs1Value,word]
  rfl

theorem getRs2Value_graft (word : deref (graft t s) p = deref s p) :
    getRs2Value (graft t s) p = getRs2Value s p := by
  rw [getRs2Value,word]
  rfl

theorem registerOp_grafts (op : Word → Word → Word) : Grafts (Handler.registerOp op) := by
  intro t s p word
  rw [Handler.registerOp,getRs1Value_graft word,getRs2Value_graft word]
  exact setRdValue_graft word _

theorem immediateOp_grafts (imm : Word → Word) (op : Word → Word → Word) :
    Grafts (Handler.immediateOp imm op) := by
  intro t s p word
  rw [Handler.immediateOp,getRs1Value_graft word,word]
  exact setRdValue_graft word _

theorem branch_grafts (taken : Word → Word → Bool) : Grafts (Handler.branch taken) := by
  intro t s p word
  rw [Handler.branch,getRs1Value_graft word,getRs2Value_graft word,word,Handler.branch]
  split <;> rfl

theorem csrHandler_grafts (csrOp : CsrOp) : Grafts csrOp.handler := by
  intro t s p word
  have number : csrNumber (graft t s) p = csrNumber s p := by
    rw [csrNumber,csrNumber,word]
  have written : csrWritten csrOp (graft t s) p = csrWritten csrOp s p := by
    have operand : csrOperand csrOp (graft t s) p = csrOperand csrOp s p := by
      cases csrOp <;> simp only [csrOperand,word,getRs1Value_graft word,number] <;> rfl
    unfold csrWritten
    rw [operand,number]
    rfl
  rw [csrHandler_rest,csrHandler_x,csrHandler_csr,written,number,word,csrHandler_rest csrOp s p,
    csrHandler_x,csrHandler_csr]
  rfl

theorem lui_grafts : Grafts Handler.lui := by
  intro t s p word
  rw [Handler.lui,word]
  exact setRdValue_graft word _

theorem auipc_grafts : Grafts Handler.auipc := by
  intro t s p word
  rw [Handler.auipc,word]
  exact setRdValue_graft word _

theorem jal_grafts : Grafts Handler.jal := by
  intro t s p word
  rw [Handler.jal,word,setRdValue_graft word]
  rfl

theorem jalr_grafts : Grafts Handler.jalr := by
  intro t s p word
  rw [Handler.jalr,word,getRs1Value_graft word,setRdValue_graft word]
  rfl

end Grafts

namespace Coupling

variable {c : Coupling} {s t : State} {p : WordPtr}

theorem Twin.deref (twin : c.Twin s t) (inside : InRam c.left p) : deref t p = deref s p := by
  apply word_ext
  intro k bound
  rw [byteOf_deref _ _ _ bound,byteOf_deref _ _ _ bound,twin.ram _ _ (inside k bound)]

/-- A computation that sees the hart alone and changes the hart alone. -/
theorem Twin.mapped (twin : c.Twin s t) {f : State → Except Stop State}
    (commutes : f (graft t s) = (f s).map (graft t))
    (frame : ∀ u, f s = .ok u → u = graft s u) : Tracks c.Twin (f s) (f t) := by
  rw [← twin.hart] at commutes
  rw [commutes]
  cases ran : f s with
  | error stop => exact .error _ _
  | ok u =>
    have same := frame u ran
    refine .ok (twin.next rfl ?_ rfl ?_ rfl ?_)
    · rw [same]
      rfl
    · rw [same]
      rfl
    · rw [same]
      exact twin.devices

/-- The handler, through the pointer that both machines have fetched. -/
theorem Twin.grafted (twin : c.Twin s t) (inside : InRam c.left p)
    {handler : State → WordPtr → State} (grafts : Grafts handler) :
    c.Twin (handler s p) (handler t p) := by
  have word := twin.deref inside
  rw [twin.hart] at word
  obtain ⟨_,same,related⟩ := twin.mapped (f := fun s => .ok (handler s p))
    (congrArg Except.ok (grafts t s p word)) (by
      rintro _ ⟨⟩
      exact grafts s s p rfl) _ rfl
  cases same
  exact related

theorem Twin.rs1 (twin : c.Twin s t) (inside : InRam c.left p) :
    getRs1Value t p = getRs1Value s p := by
  have word := twin.deref inside
  rw [getRs1Value,word,twin.hart]
  rfl

theorem Twin.rs2 (twin : c.Twin s t) (inside : InRam c.left p) :
    getRs2Value t p = getRs2Value s p := by
  have word := twin.deref inside
  rw [getRs2Value,word,twin.hart]
  rfl

theorem Twin.setRd (twin : c.Twin s t) (inside : InRam c.left p) (value : Word) :
    c.Twin (setRdValue s p value) (setRdValue t p value) := by
  have grafts : Grafts fun s p => setRdValue s p value := fun _ _ _ word =>
    setRdValue_graft word value
  exact twin.grafted inside grafts

theorem Twin.pending (twin : c.Twin s t) : t.pendingException = s.pendingException := by
  rw [twin.hart]
  rfl

theorem Twin.reserve (twin : c.Twin s t) (address : Word) :
    c.Twin { s with loadReservation := address } { t with loadReservation := address } :=
  twin.map (fun s => { s with loadReservation := address }) rfl rfl rfl rfl rfl

theorem Twin.immediateShift (twin : c.Twin s t) (inside : InRam c.left p) (op : Word → Nat → Word) :
    Tracks c.Twin (Handler.immediateShift op s p) (Handler.immediateShift op t p) := by
  rw [Handler.immediateShift,Handler.immediateShift,twin.deref inside,twin.rs1 inside]
  exact .ite _ (fun _ => .ok (twin.setRd inside _)) fun _ => .error _ _

variable (c) in
/-- A sized reader of one machine and of its twin. -/
def Pairs (read : State → Word → Except Stop (Word × State)) : Prop :=
  ∀ s t, c.Twin s t → ∀ address, Tracks c.Reading (read s address) (read t address)

theorem Twin.loadOp (twin : c.Twin s t) (inside : InRam c.left p)
    {read : State → Word → Except Stop (Word × State)} (pairs : c.Pairs read) :
    Tracks c.Twin (Handler.loadOp read s p) (Handler.loadOp read t p) := by
  rw [Handler.loadOp,Handler.loadOp,twin.deref inside,twin.rs1 inside]
  refine (pairs s t twin _).bind ?_
  rintro ⟨value,u⟩ ⟨value',v⟩ ⟨same,twin⟩
  dsimp only at same twin
  simp only [same,twin.pending]
  exact .ite _ (fun _ => .ok twin) fun _ => .ok (twin.setRd inside value)

theorem Twin.storeOp (twin : c.Twin s t) (inside : InRam c.left p)
    {write : State → Word → Word → Except Stop State}
    (pairs : ∀ address value, Tracks c.Twin (write s address value) (write t address value)) :
    Tracks c.Twin (Handler.storeOp write s p) (Handler.storeOp write t p) := by
  rw [Handler.storeOp,Handler.storeOp,twin.deref inside,twin.rs1 inside,twin.rs2 inside]
  exact pairs _ _

variable [Platform]

theorem Sound.pairs (sound : c.Sound) (sizeLog2 : Nat) :
    c.Pairs fun s address => readCommon s address sizeLog2 :=
  fun _ _ twin address => twin.readCommon sound address sizeLog2

theorem Sound.extends (sound : c.Sound) (sizeLog2 : Nat) (extend : Word → Word) :
    c.Pairs fun s address => (do
      let (value, s) ← readCommon s address sizeLog2
      pure (extend value, s)) := by
  intro s t twin address
  refine (twin.readCommon sound address sizeLog2).bind ?_
  rintro ⟨value,u⟩ ⟨value',v⟩ ⟨same,twin⟩
  exact .ok ⟨congrArg extend same,twin⟩

theorem Twin.lr (twin : c.Twin s t) (sound : c.Sound) (inside : InRam c.left p) :
    Tracks c.Twin (Handler.lr s p) (Handler.lr t p) := by
  rw [Handler.lr,Handler.lr,twin.rs1 inside]
  refine (twin.readCommon sound _ sizeWord).bind ?_
  rintro ⟨value,u⟩ ⟨value',v⟩ ⟨same,twin⟩
  dsimp only at same twin
  rw [same]
  exact .ok ((twin.setRd inside value).reserve _)

theorem Twin.amoOpW (twin : c.Twin s t) (sound : c.Sound) (inside : InRam c.left p)
    (op : Word → Word → Word) : Tracks c.Twin (Handler.amoOpW op s p) (Handler.amoOpW op t p) := by
  rw [Handler.amoOpW,Handler.amoOpW,twin.rs1 inside]
  refine (twin.readCommon sound _ sizeWord).bind ?_
  rintro ⟨value,u⟩ ⟨value',v⟩ ⟨same,twin⟩
  dsimp only at same twin
  simp only [same,twin.rs2 inside]
  exact (twin.writeCommon sound _ _ sizeWord).bind fun _ _ twin => .ok (twin.setRd inside value)

theorem Twin.amoswapW (twin : c.Twin s t) (sound : c.Sound) (inside : InRam c.left p) :
    Tracks c.Twin (Handler.amoswapW s p) (Handler.amoswapW t p) := by
  rw [Handler.amoswapW,Handler.amoswapW,twin.rs1 inside]
  refine (twin.readCommon sound _ sizeWord).bind ?_
  rintro ⟨value,u⟩ ⟨value',v⟩ ⟨same,twin⟩
  dsimp only at same twin
  have written := twin.setRd inside value
  simp only [same,written.rs2 inside]
  exact written.writeCommon sound _ _ sizeWord

theorem Twin.sc (twin : c.Twin s t) (sound : c.Sound) (inside : InRam c.left p) :
    Tracks c.Twin (Handler.sc s p) (Handler.sc t p) := by
  have reservation : t.loadReservation = s.loadReservation := by
    rw [twin.hart]
    rfl
  rw [Handler.sc,Handler.sc,twin.rs1 inside,twin.rs2 inside]
  dsimp only
  rw [reservation]
  refine .ite _ (fun _ => ?_) fun _ => .ok ((twin.setRd inside 1).reserve _)
  exact (twin.writeCommon sound _ _ sizeWord).bind fun _ _ twin =>
    .ok ((twin.setRd inside 0).reserve _)

theorem Twin.dumpStringLoop (twin : c.Twin s t) (sound : c.Sound) (address : Word) (rounds : Nat) :
    Tracks c.Twin (dumpStringLoop s address rounds) (dumpStringLoop t address rounds) := by
  induction rounds generalizing s t address with
  | zero => exact .error _ _
  | succ rounds ih =>
    refine (twin.getMemoryTarget address .load).bind fun a b looked => ?_
    obtain ⟨targets,state⟩ := looked
    have status : b.status = a.status := targets.status
    rw [status]
    refine .ite _ (fun _ => .ok state) fun _ => ?_
    refine (state.readCommon sound address sizeWord).bind ?_
    rintro ⟨value,u⟩ ⟨value',v⟩ ⟨same,twin⟩
    dsimp only at same twin
    simp only [same]
    exact .ite _ (fun _ => .ok twin) fun _ => ih twin _

theorem Twin.traceEcall (twin : c.Twin s t) (sound : c.Sound) :
    Tracks c.Twin (traceEcall s) (traceEcall t) := by
  have x : t.x = s.x := by
    rw [twin.hart]
    rfl
  simp only [Emuriscv.traceEcall,twin.privilege,x]
  exact .ite _ (fun _ => .ite _ (fun _ => twin.dumpStringLoop sound _ _) fun _ =>
    .ite _ (fun _ => .error _ _) fun _ => .ok twin) fun _ => .ok twin

omit [Platform] in
/-- A trap, of which each machine keeps its own record. -/
theorem raiseException_graft (t s : State) (cause tval : Word) :
    raiseException (graft t s) cause tval = { graft t (raiseException s cause tval) with
      traps := ⟨s.pc,cause,tval⟩ :: t.traps } := by
  cases mode : trapsToSMode s cause with
  | true =>
    rw [raiseException_delegated s cause tval mode,raiseException_delegated (graft t s) _ _ mode]
    rfl
  | false =>
    have direct : ¬trapsToSMode s cause = true := by simp [mode]
    rw [raiseException_direct s cause tval direct,raiseException_direct (graft t s) _ _ direct]
    rfl

omit [Platform] in
theorem Twin.raise (twin : c.Twin s t) (cause tval : Word) :
    c.Twin (raiseException s cause tval) (raiseException t cause tval) := by
  have other := raiseException_graft t s cause tval
  have entered : raiseException s cause tval = { graft s (raiseException s cause tval) with
      traps := ⟨s.pc,cause,tval⟩ :: s.traps } := raiseException_graft s s cause tval
  rw [← twin.hart] at other
  rw [other]
  refine twin.next rfl ?_ rfl ?_ rfl ?_ <;> rw [entered]
  case refine_3 => exact twin.devices
  all_goals rfl

theorem Twin.ecall (twin : c.Twin s t) (sound : c.Sound) :
    Tracks c.Twin (ecall s) (ecall t) := by
  refine (twin.traceEcall sound).bind fun u v twin => ?_
  have cause : ecallCause v = ecallCause u := by
    rw [twin.hart]
    rfl
  have tval : v.pendingTval = u.pendingTval := by
    rw [twin.hart]
    rfl
  have set : c.Twin { u with pendingException := ecallCause u }
      { v with pendingException := ecallCause u } :=
    twin.map (fun s => { s with pendingException := ecallCause u }) rfl rfl rfl rfl rfl
  simp only [raiseEcall,cause,tval]
  exact .ok (set.raise _ _)

theorem Twin.execute (twin : c.Twin s t) (sound : c.Sound) (inside : InRam c.left p) (op : Op) :
    Tracks c.Twin (execute op s p) (execute op t p) := by
  cases op
  case add | and | or | xor | sub | sll | srl | sra | slt | sltu | mul | mulh | mulhsu | mulhu | opDiv
      | divu | rem | remu => exact .ok (twin.grafted inside (registerOp_grafts _))
  case addi | andi | ori | xori | slti | sltiu =>
    exact .ok (twin.grafted inside (immediateOp_grafts _ _))
  case slli | srli | srai => exact twin.immediateShift inside _
  case beq | bne | blt | bge | bltu | bgeu => exact .ok (twin.grafted inside (branch_grafts _))
  case lui => exact .ok (twin.grafted inside lui_grafts)
  case auipc => exact .ok (twin.grafted inside auipc_grafts)
  case jal => exact .ok (twin.grafted inside jal_grafts)
  case jalr => exact .ok (twin.grafted inside jalr_grafts)
  case csrrs => exact .ok (twin.grafted inside (csrHandler_grafts .csrrs))
  case csrrw => exact .ok (twin.grafted inside (csrHandler_grafts .csrrw))
  case csrrc => exact .ok (twin.grafted inside (csrHandler_grafts .csrrc))
  case csrrsi => exact .ok (twin.grafted inside (csrHandler_grafts .csrrsi))
  case csrrwi => exact .ok (twin.grafted inside (csrHandler_grafts .csrrwi))
  case csrrci => exact .ok (twin.grafted inside (csrHandler_grafts .csrrci))
  case lb =>
    exact twin.loadOp inside (sound.extends sizeByte
      fun value => if value &&& 0x80 = 0x80 then value ||| 0xffffff00 else value)
  case lh =>
    exact twin.loadOp inside (sound.extends sizeHalf
      fun value => if value &&& 0x8000 = 0x8000 then value ||| 0xffff0000 else value)
  case lbu => exact twin.loadOp inside (sound.pairs sizeByte)
  case lhu => exact twin.loadOp inside (sound.pairs sizeHalf)
  case lw => exact twin.loadOp inside (sound.pairs sizeWord)
  case sb | sh | sw =>
    dsimp only [Emuriscv.execute,Handler.sb,Handler.sh,Handler.sw]
    exact twin.storeOp inside fun _ _ => twin.writeCommon sound _ _ _
  case amoaddW | amoorW | amoandW | amoxorW => exact twin.amoOpW sound inside _
  case amoswapW => exact twin.amoswapW sound inside
  case lr => exact twin.lr sound inside
  case sc => exact twin.sc sound inside
  case ecall => exact twin.ecall sound
  case mret =>
    refine twin.mapped (f := mret) (map_ite _ rfl rfl) fun u returned => ?_
    rw [(mret_ok returned).2]
    rfl
  case sret =>
    refine twin.mapped (f := sret) (map_ite _ rfl rfl) fun u returned => ?_
    rw [(sret_ok returned).2]
    rfl
  case wfi => exact .error _ _
  case uret => exact .ok (twin.map uret rfl rfl rfl rfl rfl)
  case ebreak | fence | fencei | sfenceVma => exact .ok twin

omit [Platform] in
theorem Twin.finishOp (twin : c.Twin s t) : c.Twin (finishOp s) (finishOp t) := by
  have shifted : c.Twin (dispatched s) (dispatched t) := twin.map dispatched rfl rfl rfl rfl rfl
  have flag : t.hasPendingException = s.hasPendingException := by
    rw [twin.hart]
    rfl
  have tval : t.pendingTval = s.pendingTval := by
    rw [twin.hart]
    rfl
  cases pending : s.hasPendingException with
  | false =>
    rw [finishOp_quiet pending,finishOp_quiet (flag.trans pending)]
    exact shifted.map retire rfl rfl rfl rfl rfl
  | true =>
    rw [finishOp_pending pending,finishOp_pending (flag.trans pending),twin.pending,tval]
    exact (shifted.raise _ _).map retire rfl rfl rfl rfl rfl

omit [Platform] in
/-- The word that both machines have fetched lies in RAM. -/
theorem Twin.codePtr (twin : c.Twin s t) {target target' : MemoryTarget}
    (ptr : target'.ptr = target.ptr) (ram : ∀ p, target.ptr = some p → RamPtr c.left p) :
    Tracks (fun p q => q = p ∧ InRam c.left p) (codePtr s target) (codePtr t target') := by
  simp only [Emuriscv.codePtr,MemoryTarget.pointer,ptr]
  cases found : target.ptr with
  | none => exact .error _ _
  | some p =>
    simp only [pure_eq_ok,ok_bind]
    cases base : p.base with
    | none => exact .error _ _
    | some buffer =>
      simp only [twin.bufferSize]
      refine .ite _ (fun inside => .ok ⟨rfl,fun k bound => ?_⟩) fun _ => .error _ _
      have here : p.offset + k < s.bufferSize buffer := by omega
      exact RamPtr.inRam (ram p found) base twin.left here

theorem Twin.emulateOp (twin : c.Twin s t) (sound : c.Sound) :
    Tracks c.Twin (emulateOp s) (emulateOp t) := by
  have pc : t.pc = s.pc := by
    rw [twin.hart]
    rfl
  simp only [Emuriscv.emulateOp,pc]
  refine (twin.getMemoryTarget s.pc .fetch).bind fun a b looked => ?_
  obtain ⟨targets,state⟩ := looked
  have status : b.status = a.status := targets.status
  have moved : c.Twin { a.state with pc := a.state.pc + 4 } { b.state with pc := b.state.pc + 4 } :=
    state.map (fun s => { s with pc := s.pc + 4 }) rfl rfl rfl rfl rfl
  rw [status]
  refine .ite _ (fun _ => ?_) fun _ => ?_
  · have raised := moved.raise a.state.pendingException a.state.pendingTval
    have pending := state.pending
    have tval : b.state.pendingTval = a.state.pendingTval := by
      rw [state.hart]
      rfl
    rw [pending,tval]
    exact .ok raised
  · refine (moved.codePtr targets.ptr targets.ram).bind ?_
    rintro instruction instruction' ⟨same,inside⟩
    rw [same,moved.deref inside]
    cases decode (Emuriscv.deref { a.state with pc := a.state.pc + 4 } instruction) with
    | none => exact .error _ _
    | some op => exact (moved.execute sound inside op).bind fun _ _ twin => .ok twin.finishOp

end Coupling

end Emuriscv
