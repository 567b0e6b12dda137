import Emuriscv.Rereads
import Emuriscv.Reset

/-! The reservation of `lr` and `sc`: one word, which no other instruction changes and no trap
clears. Whether an `sc` stores is decided by the last `lr` or `sc` of the run before it. -/
namespace Emuriscv

open LabelledRun

section Execute

variable [Platform] {f : State} {p : WordPtr} {op : Op}

omit [Platform] in
theorem setRdValue_reservation (s : State) (p : WordPtr) (value : Word) :
    (setRdValue s p value).loadReservation = s.loadReservation := by
  rw [setRdValue_eq]

omit [Platform] in
theorem loadOp_reservation {read : State → Word → Except Stop (Word × State)}
    (reader : op.loadReader = some read) (h : Handler.loadOp read f p = .ok t) :
    t.loadReservation = f.loadReservation := by
  obtain ⟨⟨value,u⟩,ran,rest⟩ := bind_eq_ok.mp h
  obtain ⟨_,_,first⟩ := Op.loadReader_common reader ran
  dsimp only at rest
  split at rest
  next =>
    obtain rfl := Except.ok.inj rest
    exact (readCommon_keeps first).reservation
  next =>
    obtain rfl := Except.ok.inj rest
    rw [setRdValue_reservation,(readCommon_keeps first).reservation]

theorem amoOpW_reservation {eval : Word → Word → Word} (h : Handler.amoOpW eval f p = .ok t) :
    t.loadReservation = f.loadReservation := by
  obtain ⟨⟨value,u⟩,ran,rest⟩ := bind_eq_ok.mp h
  obtain ⟨v,wrote,rest⟩ := bind_eq_ok.mp rest
  obtain rfl := Except.ok.inj rest
  rw [setRdValue_reservation,(writeCommon_keeps wrote).reservation,(readCommon_keeps ran).reservation]

theorem amoswapW_reservation (h : Handler.amoswapW f p = .ok t) :
    t.loadReservation = f.loadReservation := by
  obtain ⟨⟨value,u⟩,ran,rest⟩ := bind_eq_ok.mp h
  rw [(writeCommon_keeps rest).reservation,setRdValue_reservation,(readCommon_keeps ran).reservation]

theorem access_reservation (accesses : op.dataAccess = some access) (notLr : op ≠ .lr)
    (notSc : op ≠ .sc) (ran : execute op f p = .ok t) : t.loadReservation = f.loadReservation := by
  cases op <;> simp only [Op.dataAccess,Option.some.injEq,reduceCtorEq] at accesses
  case lb => exact loadOp_reservation (show Op.lb.loadReader = some _ from rfl) ran
  case lbu => exact loadOp_reservation (show Op.lbu.loadReader = some _ from rfl) ran
  case lh => exact loadOp_reservation (show Op.lh.loadReader = some _ from rfl) ran
  case lhu => exact loadOp_reservation (show Op.lhu.loadReader = some _ from rfl) ran
  case lw => exact loadOp_reservation (show Op.lw.loadReader = some _ from rfl) ran
  case sb => exact (writeCommon_keeps ran).reservation
  case sh => exact (writeCommon_keeps ran).reservation
  case sw => exact (writeCommon_keeps ran).reservation
  case amoaddW => exact amoOpW_reservation ran
  case amoorW => exact amoOpW_reservation ran
  case amoandW => exact amoOpW_reservation ran
  case amoxorW => exact amoOpW_reservation ran
  case amoswapW => exact amoswapW_reservation ran
  case lr => contradiction
  case sc => contradiction

omit [Platform] in
theorem ecall_reservation (h : ecall f = .ok t) : t.loadReservation = f.loadReservation := by
  obtain ⟨g,traced,rest⟩ := bind_eq_ok.mp h
  obtain rfl := Except.ok.inj rest
  rw [raiseEcall,(raiseException_frame ..).2.2,traceEcall_traced traced]

omit [Platform] in
theorem immediateShift_reservation (h : Handler.immediateShift shift f p = .ok t) :
    t.loadReservation = f.loadReservation := by
  obtain ⟨value,rfl⟩ := immediateShift_ok h
  exact setRdValue_reservation ..

/-- Only `lr` and `sc` touch the reservation. -/
theorem execute_reservation (ran : execute op f p = .ok t) (notLr : op ≠ .lr) (notSc : op ≠ .sc) :
    t.loadReservation = f.loadReservation := by
  cases accesses : op.dataAccess with
  | some access => exact access_reservation accesses notLr notSc ran
  | none =>
    cases number : op.csrOp with
    | some csrOp => rw [← execute_csrOp number ran,csrHandler_rest]
    | none =>
      cases op <;> simp only [Op.dataAccess,Op.csrOp,reduceCtorEq] at accesses number
      case beq | bge | bgeu | blt | bltu | bne =>
        obtain rfl := Except.ok.inj ((execute_transfer f p rfl).symm.trans ran)
        rfl
      case jal | jalr =>
        obtain rfl := Except.ok.inj ran
        exact setRdValue_reservation ..
      case slli | srai | srli => exact immediateShift_reservation ran
      case ebreak | fence | fencei | uret | sfenceVma =>
        obtain rfl := Except.ok.inj ran
        rfl
      case ecall => exact ecall_reservation ran
      case mret => rw [(mret_ok ran).2]; rfl
      case sret => rw [(sret_ok ran).2]; rfl
      case wfi => contradiction
      all_goals
        obtain rfl := Except.ok.inj ran
        exact setRdValue_reservation ..

end Execute

theorem finishOp_reservation (s : State) : (finishOp s).loadReservation = s.loadReservation := by
  by_cases pending : s.hasPendingException = true
  · rw [finishOp_pending pending]
    exact (raiseException_frame (dispatched s) s.pendingException s.pendingTval).2.2
  · rw [finishOp_quiet (eq_false_of_ne_true pending)]
    rfl

/-- The step executes an `lr` or an `sc`. -/
def Touches (s : State) (_ : Unit) (_ : State) : Prop :=
  ∃ f p op, Fetches s f p op ∧ (op = .lr ∨ op = .sc)

section Step

variable [Platform] {s t : State}

omit [Platform] in
theorem Fetches.reservation (fetched : Fetches s f p op) : f.loadReservation = s.loadReservation := by
  rw [fetched.frame]

theorem emulateOp_untouched (step : emulateOp s = .ok t) (untouched : ¬Touches s () t) :
    t.loadReservation = s.loadReservation := by
  cases emulateOp_cases step with
  | fetchFault faults => exact (raiseException_frame ..).2.2
  | unmapped translated assigned outside =>
    rw [(raiseException_frame ..).2.2,translateAddress_ramOnly translated]
  | @executed f p op u fetched ran =>
    have notLr : op ≠ .lr := fun lr => untouched ⟨f, p, op, fetched, Or.inl lr⟩
    have notSc : op ≠ .sc := fun sc => untouched ⟨f, p, op, fetched, Or.inr sc⟩
    rw [finishOp_reservation,execute_reservation ran notLr notSc,fetched.reservation]

/-- A step that has fetched an instruction has called its handler. -/
theorem emulateOp_ran (fetched : Fetches s f p op) (step : emulateOp s = .ok t) :
    ∃ u, execute op f p = .ok u ∧ t = finishOp u := by
  rw [emulateOp_fetched fetched] at step
  obtain ⟨u,ran,rest⟩ := bind_eq_ok.mp step
  exact ⟨u, ran, (Except.ok.inj rest).symm⟩

theorem emulateOp_lr (fetched : Fetches s f p .lr) (step : emulateOp s = .ok t) :
    t.loadReservation = getRs1Value f p := by
  obtain ⟨u,ran,rfl⟩ := emulateOp_ran fetched step
  obtain ⟨_,_,rest⟩ := bind_eq_ok.mp ran
  rw [finishOp_reservation,← Except.ok.inj rest]

theorem emulateOp_sc (fetched : Fetches s f p .sc) (step : emulateOp s = .ok t) :
    t.loadReservation = -1 := by
  obtain ⟨u,ran,rfl⟩ := emulateOp_ran fetched step
  rw [finishOp_reservation]
  rcases sc_cases ran with ⟨_,rfl⟩ | ⟨_,_,_,rfl⟩
  · rfl
  · rfl

end Step

/-- RAM and the devices are the same. -/
structure SameMemory (s t : State) : Prop where
  ram : t.ram = s.ram
  vm : t.vm = s.vm
  uart : t.uart = s.uart
  console : t.console = s.console

/-- `sc` stores nothing and puts 1 in `rd`. -/
structure ScFails (f : State) (p : WordPtr) (t : State) : Prop where
  memory : SameMemory f t
  registers : t.x = writeX f.x (getRd (deref f p)) 1

/-- `sc` stores `rs2` and puts 0 in `rd`, if the store has left the field of `rd` as it was. -/
structure ScSucceeds [Platform] (f : State) (p : WordPtr) (t : State) : Prop where
  mapped : ¬PageFaults f (getRs1Value f p) .store
  stored : ∃ u, writeWord f (getRs1Value f p) (getRs2Value f p) = .ok u ∧ SameMemory u t ∧
    (getRd (deref u p) = getRd (deref f p) → t.x = writeX f.x (getRd (deref f p)) 0)

/-- What the last `lr` or `sc` of a run was. -/
inductive Standing where
  | untouched
  | cleared
  | reserved (address : Word)
  | trapped (address : Word)

inductive LastTouch (s : State) (steps : List (Unit × State)) : Standing → Prop
  | untouched (never : Every (fun s e t => ¬Touches s e t) s steps) : LastTouch s steps .untouched
  | cleared (last : LastStep Touches s steps u v) (fetched : Fetches u f p .sc) :
      LastTouch s steps .cleared
  | reserved (last : LastStep Touches s steps u v) (fetched : Fetches u f p .lr)
      (completed : v.traps = u.traps) : LastTouch s steps (.reserved (getRs1Value f p))
  | trapped (last : LastStep Touches s steps u v) (fetched : Fetches u f p .lr)
      (trapped : v.traps ≠ u.traps) : LastTouch s steps (.trapped (getRs1Value f p))

/-- The word that stands for it. -/
def Standing.word : Standing → Word
  | .untouched => 0
  | .cleared => -1
  | .reserved address | .trapped address => address

open Classical in
/-- What an `sc` does after it. Where the code has no word of its own for "no reservation", the
address that this word names is left out. -/
def ScLaw [Platform] (standing : Standing) (f : State) (p : WordPtr) (t : State) : Prop :=
  match standing with
  | .reserved address =>
    (getRs1Value f p = address → if PageFaults f address .store then SameMemory f t
      else ScSucceeds f p t) ∧
    (getRs1Value f p ≠ address → ScFails f p t)
  | .trapped address => getRs1Value f p ≠ address → ScFails f p t
  | .cleared => getRs1Value f p ≠ -1 → ScFails f p t
  | .untouched => getRs1Value f p ≠ 0 → ScFails f p t

theorem finishOp_memory (s : State) : SameMemory s (finishOp s) := by
  by_cases pending : s.hasPendingException = true
  · rw [finishOp_pending pending]
    rcases raiseException_cases (dispatched s) s.pendingException s.pendingTval with
      ⟨_,entered⟩ | ⟨_,entered⟩
    · rw [entered]
      exact ⟨rfl,rfl,rfl,rfl⟩
    · rw [entered]
      exact ⟨rfl,rfl,rfl,rfl⟩
  · rw [finishOp_quiet (eq_false_of_ne_true pending)]
    exact ⟨rfl,rfl,rfl,rfl⟩

section Law

variable [Platform] {s t : State} {steps : List (Unit × State)}

theorem sc_fails (fetched : Fetches s f p .sc) (step : emulateOp s = .ok t)
    (other : s.loadReservation ≠ getRs1Value f p) : ScFails f p t := by
  obtain ⟨u,ran,rfl⟩ := emulateOp_ran fetched step
  rw [← fetched.reservation] at other
  rcases sc_cases ran with ⟨_,rfl⟩ | ⟨reserved,_⟩
  · have memory := finishOp_memory { setRdValue f p 1 with loadReservation := -1 }
    have x := (finishOp_frame { setRdValue f p 1 with loadReservation := -1 }).1
    rw [setRdValue_eq] at memory x ⊢
    exact ⟨⟨memory.ram,memory.vm,memory.uart,memory.console⟩, x⟩
  · contradiction

theorem sc_succeeds (fetched : Fetches s f p .sc) (step : emulateOp s = .ok t)
    (reserved : s.loadReservation = getRs1Value f p)
    (mapped : ¬PageFaults f (getRs1Value f p) .store) : ScSucceeds f p t := by
  obtain ⟨u,ran,rfl⟩ := emulateOp_ran fetched step
  rw [← fetched.reservation] at reserved
  rcases sc_cases ran with ⟨other,_⟩ | ⟨_,v,wrote,rfl⟩
  · contradiction
  · have memory := finishOp_memory { setRdValue v p 0 with loadReservation := -1 }
    have x := (finishOp_frame { setRdValue v p 0 with loadReservation := -1 }).1
    rw [setRdValue_eq] at memory x ⊢
    refine ⟨mapped, v, wrote, ⟨memory.ram,memory.vm,memory.uart,memory.console⟩, ?_⟩
    intro rd
    rw [x,rd,writeCommon_x wrote]

/-- A store that faults reaches no memory. -/
theorem sc_faults (fetched : Fetches s f p .sc) (step : emulateOp s = .ok t)
    (reserved : s.loadReservation = getRs1Value f p)
    (faults : PageFaults f (getRs1Value f p) .store) : SameMemory f t := by
  obtain ⟨u,ran,rfl⟩ := emulateOp_ran fetched step
  rw [← fetched.reservation] at reserved
  obtain rfl := Except.ok.inj ((sc_fault ⟨reserved,faults⟩).symm.trans ran)
  have memory := finishOp_memory (DataAccess.storeConditional.faulted f p)
  exact ⟨memory.ram,memory.vm,memory.uart,memory.console⟩

/-- The reservation at the end of a run. -/
theorem LastTouch.reservation (last : LastTouch s steps standing) (reset : AtReset s)
    (run : MachineRun s steps) : (final s steps).loadReservation = standing.word := by
  have keeps (s : State) (e : Unit) (t : State) (step : emulateOp s = .ok t)
      (untouched : ¬Touches s e t) : t.loadReservation = s.loadReservation :=
    emulateOp_untouched step untouched
  cases last with
  | untouched never =>
    rw [run.kept never keeps]
    obtain ⟨_,_,_,_,_,rfl⟩ := reset
    rfl
  | cleared last fetched =>
    obtain ⟨same,_,step⟩ := last.kept run keeps
    rw [same,emulateOp_sc fetched step]
    rfl
  | reserved last fetched completed =>
    obtain ⟨same,_,step⟩ := last.kept run keeps
    rw [same,emulateOp_lr fetched step]
    rfl
  | trapped last fetched trapped =>
    obtain ⟨same,_,step⟩ := last.kept run keeps
    rw [same,emulateOp_lr fetched step]
    rfl

omit [Platform] in
/-- Every run has one. -/
theorem lastTouch_exists (s : State) (steps : List (Unit × State)) :
    ∃ standing, LastTouch s steps standing := by
  rcases lastStep_cases Touches s steps with never | ⟨u,v,last⟩
  · exact ⟨_, .untouched never⟩
  · have kind : Touches u () v := by
      obtain ⟨_,_,_,_,_,kind,_⟩ := last
      exact kind
    obtain ⟨f,p,op,fetched,rfl | rfl⟩ := kind
    · by_cases completed : v.traps = u.traps
      · exact ⟨_, .reserved last fetched completed⟩
      · exact ⟨_, .trapped last fetched completed⟩
    · exact ⟨_, .cleared last fetched⟩

/-- The run lemma. -/
theorem machineRun_sc (reset : AtReset s) (run : MachineRun s steps) :
    (∃ standing, LastTouch s steps standing) ∧
    ∀ standing f p t, LastTouch s steps standing → Fetches (final s steps) f p .sc →
      emulateOp (final s steps) = .ok t → ScLaw standing f p t := by
  refine ⟨lastTouch_exists s steps, ?_⟩
  intro standing f p t last fetched step
  have held := last.reservation reset run
  have fails (other : getRs1Value f p ≠ standing.word) : ScFails f p t :=
    sc_fails fetched step (held ▸ other.symm)
  cases standing with
  | reserved address =>
    refine ⟨?_,fails⟩
    rintro rfl
    split
    next faults => exact sc_faults fetched step held faults
    next mapped => exact sc_succeeds fetched step held mapped
  | trapped address => exact fails
  | cleared => exact fails
  | untouched => exact fails

end Law

/-- The steps from a state return, each in a state that passes its test. -/
def passes [Platform] : State → List (State → Bool) → Bool
  | _, [] => true
  | s, test :: tests =>
    match emulateOp s with
    | .ok t => test t && passes t tests
    | .error _ => false

theorem passes_cons [Platform] {s : State} {tests : List (State → Bool)}
    (passed : passes s (test :: tests) = true) :
    ∃ t, emulateOp s = .ok t ∧ test t = true ∧ passes t tests = true := by
  rw [passes] at passed
  cases stepped : emulateOp s with
  | ok t =>
    rw [stepped] at passed
    exact ⟨t, rfl, Bool.and_eq_true_iff.mp passed⟩
  | error stop =>
    rw [stepped] at passed
    contradiction

/-- The next instruction is fetched in M mode, and nothing has trapped. -/
def about (op : Op) (p : WordPtr) (s : State) : Bool :=
  s.privilege = privM ∧ wordLocation s.memoryMap s.pc = some p ∧ decode (deref s p) = some op ∧
    s.traps.isEmpty

theorem about_fetches (next : about op p s = true) :
    Fetches s { s with pc := s.pc + 4 } p op ∧ s.traps = [] := by
  obtain ⟨mode,located,decoded,traps⟩ := of_decide_eq_true next
  exact ⟨fetches_direct (fun walks => walks.1 mode) located decoded, List.isEmpty_iff.mp traps⟩

/-- `auipc x6, 0`, `lr.w x5, (x6)`, `addi x7, x6, 4`, `lr.w x5, (x7)` and `sc.w x5, x0, (x6)`. -/
def bootTwice : State := bootMachine [0x00000317,0x100322af,0x00430393,0x1003a2af,0x180322af]

theorem bootTwice_passes : @passes clearingPlatform bootTwice
    [fun s => about .lr ⟨0,4⟩ s && getRs1Value s ⟨0,4⟩ = 0x80000000, about .addi ⟨0,8⟩,
      fun s => about .lr ⟨0,12⟩ s && getRs1Value s ⟨0,12⟩ = 0x80000004,
      fun s => about .sc ⟨0,16⟩ s && getRs1Value s ⟨0,16⟩ = 0x80000000 && getRd (deref s ⟨0,16⟩) = 5,
      fun s => getRd (deref s ⟨0,16⟩) = 5 && s.x 5 = 1] = true := by
  decide +kernel

/-- The `lr` of the other address is the last of the run, and the `sc` fails. -/
theorem machineRun_sc_bootTwice : ∃ steps f t, @MachineRun clearingPlatform bootTwice steps ∧
    Fetches (final bootTwice steps) f ⟨0,16⟩ .sc ∧
    @ScLaw clearingPlatform (.reserved 0x80000004) f ⟨0,16⟩ t := by
  let _ : Platform := clearingPlatform
  obtain ⟨a,first,_,rest⟩ := passes_cons bootTwice_passes
  obtain ⟨b,second,_,rest⟩ := passes_cons rest
  obtain ⟨c,third,atLr,rest⟩ := passes_cons rest
  obtain ⟨d,fourth,atSc,rest⟩ := passes_cons rest
  obtain ⟨e,fifth,_,_⟩ := passes_cons rest
  simp only [Bool.and_eq_true,decide_eq_true_eq] at atLr atSc
  obtain ⟨lr,quiet⟩ := about_fetches atLr.1
  obtain ⟨sc,quiet'⟩ := about_fetches atSc.1.1
  have run : MachineRun bootTwice [((),a),((),b),((),c),((),d)] :=
    .cons first (.cons second (.cons third (.cons fourth .nil)))
  have last : LastStep Touches bootTwice [((),a),((),b),((),c),((),d)] c d :=
    ⟨[_,_,_], (), [], rfl, rfl, ⟨_, _, _, lr, Or.inl rfl⟩, trivial⟩
  have reserved := LastTouch.reserved last lr (quiet'.trans quiet.symm)
  rw [show getRs1Value { c with pc := c.pc + 4 } ⟨0,12⟩ = 0x80000004 from atLr.2] at reserved
  exact ⟨_, _, e, run, sc, (machineRun_sc (bootMachine_reset _) run).2 _ _ _ _ reserved sc fifth⟩

/-- Some `lr` of the address has completed without a trap, and no `sc` was executed since. -/
def ReservedBefore (s : State) (steps : List (Unit × State)) (address : Word) : Prop :=
  ∃ before e v after f p, steps = before ++ (e,v) :: after ∧ Fetches (final s before) f p .lr ∧
    v.traps = (final s before).traps ∧ getRs1Value f p = address ∧
    Every (fun u _ _ => ¬∃ g q, Fetches u g q .sc) v after

/-- The `lr` of the same address is not enough. -/
theorem bootTwice_replaced : AtReset bootTwice ∧ ∃ steps f p t,
    @MachineRun clearingPlatform bootTwice steps ∧ Fetches (final bootTwice steps) f p .sc ∧
    @emulateOp clearingPlatform (final bootTwice steps) = .ok t ∧
    ReservedBefore bootTwice steps (getRs1Value f p) ∧ ¬@ScSucceeds clearingPlatform f p t := by
  let _ : Platform := clearingPlatform
  refine ⟨bootMachine_reset _, ?_⟩
  obtain ⟨a,first,atLr,rest⟩ := passes_cons bootTwice_passes
  obtain ⟨b,second,atAddi,rest⟩ := passes_cons rest
  obtain ⟨c,third,atLr',rest⟩ := passes_cons rest
  obtain ⟨d,fourth,atSc,rest⟩ := passes_cons rest
  obtain ⟨e,fifth,after,_⟩ := passes_cons rest
  simp only [Bool.and_eq_true,decide_eq_true_eq] at atLr atLr' atSc after
  obtain ⟨lr,quiet⟩ := about_fetches atLr.1
  obtain ⟨addi,quiet'⟩ := about_fetches atAddi
  obtain ⟨lr',_⟩ := about_fetches atLr'.1
  obtain ⟨sc,_⟩ := about_fetches atSc.1.1
  have run : MachineRun bootTwice [((),a),((),b),((),c),((),d)] :=
    .cons first (.cons second (.cons third (.cons fourth .nil)))
  have same : getRs1Value { a with pc := a.pc + 4 } ⟨0,4⟩ =
      getRs1Value { d with pc := d.pc + 4 } ⟨0,16⟩ :=
    atLr.2.trans atSc.1.2.symm
  refine ⟨_, _, _, e, run, sc, fifth, ⟨[_], (), b, _, _, _, rfl, lr, quiet'.trans quiet.symm, same,
    ⟨?_,?_,trivial⟩⟩, ?_⟩
  · rintro ⟨g,q,other⟩
    have := (addi.unique other).2.2
    contradiction
  · rintro ⟨g,q,other⟩
    have := (lr'.unique other).2.2
    contradiction
  · rintro ⟨_,u,_,memory,zero⟩
    have rd : getRd (deref u ⟨0,16⟩) = 5 := by
      rw [← deref_congr memory.ram]
      exact after.1
    have named : getRd (deref { d with pc := d.pc + 4 } ⟨0,16⟩) = 5 := atSc.2
    have wrote : e.x 5 = 0 := by
      rw [zero (rd.trans named.symm),named]
      rfl
    rw [after.2] at wrote
    contradiction

end Emuriscv
