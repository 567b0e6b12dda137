import Emuriscv.PreciseTrap

/-! The read-modify-write instructions on RAM. The macro for the arithmetic ones keeps the old
word aside until the store is done; `amoswap_w` writes `rd` first and takes its operand from
the register file after that. -/
namespace Emuriscv

theorem getMemoryTarget_located {s : State} (translated : translateAddress s address accessType = .ok t)
    (assigned : t.physicalAddress = some physicalAddress)
    (located : wordLocation s.memoryMap physicalAddress = some p) :
    ∃ range, getMemoryTarget s address accessType =
        .ok ⟨translateOk, ⟨some range, some ⟨some p.buffer,p.offset⟩⟩, t.state⟩ ∧
      range.entry.isRam = true := by
  obtain ⟨range,found,ram,rfl,_⟩ := wordLocation_some located
  have looked := getMemoryTarget_covered translated assigned found
  rw [RangePtr.physMemPtr,if_pos ram] at looked
  exact ⟨range,looked,ram⟩

theorem located_inside {s t : State} (only : RamOnly s t)
    (located : wordLocation s.memoryMap physicalAddress = some p) :
    p.offset + 3 < t.bufferSize p.buffer := by
  have map : t.memoryMap = s.memoryMap := by rw [only]
  rw [← map] at located
  exact wordLocation_inside located

theorem readWord_located {s : State} (translated : translateAddress s address .load = .ok t)
    (assigned : t.physicalAddress = some physicalAddress)
    (located : wordLocation s.memoryMap physicalAddress = some p) :
    readWord s address = .ok (deref t.state p, t.state) := by
  obtain ⟨range,looked,ram⟩ := getMemoryTarget_located translated assigned located
  have inside := located_inside (translateAddress_ramOnly translated) located
  rw [readWord,readCommon,looked,ok_bind,if_neg (show translateOk ≠ pageFault by decide)]
  dsimp only [MemoryTarget.pointer]
  rw [pure_eq_ok,ok_bind,if_pos ram,sizeWord,readCommonRam_word t.state p inside]
  rfl

theorem writeWord_located [Platform] {s : State} (translated : translateAddress s address .store = .ok t)
    (assigned : t.physicalAddress = some physicalAddress)
    (located : wordLocation s.memoryMap physicalAddress = some p) (value : Word) :
    writeWord s address value = .ok (putWord t.state p value) := by
  obtain ⟨range,looked,ram⟩ := getMemoryTarget_located translated assigned located
  have inside := located_inside (translateAddress_ramOnly translated) located
  rw [writeWord,writeCommon,looked,ok_bind,if_neg (show translateOk ≠ pageFault by decide)]
  dsimp only [MemoryTarget.pointer]
  rw [pure_eq_ok,ok_bind,if_pos ram]
  exact writeCommonRam_word t.state p value inside

theorem markEntry_setX (s : State) (address : Nat) (entry : Word) (accessType : AccessType)
    (x : RegisterIndex → Word) :
    markEntry { s with x := x } address entry accessType =
      { markEntry s address entry accessType with x := x } := by
  unfold markEntry
  dsimp only
  split <;> rfl

/-- Registers play no part in a translation. -/
theorem translateAddress_setX {s : State} (h : translateAddress s virtualAddress accessType = .ok t)
    (assigned : t.physicalAddress = some physicalAddress) (x : RegisterIndex → Word) :
    translateAddress { s with x := x } virtualAddress accessType =
      .ok { t with state := { t.state with x := x } } := by
  rcases translateAddress_ok h with
    ⟨direct,rfl⟩ | ⟨_,_,rfl⟩ | ⟨_,_,rfl⟩ | ⟨level,address,entry,walks,leaf,rfl⟩
  · exact translateAddress_direct (s := { s with x := x }) direct virtualAddress accessType
  · contradiction
  · contradiction
  · have walks' : Walks { s with x := x } := walks
    have leaf' : busWalk { s with x := x } virtualAddress = .leaf level address entry := leaf
    rw [translateAddress_walks walks',leaf']
    exact congrArg (fun state => Except.ok (Translation.mk translateOk _ state)) (markEntry_setX ..)

inductive AmoOp where
  | add
  | and
  | or
  | xor
  | swap
  deriving DecidableEq, Repr

/-- The stored value, from the old word and the operand. -/
def AmoOp.eval : AmoOp → Word → Word → Word
  | .add, old, operand => old + operand
  | .and, old, operand => old &&& operand
  | .or, old, operand => old ||| operand
  | .xor, old, operand => old ^^^ operand
  | .swap, _, operand => operand

def AmoOp.op : AmoOp → Op
  | .add => .amoaddW
  | .and => .amoandW
  | .or => .amoorW
  | .xor => .amoxorW
  | .swap => .amoswapW

/-- The address of an atomic reaches a whole word of RAM: its location, and the states in
which the walk has recorded the load and the store. -/
structure AmoTarget (s : State) (instruction p : WordPtr) (loaded marked : State) : Prop where
  read : readWord s (getRs1Value s instruction) = .ok (deref loaded p, loaded)
  keepsX : loaded.x = s.x
  flags : FlagsOnly .load s loaded
  write : ∀ [Platform] (x : RegisterIndex → Word) (value : Word),
    writeWord { loaded with x := x } (getRs1Value s instruction) value =
      .ok (putWord { marked with x := x } p value)

theorem amoTarget_of_translation {s : State}
    (translated : translateAddress s (getRs1Value s instruction) .load = .ok t)
    (assigned : t.physicalAddress = some physicalAddress)
    (located : wordLocation s.memoryMap physicalAddress = some p) :
    ∃ marked, translateAddress s (getRs1Value s instruction) .store = .ok marked ∧
      AmoTarget s instruction p t.state marked.state := by
  obtain ⟨marked,stored,same,again⟩ := translateAddress_store translated assigned
  have only := translateAddress_ramOnly translated
  have map : t.state.memoryMap = s.memoryMap := by rw [only]
  refine ⟨marked, stored, readWord_located translated assigned located, by rw [only],
    translateAddress_flagsOnly translated, ?_⟩
  intro _ x value
  have located' : wordLocation ({ t.state with x := x } : State).memoryMap physicalAddress = some p := by
    rw [← located,← map]
  exact writeWord_located (translateAddress_setX again same x) same located' value

section Handlers

variable [Platform] {s loaded marked : State} {instruction p : WordPtr}

theorem amoOpW_located (target : AmoTarget s instruction p loaded marked)
    (op : Word → Word → Word) :
    Handler.amoOpW op s instruction = .ok (setRdValue (putWord { marked with x := s.x } p
      (op (deref loaded p) (s.x (getRs2 (deref loaded instruction))))) instruction (deref loaded p)) := by
  have same : { loaded with x := s.x } = loaded := by rw [← target.keepsX]
  have write := target.write s.x (op (deref loaded p) (getRs2Value loaded instruction))
  rw [same] at write
  unfold Handler.amoOpW
  dsimp only
  rw [target.read,ok_bind]
  dsimp only
  rw [write,ok_bind,getRs2Value,getReg,target.keepsX]
  rfl

theorem amoswapW_located (target : AmoTarget s instruction p loaded marked) :
    Handler.amoswapW s instruction = .ok (putWord { marked with
      x := writeX s.x (getRd (deref loaded instruction)) (deref loaded p) } p
        (writeX s.x (getRd (deref loaded instruction)) (deref loaded p)
          (getRs2 (deref loaded instruction)))) := by
  unfold Handler.amoswapW
  dsimp only
  rw [target.read,ok_bind]
  dsimp only
  rw [setRdValue_eq,target.keepsX]
  exact target.write _ _

/-- The old word combined with the old operand is stored, the flags of the walk aside nothing
else changes in memory, and `rd` receives the old word. -/
structure FollowsAmo (amo : AmoOp) (s : State) (instruction p : WordPtr) (loaded marked t : State) :
    Prop where
  memory : t.ram =
    (putWord marked p (amo.eval (deref loaded p) (s.x (getRs2 (deref s instruction))))).ram
  registers : t.x = writeX s.x (getRd (deref s instruction)) (deref loaded p)

/-- What the handler takes for its operand is worth the old operand, and `rd` is still the
register that the instruction names: `amoswap_w` takes the operand after it has written `rd`,
the others read the field of `rd` again after the store. -/
def OperandsKept (amo : AmoOp) (s : State) (instruction p : WordPtr) (loaded marked : State) : Prop :=
  let word := deref s instruction
  let old := deref loaded p
  let late := getRs2 (deref loaded instruction)
  let demanded := amo.eval old (s.x (getRs2 word))
  match amo with
  | .swap => writeX s.x (getRd word) old late = s.x (getRs2 word)
  | _ => amo.eval old (s.x late) = demanded ∧
    writeX s.x (getRd (deref (putWord marked p demanded) instruction)) old =
      writeX s.x (getRd word) old

omit [Platform] in
theorem putWord_ram_inj {a b : Word} : (putWord s p a).ram = (putWord s p b).ram ↔ a = b := by
  constructor
  · intro same
    rw [← deref_putWord s p a,deref_congr same,deref_putWord]
  · rintro rfl
    rfl

theorem execute_swap (target : AmoTarget s instruction p loaded marked) :
    ∃ t, execute (AmoOp.swap).op s instruction = .ok t ∧
      (FollowsAmo .swap s instruction p loaded marked t ↔
        OperandsKept .swap s instruction p loaded marked) := by
  have rd := getRd_flags target.flags instruction
  have swapped := amoswapW_located target
  rw [rd] at swapped
  refine ⟨_, swapped, ?_⟩
  constructor
  · intro follows
    exact putWord_ram_inj.mp follows.memory
  · intro kept
    refine ⟨putWord_ram_inj.mpr kept, ?_⟩
    rw [putWord_eq]

theorem execute_arithmetic (amo : AmoOp) (arithmetic : amo ≠ .swap)
    (target : AmoTarget s instruction p loaded marked) :
    ∃ t, execute amo.op s instruction = .ok t ∧
      (FollowsAmo amo s instruction p loaded marked t ↔
        OperandsKept amo s instruction p loaded marked) := by
  have done := amoOpW_located target amo.eval
  have executed : execute amo.op s instruction = Handler.amoOpW amo.eval s instruction := by
    cases amo <;> first | rfl | contradiction
  let x := fun value => writeX s.x (getRd (deref (putWord marked p value) instruction)) (deref loaded p)
  let late := amo.eval (deref loaded p) (s.x (getRs2 (deref loaded instruction)))
  have result : setRdValue (putWord { marked with x := s.x } p late) instruction (deref loaded p) =
      { putWord marked p late with x := x late } := by
    rw [setRdValue_eq]
    rfl
  have condition : OperandsKept amo s instruction p loaded marked ↔
      late = amo.eval (deref loaded p) (s.x (getRs2 (deref s instruction))) ∧
        x (amo.eval (deref loaded p) (s.x (getRs2 (deref s instruction)))) =
          writeX s.x (getRd (deref s instruction)) (deref loaded p) := by
    cases amo <;> first | rfl | contradiction
  rw [executed,done,result,condition]
  refine ⟨_, rfl, ?_⟩
  constructor
  · intro follows
    have same := putWord_ram_inj.mp follows.memory
    exact ⟨same, same ▸ follows.registers⟩
  · rintro ⟨same,registers⟩
    rw [same]
    exact ⟨rfl,registers⟩

omit [Platform] in
/-- When the instruction word is out of reach of the store and of the walk's flags, only
`amoswap_w` can lose its operand, by `rd = rs2`. -/
theorem operandsKept_apart (amo : AmoOp) (afterLoad : deref loaded instruction = deref s instruction)
    (afterStore : deref marked instruction = deref s instruction)
    (apart : instruction.buffer = p.buffer →
      instruction.offset + 4 ≤ p.offset ∨ p.offset + 4 ≤ instruction.offset) :
    OperandsKept amo s instruction p loaded marked ↔
      (amo = .swap → getRd (deref s instruction) = 0 ∨
        getRs2 (deref s instruction) ≠ getRd (deref s instruction) ∨
          deref loaded p = s.x (getRs2 (deref s instruction))) := by
  have stored (value : Word) : deref (putWord marked p value) instruction = deref s instruction :=
    (deref_putWord_other marked p instruction value apart).trans afterStore
  cases amo
  case swap =>
    simp only [OperandsKept,afterLoad,true_implies]
    by_cases zero : getRd (deref s instruction) = 0
    · simp [writeX,zero]
    · rw [writeX,if_neg zero,Function.update_apply]
      by_cases same : getRs2 (deref s instruction) = getRd (deref s instruction)
      · simp only [same,if_true,ne_eq,not_true,false_or,zero]
      · simp [same]
  all_goals simp [OperandsKept,afterLoad,stored]

end Handlers

theorem finishOp_frame (s : State) : (finishOp s).x = s.x ∧ (finishOp s).ram = s.ram := by
  by_cases pending : s.hasPendingException = true
  · rw [finishOp_pending pending]
    obtain ⟨x,ram,_⟩ := raiseException_frame (dispatched s) s.pendingException s.pendingTval
    exact ⟨x,ram⟩
  · rw [finishOp_quiet (eq_false_of_ne_true pending)]
    exact ⟨rfl,rfl⟩

theorem execute_amo [Platform] (amo : AmoOp) {s : State}
    (target : AmoTarget s instruction p loaded marked) :
    ∃ t, execute amo.op s instruction = .ok t ∧
      (FollowsAmo amo s instruction p loaded marked t ↔
        OperandsKept amo s instruction p loaded marked) := by
  by_cases swap : amo = .swap
  · subst swap
    exact execute_swap target
  · exact execute_arithmetic amo swap target

/-- The step follows the law if and only if its operands are kept. -/
theorem emulateOp_amo [Platform] {s f : State} {amo : AmoOp} {instruction p : WordPtr}
    {loaded : Translation} (fetched : Fetches s f instruction amo.op)
    (translated : translateAddress f (getRs1Value f instruction) .load = .ok loaded)
    (assigned : loaded.physicalAddress = some physicalAddress)
    (located : wordLocation f.memoryMap physicalAddress = some p) :
    ∃ marked t, translateAddress f (getRs1Value f instruction) .store = .ok marked ∧
      FlagsOnly .store f marked.state ∧ emulateOp s = .ok t ∧
      (FollowsAmo amo f instruction p loaded.state marked.state t ↔
        OperandsKept amo f instruction p loaded.state marked.state) ∧
      (deref loaded.state instruction = deref f instruction →
        deref marked.state instruction = deref f instruction →
        (instruction.buffer = p.buffer →
          instruction.offset + 4 ≤ p.offset ∨ p.offset + 4 ≤ instruction.offset) →
        (OperandsKept amo f instruction p loaded.state marked.state ↔
          (amo = .swap → getRd (deref f instruction) = 0 ∨
            getRs2 (deref f instruction) ≠ getRd (deref f instruction) ∨
              deref loaded.state p = s.x (getRs2 (deref f instruction))))) := by
  obtain ⟨marked,stored,target⟩ := amoTarget_of_translation translated assigned located
  obtain ⟨done,executed,law⟩ := execute_amo amo target
  have stepped := emulateOp_executed fetched executed
  obtain ⟨x,ram⟩ := finishOp_frame done
  have registers : f.x = s.x := by rw [fetched.frame]
  refine ⟨marked, _, stored, translateAddress_flagsOnly stored, stepped, ?_, ?_⟩
  · rw [← law]
    constructor
    · rintro ⟨memory,late⟩
      exact ⟨ram.symm.trans memory, x.symm.trans late⟩
    · rintro ⟨memory,late⟩
      exact ⟨ram.trans memory, x.trans late⟩
  · intro afterLoad afterStore apart
    rw [← registers]
    exact operandsKept_apart amo afterLoad afterStore apart

/-- An atomic at the start of RAM in M mode, with the address of a word of zeros in `x6`. -/
def atomicMachine (word : Word) : State :=
  { guest privM [word] with
    pc := 0x80000000
    x := fun index => if index = 6 then 0x80000100 else 1 }

def atomicFetched (word : Word) : State := { atomicMachine word with pc := 0x80000004 }

/-- `amoadd.w x6, x6, (x6)`: one register is the address, the operand and the destination. -/
theorem emulateOp_amo_aliased :
    ∃ t, @emulateOp clearingPlatform (atomicMachine 0x0063232f) = .ok t ∧
      FollowsAmo .add (atomicFetched 0x0063232f) ⟨0,0⟩ ⟨0,256⟩ (atomicFetched 0x0063232f)
        (atomicFetched 0x0063232f) t := by
  let _ : Platform := clearingPlatform
  have direct : ¬Walks (atomicMachine 0x0063232f) := fun walks => walks.1 rfl
  have direct' : ¬Walks (atomicFetched 0x0063232f) := fun walks => walks.1 rfl
  have fetched : Fetches (atomicMachine 0x0063232f) (atomicFetched 0x0063232f) ⟨0,0⟩ (AmoOp.add).op :=
    fetches_direct direct (by decide) (by decide)
  obtain ⟨marked,t,stored,_,stepped,law,kept⟩ := emulateOp_amo (p := ⟨0,256⟩) fetched
    (translateAddress_direct direct' _ _) rfl (by decide)
  obtain rfl := Except.ok.inj ((translateAddress_direct direct' _ .store).symm.trans stored)
  have apart := kept rfl rfl fun _ => Or.inl (by decide)
  exact ⟨t, stepped, law.mpr (apart.mpr fun swap => nomatch swap)⟩

/-- `amoswap.w x5, x5, (x6)` with 1 in `x5`: the lock that it means to take stays free. -/
theorem swapLock_lost :
    ¬∃ t, @emulateOp clearingPlatform (atomicMachine 0x085322af) = .ok t ∧
      FollowsAmo .swap (atomicFetched 0x085322af) ⟨0,0⟩ ⟨0,256⟩ (atomicFetched 0x085322af)
        (atomicFetched 0x085322af) t := by
  let _ : Platform := clearingPlatform
  have direct : ¬Walks (atomicMachine 0x085322af) := fun walks => walks.1 rfl
  have direct' : ¬Walks (atomicFetched 0x085322af) := fun walks => walks.1 rfl
  have fetched : Fetches (atomicMachine 0x085322af) (atomicFetched 0x085322af) ⟨0,0⟩ (AmoOp.swap).op :=
    fetches_direct direct (by decide) (by decide)
  obtain ⟨marked,stored,target⟩ := amoTarget_of_translation (p := ⟨0,256⟩)
    (translateAddress_direct direct' (getRs1Value (atomicFetched 0x085322af) ⟨0,0⟩) .load) rfl (by decide)
  obtain rfl := Except.ok.inj ((translateAddress_direct direct' _ .store).symm.trans stored)
  obtain ⟨done,executed,law⟩ := execute_amo .swap target
  obtain ⟨x,ram⟩ := finishOp_frame done
  rintro ⟨t,stepped,memory,registers⟩
  obtain rfl := Except.ok.inj ((emulateOp_executed fetched executed).symm.trans stepped)
  have kept := law.mp ⟨ram.symm.trans memory, x.symm.trans registers⟩
  have same : (0 : Word) = 1 := kept
  contradiction

end Emuriscv
