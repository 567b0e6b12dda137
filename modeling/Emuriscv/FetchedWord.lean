import Emuriscv.InstructionFields
import Emuriscv.WordBits

/-! Whether a step executes the word that it fetched. Its handler reads the word again from RAM,
where the step itself may have changed it: the walks of the step set flags, and an atomic extracts
`rd` after its store. -/
namespace Emuriscv

/-- The fields that a handler does not extract when it is entered, but later or never. -/
def Op.deferred (s : State) (word : Word) : Op → List InstructionField
  | .lb | .lbu | .lh | .lhu | .lw | .lr => [.register .rd]
  | .amoaddW | .amoorW | .amoandW | .amoxorW | .amoswapW => [.register .rd, .register .rs2]
  | .sc => if s.loadReservation = s.x (getRs1 word) then [.register .rd] else []
  | .csrrs | .csrrc => [.register .rs1]
  | op =>
    match op.transfer with
    | some (.branch condition) =>
      if condition.Holds (s.x (getRs1 word)) (s.x (getRs2 word)) then [] else [.bImm]
    | _ => []

/-- Everything that the step takes from the instruction is what the word at `p` said before the
step. -/
structure ExecutesWord [Platform] (s f : State) (p : WordPtr) : Prop where
  opcode : decode (deref f p) = decode (deref s p)
  entry : ∀ op, decode (deref s p) = some op → ∀ field ∈ op.fields,
    field ∉ op.deferred f (deref f p) → field.Same (deref f p) (deref s p)
  later : ∀ op field u, decode (deref s p) = some op → Rereads f p op field u →
    field.of (deref u p) = field.of (deref s p)
  onlyRd : ∀ t, emulateOp s = .ok t → ∀ index, index ≠ getRd (deref s p) → t.x index = s.x index

/-- The walk of the fetch leaves the bit as it was. -/
def FetchSpares (s : State) (p : WordPtr) (i : Nat) : Prop :=
  Flagged s s.pc .fetch p i → (deref s p).getLsbD i = true

/-- The address of an atomic, as the word names it. -/
def wordAddress (s : State) (p : WordPtr) : Word := s.x (getRs1 (deref s p))

def wordOperand (s : State) (p : WordPtr) : Word := s.x (getRs2 (deref s p))

/-- A store leaves the bits of `rd` as they were: those that it overlaps are stored as they
were, and the others are not flagged. -/
def StoreSpares (s f : State) (p : WordPtr) (value : Word) : Prop :=
  ∀ i, 7 ≤ i ∧ i < 7 + 5 →
    (StoredBit f (wordAddress s p) value p i ↔ (deref s p).getLsbD i = true)

/-- The accesses of an atomic leave the fields that it extracts after them. -/
structure AccessSpares [Platform] (s f : State) (p : WordPtr) (op : Op) : Prop where
  operand : ∀ amo : AmoOp, op = amo.op → Returns (readWord f (wordAddress s p)) →
    ∀ i, 20 ≤ i ∧ i < 20 + 5 → FetchSpares s p i ∧
      (Flagged f (wordAddress s p) .load p i → (deref s p).getLsbD i = true)
  destination : ∀ (amo : AmoOp) old u, op = amo.op → amo ≠ .swap →
    readWord f (wordAddress s p) = .ok (old,u) →
    Returns (writeWord u (wordAddress s p) (amo.eval old (wordOperand s p))) →
    StoreSpares s f p (amo.eval old (wordOperand s p))
  conditional : op = .sc → s.loadReservation = wordAddress s p →
    Returns (writeWord f (wordAddress s p) (wordOperand s p)) →
    StoreSpares s f p (wordOperand s p)

/-- No bit that the step makes use of is changed before it is used. -/
def SparesWord [Platform] (s f : State) (p : WordPtr) : Prop :=
  match decode (deref s p) with
  | none => ∀ word, (∀ i, i < 32 → (word.getLsbD i = true ↔
      (deref s p).getLsbD i = true ∨ Flagged s s.pc .fetch p i)) → decode word = none
  | some op =>
    (∀ i, op.entry.mask.getLsbD i = true → FetchSpares s p i) ∧
    (∀ field ∈ op.fields, field ∉ op.deferred s (deref s p) → ∀ i, field.Covers i →
      FetchSpares s p i) ∧
    AccessSpares s f p op

theorem FetchesWord.translated {s f : State} {p : WordPtr} (fetched : FetchesWord s f p) :
    ∃ t, translateAddress s s.pc .fetch = .ok t ∧ f = { t.state with pc := s.pc + 4 } := by
  obtain ⟨l,looked,ok,rfl,_⟩ := fetched
  have quiet : ¬PageFaults s s.pc .fetch := by
    intro faults
    rw [getMemoryTarget_fault faults] at looked
    rw [← Except.ok.inj looked] at ok
    contradiction
  obtain ⟨t,_,translated,_,state,_⟩ := getMemoryTarget_ok looked quiet
  have pc : t.state.pc = s.pc := by rw [translateAddress_ramOnly translated]
  exact ⟨t, translated, by rw [state,pc]⟩

section Fetch

variable {s f : State} {p : WordPtr}

theorem FetchesWord.frame (fetched : FetchesWord s f p) :
    f = { s with pc := s.pc + 4, ram := f.ram } := by
  obtain ⟨t,translated,rfl⟩ := fetched.translated
  rw [translateAddress_ramOnly translated]

theorem FetchesWord.bit (fetched : FetchesWord s f p) (i : Nat) (bound : i < 32) :
    (deref f p).getLsbD i = true ↔
      (deref s p).getLsbD i = true ∨ Flagged s s.pc .fetch p i := by
  obtain ⟨t,translated,rfl⟩ := fetched.translated
  exact translateAddress_bit translated p i bound

/-- A bit that can only be set is kept if and only if it was set already. -/
theorem FetchesWord.bit_eq_iff (fetched : FetchesWord s f p) (i : Nat) (bound : i < 32) :
    (deref f p).getLsbD i = (deref s p).getLsbD i ↔ FetchSpares s p i := by
  rw [Bool.eq_iff_iff,fetched.bit i bound,or_iff_left_iff_imp]
  rfl

theorem FetchesWord.bit_kept (fetched : FetchesWord s f p) (i : Nat) (bound : i < 32)
    (other : i % 8 ≠ 6) : (deref f p).getLsbD i = (deref s p).getLsbD i :=
  (fetched.bit_eq_iff i bound).mpr fun flagged => absurd (flagged.six (by decide)) other

/-- No accessed flag reaches the fields of `rd` and `rs1`. -/
theorem FetchesWord.register (fetched : FetchesWord s f p) (field : RegisterField)
    (other : field ≠ .rs2) : field.of (deref f p) = field.of (deref s p) := by
  refine (InstructionField.same_iff (.register field) _ _).mpr ?_
  rintro i ⟨low,high⟩
  cases field
  case rs2 => contradiction
  all_goals
    simp only [RegisterField.lo] at low high
    exact fetched.bit_kept i (by omega) (by omega)

end Fetch

/-- A branch and `sc` decide by their source registers which fields to extract. -/
theorem Op.deferred_congr {s t : State} {a b : Word} {op : Op} (registers : t.x = s.x)
    (reservation : t.loadReservation = s.loadReservation)
    (same : ∀ field ∈ op.fields, field ∉ op.deferred s a → field.Same b a) :
    op.deferred t b = op.deferred s a := by
  cases op <;> try rfl
  case sc =>
    have rs1 : getRs1 b = getRs1 a := by
      refine same (.register .rs1) (by simp [Op.fields]) ?_
      rw [Op.deferred]
      split <;> simp
    simp only [Op.deferred,registers,reservation,rs1]
  all_goals
    have source (field : RegisterField) (member : field ≠ .rd) : field.of b = field.of a := by
      refine same (.register field) (by cases field <;> simp [Op.fields] at member ⊢) ?_
      simp only [Op.deferred,Op.transfer]
      split <;> simp
    have rs1 : getRs1 b = getRs1 a := source .rs1 (by decide)
    have rs2 : getRs2 b = getRs2 a := source .rs2 (by decide)
    simp only [Op.deferred,Op.transfer,registers,rs1,rs2]

section Handler

variable [Platform] {s f : State} {p : WordPtr} {op : Op}

omit [Platform] in
theorem InstructionField.Covers.small {field : InstructionField} (covers : field.Covers i) :
    i < 32 := by
  cases field with
  | register field =>
    have low : field.lo ≤ 20 := by cases field <;> decide
    have high : i < field.lo + 5 := covers.2
    omega
  | _ =>
    simp only [InstructionField.Covers] at covers
    omega

omit [Platform] in
theorem FetchesWord.opcode_iff (fetched : FetchesWord s f p) (decoded : decode (deref s p) = some op) :
    decode (deref f p) = some op ↔ ∀ i, op.entry.mask.getLsbD i = true → FetchSpares s p i := by
  rw [decode_same_iff decoded]
  refine forall_congr' fun i => imp_congr_right fun tested => ?_
  exact fetched.bit_eq_iff i (BitVec.lt_of_getLsbD tested)

omit [Platform] in
theorem FetchesWord.same_iff (fetched : FetchesWord s f p) (field : InstructionField) :
    field.Same (deref f p) (deref s p) ↔ ∀ i, field.Covers i → FetchSpares s p i := by
  rw [field.same_iff]
  exact forall_congr' fun i => imp_congr_right fun covers => fetched.bit_eq_iff i covers.small

omit [Platform] in
theorem FetchesWord.rs1Value (fetched : FetchesWord s f p) : getRs1Value f p = wordAddress s p := by
  have rs1 : getRs1 (deref f p) = getRs1 (deref s p) := fetched.register .rs1 (by decide)
  rw [getRs1Value,getReg,rs1,fetched.frame]
  rfl

omit [Platform] in
/-- A load adds its accessed flag to that of the fetch. -/
theorem FetchesWord.loaded_iff (fetched : FetchesWord s f p)
    (ran : readCommon f address sizeLog2 = .ok (value,u)) (i : Nat) (bound : i < 32) :
    (deref u p).getLsbD i = (deref s p).getLsbD i ↔ FetchSpares s p i ∧
      (Flagged f address .load p i → (deref s p).getLsbD i = true) := by
  rw [Bool.eq_iff_iff,readCommon_bit ran p i bound,fetched.bit i bound,FetchSpares]
  tauto

omit [Platform] in
theorem FetchesWord.loaded_rd (fetched : FetchesWord s f p)
    (ran : readCommon f address sizeLog2 = .ok (value,u)) :
    getRd (deref u p) = getRd (deref s p) := by
  refine (InstructionField.same_iff (.register .rd) _ _).mpr ?_
  rintro i ⟨low,high⟩
  simp only [RegisterField.lo] at low high
  refine (fetched.loaded_iff ran i (by omega)).mpr ⟨?_,?_⟩
  · exact fun flagged => absurd (flagged.six (by decide)) (by omega)
  · exact fun flagged => absurd (flagged.six (by decide)) (by omega)

omit [Platform] in
theorem storeSpares_iff {v : State} (bits : ∀ i, i < 32 →
    ((deref v p).getLsbD i = true ↔ StoredBit f (wordAddress s p) value p i)) :
    StoreSpares s f p value ↔ getRd (deref v p) = getRd (deref s p) := by
  refine Iff.trans ?_ (InstructionField.same_iff (.register .rd) _ _).symm
  refine forall_congr' fun i => imp_congr_right fun covers => ?_
  rw [← bits i (by omega)]
  exact Bool.eq_iff_iff.symm

omit [Platform] in
/-- The operand of a store, when the field of `rs2` is that of the word. -/
theorem FetchesWord.rs2Value (fetched : FetchesWord s f p) {u : State} (x : u.x = f.x)
    (rs2 : getRs2 (deref u p) = getRs2 (deref s p)) : getRs2Value u p = wordOperand s p := by
  rw [getRs2Value,getReg,rs2,x,fetched.frame]
  rfl

omit [Platform] in
theorem FetchesWord.loaded_rs2 (fetched : FetchesWord s f p)
    (ran : readCommon f address sizeLog2 = .ok (value,u))
    (kept : ∀ i, 20 ≤ i ∧ i < 20 + 5 → FetchSpares s p i ∧
      (Flagged f address .load p i → (deref s p).getLsbD i = true)) :
    getRs2 (deref u p) = getRs2 (deref s p) := by
  refine (InstructionField.same_iff (.register .rs2) _ _).mpr ?_
  rintro i ⟨low,high⟩
  simp only [RegisterField.lo] at low high
  exact (fetched.loaded_iff ran i (by omega)).mpr (kept i ⟨low,high⟩)

theorem FetchesWord.spares_of_later (fetched : FetchesWord s f p)
    (operand : op = .sc → getRs2 (deref f p) = getRs2 (deref s p))
    (later : ∀ field u, Rereads f p op field u → field.of (deref u p) = field.of (deref s p)) :
    AccessSpares s f p op := by
  have address := fetched.rs1Value
  have reservation : f.loadReservation = s.loadReservation := by rw [fetched.frame]
  constructor
  case operand =>
    rintro amo rfl ⟨⟨old,u⟩,ran⟩ i covers
    have rs2 : getRs2 (deref u p) = getRs2 (deref s p) := by
      rw [← address] at ran
      by_cases swap : amo = .swap
      · subst swap
        have late := later .rs2 _ (.swapOperand ran)
        rwa [setRdValue_eq] at late
      · exact later .rs2 u (.operand swap ran)
    have bit := (InstructionField.same_iff (.register .rs2) _ _).mp rs2 i covers
    exact (fetched.loaded_iff ran i (by omega)).mp bit
  case destination =>
    rintro amo old u rfl arithmetic ran ⟨v,wrote⟩
    have bits := updateWord_bit ran wrote p
    rw [← address] at ran wrote
    have rs2 : getRs2 (deref u p) = getRs2 (deref s p) :=
      later .rs2 u (.operand arithmetic ran)
    rw [← fetched.rs2Value (readCommon_x ran) rs2] at wrote
    exact (storeSpares_iff bits).mpr (later .rd v (.stored arithmetic ran wrote))
  case conditional =>
    rintro rfl reserved ⟨v,wrote⟩
    have bits := writeWord_bit wrote p
    rw [← reservation,← address] at reserved
    rw [← address,← fetched.rs2Value rfl (operand rfl)] at wrote
    exact (storeSpares_iff bits).mpr (later .rd v (.conditional reserved wrote))

theorem FetchesWord.later_of_spares (fetched : FetchesWord s f p)
    (operand : op = .sc → getRs2 (deref f p) = getRs2 (deref s p)) (spares : AccessSpares s f p op)
    (reads : Rereads f p op field u) : field.of (deref u p) = field.of (deref s p) := by
  have address := fetched.rs1Value
  have reservation : f.loadReservation = s.loadReservation := by rw [fetched.frame]
  cases reads with
  | loaded reader accesses ran free =>
    obtain ⟨_,_,common⟩ := Op.loadReader_common reader ran
    exact fetched.loaded_rd common
  | @operand amo _ _ arithmetic ran =>
    rw [address] at ran
    exact fetched.loaded_rs2 ran (spares.operand amo rfl ⟨_,ran⟩)
  | @stored amo old u _ arithmetic ran wrote =>
    rw [address] at ran wrote
    have rs2 : getRs2 (deref u p) = getRs2 (deref s p) :=
      fetched.loaded_rs2 ran (spares.operand amo rfl ⟨_,ran⟩)
    rw [fetched.rs2Value (readCommon_x ran) rs2] at wrote
    exact (storeSpares_iff (updateWord_bit ran wrote p)).mp
      (spares.destination amo old u rfl arithmetic ran ⟨_,wrote⟩)
  | swapped ran => exact fetched.loaded_rd ran
  | @swapOperand _ u ran =>
    rw [address] at ran
    have kept : getRs2 (deref u p) = getRs2 (deref s p) :=
      fetched.loaded_rs2 ran (spares.operand .swap rfl ⟨_,ran⟩)
    rwa [setRdValue_eq]
  | conditional reserved wrote =>
    rw [reservation,address] at reserved
    rw [address,fetched.rs2Value rfl (operand rfl)] at wrote
    exact (storeSpares_iff (writeWord_bit wrote p)).mp (spares.conditional rfl reserved ⟨_,wrote⟩)
  | csrrs =>
    rw [setRdValue_eq]
    exact fetched.register .rs1 (by decide)
  | csrrc =>
    rw [readCsrToRd_eq]
    exact fetched.register .rs1 (by decide)

/-- The fields that the handler extracts again are kept if and only if the accesses spare them. -/
theorem FetchesWord.later_iff (fetched : FetchesWord s f p)
    (operand : op = .sc → getRs2 (deref f p) = getRs2 (deref s p)) :
    (∀ field u, Rereads f p op field u → field.of (deref u p) = field.of (deref s p)) ↔
      AccessSpares s f p op :=
  ⟨fetched.spares_of_later operand, fun spares _ _ => fetched.later_of_spares operand spares⟩

theorem FetchesWord.executed (fetched : FetchesWord s f p) (stepped : emulateOp s = .ok t) :
    ∃ op u, decode (deref f p) = some op ∧ execute op f p = .ok u ∧ t.x = u.x := by
  cases decoded : decode (deref f p) with
  | none =>
    rw [emulateOp_undecoded fetched decoded] at stepped
    contradiction
  | some op =>
    have fetches : Fetches s f p op := ⟨fetched,decoded⟩
    rw [emulateOp_fetched fetches] at stepped
    obtain ⟨u,ran,rest⟩ := bind_eq_ok.mp stepped
    obtain rfl := Except.ok.inj rest
    exact ⟨op, u, rfl, ran, (finishOp_frame u).1⟩

/-- When every extraction of `rd` is that of the word, no other register is written. -/
theorem FetchesWord.onlyRd (fetched : FetchesWord s f p)
    (opcode : decode (deref f p) = decode (deref s p))
    (later : ∀ op field u, decode (deref s p) = some op → Rereads f p op field u →
      field.of (deref u p) = field.of (deref s p))
    (stepped : emulateOp s = .ok t) (index : RegisterIndex) (other : index ≠ getRd (deref s p)) :
    t.x index = s.x index := by
  obtain ⟨op,u,decoded,ran,x⟩ := fetched.executed stepped
  have registers : f.x = s.x := by rw [fetched.frame]
  have unwritten (value : Word) : writeX f.x (getRd (deref s p)) value index = s.x index := by
    rw [writeX,← registers]
    split
    next => rfl
    next => exact Function.update_of_ne other ..
  rw [x]
  cases execute_registers ran with
  | kept same => rw [same,registers]
  | early value same =>
    have rd : getRd (deref f p) = getRd (deref s p) := fetched.register .rd (by decide)
    rw [same,rd,unwritten]
  | @late u reads value same =>
    have rd : getRd (deref u p) = getRd (deref s p) := later op .rd u (opcode ▸ decoded) reads
    rw [same,rd,unwritten]

end Handler

theorem InstructionField.Same.symm {field : InstructionField} (same : field.Same a b) :
    field.Same b a := by
  cases field <;> exact Eq.symm same

/-- A step executes the word that it fetched if and only if its own accesses spare the bits of the
word that it uses. -/
theorem executesWord_iff [Platform] {s f : State} {p : WordPtr} (fetched : FetchesWord s f p) :
    ExecutesWord s f p ↔ SparesWord s f p := by
  have registers : f.x = s.x := by rw [fetched.frame]
  have reservation : f.loadReservation = s.loadReservation := by rw [fetched.frame]
  have second {op : Op} (same : ∀ field ∈ op.fields, field ∉ op.deferred s (deref s p) →
      field.Same (deref f p) (deref s p)) (conditional : op = .sc) :
      getRs2 (deref f p) = getRs2 (deref s p) := by
    subst conditional
    refine same (.register .rs2) (by simp [Op.fields]) ?_
    rw [Op.deferred]
    split <;> simp
  unfold SparesWord
  constructor
  · intro executes
    split
    next undecoded =>
      intro word bits
      have same : word = deref f p := by
        apply BitVec.eq_of_getLsbD_eq
        intro i bound
        rw [Bool.eq_iff_iff,bits i bound,fetched.bit i bound]
      rw [same,executes.opcode,undecoded]
    next op decoded =>
      have entry := executes.entry op decoded
      have deferred : op.deferred s (deref s p) = op.deferred f (deref f p) :=
        Op.deferred_congr registers.symm reservation.symm
          fun field member early => (entry field member early).symm
      rw [← deferred] at entry
      refine ⟨?_,?_,?_⟩
      · exact (fetched.opcode_iff decoded).mp (executes.opcode.trans decoded)
      · exact fun field member early => (fetched.same_iff field).mp (entry field member early)
      · exact (fetched.later_iff (second entry)).mp fun field u => executes.later op field u decoded
  · intro spares
    have opcode : decode (deref f p) = decode (deref s p) := by
      split at spares
      next undecoded => rw [undecoded,spares (deref f p) fun i bound => fetched.bit i bound]
      next op decoded => rw [decoded,(fetched.opcode_iff decoded).mpr spares.1]
    have entry (op : Op) (decoded : decode (deref s p) = some op) (field : InstructionField)
        (member : field ∈ op.fields) (early : field ∉ op.deferred s (deref s p)) :
        field.Same (deref f p) (deref s p) := by
      rw [decoded] at spares
      exact (fetched.same_iff field).mpr (spares.2.1 field member early)
    have later (op : Op) (field : RegisterField) (u : State) (decoded : decode (deref s p) = some op)
        (reads : Rereads f p op field u) : field.of (deref u p) = field.of (deref s p) := by
      have operand := second (entry op decoded)
      rw [decoded] at spares
      exact (fetched.later_iff operand).mpr spares.2.2 field u reads
    refine ⟨opcode,?_,later,?_⟩
    · intro op decoded field member early
      rw [Op.deferred_congr registers reservation (entry op decoded)] at early
      exact entry op decoded field member early
    · exact fun t stepped => fetched.onlyRd opcode later stepped

/-- An instruction at the start of RAM in M mode, with its own address in `x6`. -/
def selfMachine (word : Word) : State :=
  { guest privM [word] with
    pc := 0x80000000
    x := fun index => if index = 6 then 0x80000000 else 0x80 }

def selfFetched (word : Word) : State := { selfMachine word with pc := 0x80000004 }

theorem selfMachine_fetches (word : Word) :
    FetchesWord (selfMachine word) (selfFetched word) ⟨0,0⟩ := by
  have located : wordLocation (guest privM []).memoryMap 0x80000000 = some ⟨0,0⟩ := by decide
  exact looked_direct (fun walks => walks.1 rfl) located

/-- `sw x6, 0(x6)` replaces itself, but nothing is extracted after the store. -/
theorem executesWord_selfStore : @ExecutesWord clearingPlatform (selfMachine 0x00632023)
    (selfFetched 0x00632023) ⟨0,0⟩ := by
  let _ : Platform := clearingPlatform
  have direct : ¬Walks (selfMachine 0x00632023) := fun walks => walks.1 rfl
  have decoded : decode (deref (selfMachine 0x00632023) ⟨0,0⟩) = some .sw := by decide
  have spared (i : Nat) : FetchSpares (selfMachine 0x00632023) ⟨0,0⟩ i := by
    rintro ⟨q,_,leaf,_⟩
    rw [leafLocation,if_neg direct] at leaf
    contradiction
  refine (executesWord_iff (selfMachine_fetches _)).mpr ?_
  rw [SparesWord,decoded]
  refine ⟨fun i _ => spared i, fun _ _ _ i _ => spared i, ?_, ?_, ?_⟩
  · intro amo same
    cases amo <;> contradiction
  · intro amo _ _ same
    cases amo <;> contradiction
  · intro same
    contradiction

/-- `amoadd.w x5, x7, (x6)` adds 0x80 to itself, which makes `x6` of its `rd`. -/
theorem selfAdd_rd : FetchesWord (selfMachine 0x007322af) (selfFetched 0x007322af) ⟨0,0⟩ ∧
    ¬@ExecutesWord clearingPlatform (selfMachine 0x007322af) (selfFetched 0x007322af) ⟨0,0⟩ := by
  let _ : Platform := clearingPlatform
  refine ⟨selfMachine_fetches _, ?_⟩
  intro executes
  have result : (emulateOp (selfMachine 0x007322af)).toOption.map (fun t => t.x 6) =
      some 0x007322af := by decide +kernel
  cases stepped : emulateOp (selfMachine 0x007322af) with
  | error stop =>
    rw [stepped] at result
    contradiction
  | ok t =>
    rw [stepped] at result
    have kept := executes.onlyRd t stepped 6 (by decide)
    have changed : t.x 6 = 0x007322af := Option.some.inj result
    rw [changed] at kept
    contradiction

end Emuriscv
