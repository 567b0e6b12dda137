import Emuriscv.AtomicStep
import Emuriscv.IntegerStep
import Emuriscv.StringDump

/-! Which steps below M mode return. Words that no entry of the decoder accepts, misplaced
returns and `wfi` end the process where the guest should see a trap or nothing at all. -/
namespace Emuriscv

/-- The trace of a user call returns: no monitor session is started, and a path that is dumped is
shown. -/
def TraceServed (s : State) : Prop :=
  s.privilege = privU →
    let nr := s.x (regA 7)
    if nr = 56 ∨ nr = 48 ∨ nr = 291 ∨ nr = 78 then StringShown s (s.x (regA 1))
    else ¬(nr = 422 ∨ nr = 98)

/-- What an atomic stores after a load; `amoswap_w` has written `rd` by then. -/
def AmoOp.stored (amo : AmoOp) (s : State) (instruction : WordPtr) (old : Word) : Word :=
  match amo with
  | .swap => getRs2Value (setRdValue s instruction old) instruction
  | _ => amo.eval old (getRs2Value s instruction)

/-- Both accesses of an atomic are served: the address does not translate, or its range takes a load of
a word, and a device the value that is stored after it. -/
def AmoServed (amo : AmoOp) (s : State) (instruction : WordPtr) : Prop :=
  let address := getRs1Value s instruction
  arrival s address = .fault ∨ ∃ range offset, LeadsTo s address range offset ∧
    range.entry.ServesRead offset sizeWord ∧
    (range.entry.isRam = false → ∀ old t, readWord s address = .ok (old,t) →
      range.entry.ServesWrite s.vm offset (amo.stored t instruction old) sizeWord)

theorem amoServed_iff (amo : AmoOp) (s : State) (instruction : WordPtr) : AmoServed amo s instruction ↔
    ∃ old t, readWord s (getRs1Value s instruction) = .ok (old,t) ∧
      WriteServed t (getRs1Value s instruction) (amo.stored t instruction old) sizeWord := by
  rw [AmoServed]
  generalize getRs1Value s instruction = a
  have read : Returns (readWord s a) ↔ ReadServed s a sizeWord :=
    readCommon_returns_iff s a (Nat.le_refl 2)
  constructor
  · rintro (fault | ⟨range,offset,leads,serves,takes⟩)
    · obtain ⟨⟨old,t⟩,ran⟩ := read.mpr ((readServed_leadsTo_iff _).mpr (Or.inl fault))
      have fault' := ((readWord_sight ran).fault a).mpr fault
      exact ⟨old, t, ran, (writeServed_leadsTo_iff ..).mpr (Or.inl fault')⟩
    · obtain ⟨⟨old,t⟩,ran⟩ := read.mpr ((readServed_leadsTo_iff _).mpr (Or.inr ⟨_,_,leads,serves⟩))
      have vm : t.vm = s.vm := by rw [readWord_traced ran]
      have leads' := ((readWord_sight ran).leadsTo a range offset).mpr leads
      refine ⟨old, t, ran, (writeServed_leadsTo_iff ..).mpr (Or.inr ⟨range,offset,leads',?_⟩)⟩
      rw [vm]
      cases ram : range.entry.isRam with
      | false => exact takes ram old t ran
      | true =>
        rw [MemoryRange.ServesRead,if_pos ram] at serves
        rwa [MemoryRange.ServesWrite,if_pos ram]
  · rintro ⟨old,t,ran,served⟩
    rcases (readServed_leadsTo_iff _).mp (read.mp ⟨_,ran⟩) with fault | ⟨range,offset,leads,serves⟩
    · exact Or.inl fault
    · refine Or.inr ⟨range, offset, leads, serves, fun device old' t' ran' => ?_⟩
      obtain ⟨rfl,rfl⟩ := Prod.mk.inj (Except.ok.inj (ran'.symm.trans ran))
      have vm : t'.vm = s.vm := by rw [readWord_traced ran]
      have same := readWord_sight ran
      rcases (writeServed_leadsTo_iff ..).mp served with fault | ⟨range',offset',leads',takes⟩
      · obtain ⟨p,⟨flagged,arrived⟩,_⟩ := leads
        rw [(same.fault a).mp fault] at arrived
        contradiction
      · obtain ⟨rfl,rfl⟩ := leads.unique ((same.leadsTo a _ _).mp leads')
        rwa [vm] at takes

/-- The condition under which a handler returns, on the state it is called in. -/
def Runs (s : State) (instruction : WordPtr) : Op → Prop
  | .mret => s.privilege = privM
  | .sret => s.privilege = sretPrivilege s
  | .wfi => False
  | .ecall => TraceServed s
  | .slli | .srli | .srai => (instructionIShiftShamt (deref s instruction)).toNat < 32
  | .lb | .lbu => ReadServed s (DataAccess.load.address s instruction) sizeByte
  | .lh | .lhu => ReadServed s (DataAccess.load.address s instruction) sizeHalf
  | .lw => ReadServed s (DataAccess.load.address s instruction) sizeWord
  | .lr => ReadServed s (getRs1Value s instruction) sizeWord
  | .sb => WriteServed s (DataAccess.store.address s instruction)
      (((getRs2Value s instruction).setWidth 8).setWidth 32) sizeByte
  | .sh => WriteServed s (DataAccess.store.address s instruction)
      (((getRs2Value s instruction).setWidth 16).setWidth 32) sizeHalf
  | .sw => WriteServed s (DataAccess.store.address s instruction) (getRs2Value s instruction) sizeWord
  | .sc => s.loadReservation = getRs1Value s instruction →
      WriteServed s (getRs1Value s instruction) (getRs2Value s instruction) sizeWord
  | .amoaddW => AmoServed .add s instruction
  | .amoandW => AmoServed .and s instruction
  | .amoorW => AmoServed .or s instruction
  | .amoxorW => AmoServed .xor s instruction
  | .amoswapW => AmoServed .swap s instruction
  | _ => True

theorem ecall_returns_iff (s : State) : Returns (ecall s) ↔ TraceServed s := by
  have traced : Returns (ecall s) ↔ Returns (traceEcall s) :=
    returns_bind_ok fun _ => returns_ok _
  rw [traced,traceEcall,TraceServed]
  by_cases user : s.privilege = privU
  · rw [if_pos user]
    simp only [user,true_implies]
    split
    next => exact dumpStringVirtual_returns_iff s _
    next =>
      split
      next monitor => exact iff_of_false (not_returns_error _) (not_not.mpr monitor)
      next quiet => exact iff_of_true (returns_ok s) quiet
  · rw [if_neg user]
    exact iff_of_true (returns_ok s) fun mode => absurd mode user

theorem immediateShift_returns_iff (op : Word → Nat → Word) (s : State) (instruction : WordPtr) :
    Returns (Handler.immediateShift op s instruction) ↔
      (instructionIShiftShamt (deref s instruction)).toNat < 32 := by
  unfold Handler.immediateShift
  dsimp only
  split
  next inside => exact iff_of_true (returns_ok _) inside
  next outside => exact iff_of_false (not_returns_error _) outside

/-- The guard of a load does not stop it. -/
theorem loadOp_returns_iff (read : State → Word → Except Stop (Word × State)) (s : State)
    (instruction : WordPtr) :
    Returns (Handler.loadOp read s instruction) ↔
      Returns (read s (DataAccess.load.address s instruction)) := by
  apply returns_bind_ok
  rintro ⟨value,t⟩
  dsimp only
  split <;> exact returns_ok _

section Handlers

variable [Platform]

theorem amoOpW_returns_iff (amo : AmoOp) (arithmetic : amo ≠ .swap) (s : State)
    (instruction : WordPtr) :
    Returns (Handler.amoOpW amo.eval s instruction) ↔ AmoServed amo s instruction := by
  have value (old : Word) (t : State) :
      amo.stored t instruction old = amo.eval old (getRs2Value t instruction) := by
    cases amo <;> first | contradiction | rfl
  have stored (old : Word) (t : State) :
      Returns (writeWord t (getRs1Value s instruction) (amo.eval old (getRs2Value t instruction))
        >>= fun u => pure (setRdValue u instruction old)) ↔
      WriteServed t (getRs1Value s instruction) (amo.stored t instruction old) sizeWord := by
    rw [value]
    exact (returns_bind_ok fun _ => returns_ok _).trans (writeCommon_returns_iff _ _ _ (Nat.le_refl 2))
  rw [amoServed_iff,Handler.amoOpW,returns_bind,Prod.exists]
  exact exists_congr fun old => exists_congr fun t => and_congr_right fun _ => stored old t

omit [Platform] in
theorem writeServed_setRdValue (s : State) (instruction : WordPtr) (value : Word) :
    WriteServed (setRdValue s instruction value) a stored sizeLog2 ↔ WriteServed s a stored sizeLog2 := by
  rw [writeServed_leadsTo_iff,writeServed_leadsTo_iff,setRdValue_eq]
  rfl

theorem amoswapW_returns_iff (s : State) (instruction : WordPtr) :
    Returns (Handler.amoswapW s instruction) ↔ AmoServed .swap s instruction := by
  rw [amoServed_iff,Handler.amoswapW,returns_bind,Prod.exists]
  refine exists_congr fun old => exists_congr fun t => and_congr_right fun _ => ?_
  rw [← writeServed_setRdValue t instruction old]
  exact writeCommon_returns_iff _ _ _ (Nat.le_refl 2)

theorem sc_returns_iff (s : State) (instruction : WordPtr) :
    Returns (Handler.sc s instruction) ↔ Runs s instruction .sc := by
  unfold Handler.sc
  dsimp only
  by_cases reserved : s.loadReservation = getRs1Value s instruction
  · rw [if_pos reserved]
    refine (returns_bind_ok fun _ => returns_ok _).trans ?_
    rw [writeWord,writeCommon_returns_iff _ _ _ (show sizeWord ≤ 2 from Nat.le_refl 2)]
    exact ⟨fun served _ => served, fun served => served reserved⟩
  · rw [if_neg reserved]
    exact iff_of_true (returns_ok _) fun same => absurd same reserved

theorem execute_returns_iff (op : Op) (s : State) (instruction : WordPtr) :
    Returns (execute op s instruction) ↔ Runs s instruction op := by
  have read {sizeLog2 : Nat} (size : sizeLog2 ≤ 2) (address : Word) :=
    readCommon_returns_iff s address size
  have write {sizeLog2 : Nat} (size : sizeLog2 ≤ 2) (address value : Word) :=
    writeCommon_returns_iff s address value size
  have signedByte (address : Word) :
      Returns (readByteSigned s address) ↔ Returns (readCommon s address sizeByte) :=
    returns_bind_ok fun _ => returns_ok _
  have signedHalf (address : Word) :
      Returns (readHalfwordSigned s address) ↔ Returns (readCommon s address sizeHalf) :=
    returns_bind_ok fun _ => returns_ok _
  cases op
  case mret =>
    by_cases mode : s.privilege = privM
    · exact iff_of_true ⟨_, if_neg (not_not.mpr mode)⟩ mode
    · have stopped : execute .mret s instruction = .error (.exit exitIllegalMret) := if_pos mode
      rw [stopped]
      exact iff_of_false (not_returns_error _) mode
  case sret =>
    by_cases mode : s.privilege = sretPrivilege s
    · exact iff_of_true ⟨_, if_neg (not_not.mpr mode)⟩ mode
    · have stopped : execute .sret s instruction = .error (.exit exitIllegalSret) := if_pos mode
      rw [stopped]
      exact iff_of_false (not_returns_error _) mode
  case wfi => exact iff_of_false (not_returns_error _) id
  case ecall => exact ecall_returns_iff s
  case slli => exact immediateShift_returns_iff _ s instruction
  case srli => exact immediateShift_returns_iff _ s instruction
  case srai => exact immediateShift_returns_iff _ s instruction
  case lb =>
    exact (loadOp_returns_iff _ s instruction).trans
      ((signedByte _).trans (read (by decide) _))
  case lbu => exact (loadOp_returns_iff _ s instruction).trans (read (by decide) _)
  case lh =>
    exact (loadOp_returns_iff _ s instruction).trans
      ((signedHalf _).trans (read (by decide) _))
  case lhu => exact (loadOp_returns_iff _ s instruction).trans (read (by decide) _)
  case lw => exact (loadOp_returns_iff _ s instruction).trans (read (by decide) _)
  case lr => exact (returns_bind_ok fun _ => returns_ok _).trans (read (by decide) _)
  case sb => exact write (by decide) _ _
  case sh => exact write (by decide) _ _
  case sw => exact write (by decide) _ _
  case sc => exact sc_returns_iff s instruction
  case amoaddW => exact amoOpW_returns_iff .add (by decide) s instruction
  case amoandW => exact amoOpW_returns_iff .and (by decide) s instruction
  case amoorW => exact amoOpW_returns_iff .or (by decide) s instruction
  case amoxorW => exact amoOpW_returns_iff .xor (by decide) s instruction
  case amoswapW => exact amoswapW_returns_iff s instruction
  all_goals exact iff_of_true (returns_ok _) trivial

end Handlers

/-- A word that the hart may not execute below M mode. -/
def Illegal (s : State) (word : Word) : Prop :=
  match decode word with
  | none => True
  | some .mret => True
  | some .sret => s.privilege = privU ∨ getField (readCsr s csrMstatus) mstatusTsr ≠ 0
  | some _ => False

/-- What the guest sees of the step: a trap for an illegal word, and nothing for `wfi`. -/
structure GuestVisible (s f t : State) (word : Word) : Prop where
  illegal : Illegal s word → TrapTaken s t causeIllegalInstruction word
  hint : decode word = some .wfi → Retires f t f.x f.pc

section Step

variable [Platform] {s f : State} {instruction : WordPtr}

/-- A step returns if and only if its word decodes and the handler runs. -/
theorem emulateOp_returns_iff (fetched : FetchesWord s f instruction) :
    Returns (emulateOp s) ↔
      ∃ op, decode (deref f instruction) = some op ∧ Runs f instruction op := by
  cases decoded : decode (deref f instruction) with
  | none =>
    rw [emulateOp_undecoded fetched decoded]
    refine iff_of_false (not_returns_error _) ?_
    rintro ⟨op,impossible,_⟩
    contradiction
  | some op =>
    rw [emulateOp_fetched ⟨fetched,decoded⟩]
    have handled : Returns (execute op f instruction >>= fun t => pure (finishOp t)) ↔
        Runs f instruction op :=
      (returns_bind_ok fun _ => returns_ok _).trans (execute_returns_iff op f instruction)
    rw [handled]
    constructor
    · intro runs
      exact ⟨op,rfl,runs⟩
    · rintro ⟨_,same,runs⟩
      obtain rfl := Option.some.inj same
      exact runs

omit [Platform] in
/-- The only illegal words that run do so in M mode. -/
theorem legal_of_runs {op : Op} (below : s.privilege = privU ∨ s.privilege = privS)
    (decoded : decode word = some op) (runs : Runs s instruction op) : ¬Illegal s word := by
  rw [Illegal,decoded]
  have user : s.privilege = privU → s.privilege ≠ privS ∧ s.privilege ≠ privM := by
    intro mode
    rw [mode]
    decide
  have supervisor : s.privilege = privS → s.privilege ≠ privM := by
    intro mode
    rw [mode]
    decide
  have notMachine : s.privilege ≠ privM := below.elim (fun mode => (user mode).2) supervisor
  cases op
  case mret => exact fun _ => notMachine runs
  case sret =>
    have mode : s.privilege = if getField (readCsr s csrMstatus) mstatusTsr ≠ 0 then privM else privS :=
      runs
    rintro (lowest | trapped)
    · split at mode
      next => exact notMachine mode
      next => exact (user lowest).1 mode
    · rw [if_pos trapped] at mode
      exact notMachine mode
  all_goals exact id

theorem emulateOp_contained (below : s.privilege = privU ∨ s.privilege = privS)
    (fetched : FetchesWord s f instruction) :
    (∃ t, emulateOp s = .ok t ∧ GuestVisible s f t (deref f instruction)) ↔
      ∃ op, decode (deref f instruction) = some op ∧ Runs f instruction op := by
  rw [← emulateOp_returns_iff fetched]
  constructor
  · rintro ⟨t,stepped,_⟩
    exact ⟨t,stepped⟩
  · intro returns
    obtain ⟨op,decoded,runs⟩ := (emulateOp_returns_iff fetched).mp returns
    obtain ⟨t,stepped⟩ := returns
    have mid := Fetches.midStep ⟨fetched,decoded⟩
    have legal : ¬Illegal s (deref f instruction) := by
      have same : Illegal f (deref f instruction) ↔ Illegal s (deref f instruction) := by
        rw [Illegal,Illegal,mid.privilege,mid.readCsr]
      rw [← same]
      rw [← mid.privilege] at below
      exact legal_of_runs below decoded runs
    refine ⟨t, stepped, ?_, ?_⟩
    · exact fun illegal => absurd illegal legal
    · intro wait
      obtain rfl := Option.some.inj (decoded.symm.trans wait)
      exact runs.elim

end Step

/-- A user program of one word, without translation. -/
def userMachine (word : Word) : State :=
  { guest privU [word] with
    pc := 0x80000000
    csr := fun _ => 0 }

def userFetched (word : Word) : State := { userMachine word with pc := 0x80000004 }

theorem userMachine_fetches (word : Word)
    (located : wordLocation (userMachine word).memoryMap (userMachine word).pc = some ⟨0,0⟩) :
    FetchesWord (userMachine word) (userFetched word) ⟨0,0⟩ := by
  have bare : getMemoryMode (userMachine word) = satpModeBare := show (0 : Word) >>> 31 = 0 by decide
  exact looked_direct (fun walks => walks.2 bare) located

/-- `addi x5, x0, 1`. -/
theorem emulateOp_contained_add :
    ∃ t, @emulateOp clearingPlatform (userMachine 0x00100293) = .ok t ∧
      GuestVisible (userMachine 0x00100293) (userFetched 0x00100293) t 0x00100293 := by
  let _ : Platform := clearingPlatform
  have fetched := userMachine_fetches 0x00100293 (by decide)
  have word : deref (userFetched 0x00100293) ⟨0,0⟩ = 0x00100293 := by decide
  have contained := emulateOp_contained (Or.inl rfl) fetched
  rw [word] at contained
  exact contained.mpr ⟨.addi, by decide, trivial⟩

/-- A word of zeros ends the process. -/
theorem zeroWord_exits :
    ¬∃ t, @emulateOp clearingPlatform (userMachine 0) = .ok t ∧
      GuestVisible (userMachine 0) (userFetched 0) t 0 := by
  let _ : Platform := clearingPlatform
  have fetched := userMachine_fetches 0 (by decide)
  rintro ⟨t,stepped,_⟩
  rw [emulateOp_undecoded fetched (by decide)] at stepped
  contradiction

end Emuriscv
