import Emuriscv.PreciseTrap

/-! Physical addresses that no range answers. The lookup reports them with a status of its
own, which the readers and writers do not test and the fetch turns into a trap with
whatever is pending. -/
namespace Emuriscv

def Uncovered (map : MemoryMap) (address : Word) : Prop :=
  ∀ range ∈ map, ¬range.Covers address.toNat

/-- At most devices answer the address. -/
def WithoutRam (map : MemoryMap) (address : Word) : Prop :=
  ∀ range ∈ map, range.Covers address.toNat → range.isRam = false

theorem Uncovered.lookup (uncovered : Uncovered map address) : getPhysMemRange map address = none := by
  cases found : getPhysMemRange map address with
  | none => rfl
  | some range =>
    have member := List.mem_of_getElem? (getPhysMemRange_spec found).1
    exact absurd (getPhysMemRange_covers found) (uncovered range.entry member)

theorem WithoutRam.lookup (bare : WithoutRam map address)
    (found : getPhysMemRange map address = some range) : range.entry.isRam = false :=
  bare range.entry (List.mem_of_getElem? (getPhysMemRange_spec found).1)
    (getPhysMemRange_covers found)

/-- The access, or a page-table read on its way, reaches an address that cannot serve it. -/
def BadAccess (s : State) (virtualAddress : Word) (accessType : AccessType) : Prop :=
  (∃ level address, Walks s ∧ busWalk s virtualAddress = .unmapped level address ∧
    WithoutRam s.memoryMap (BitVec.ofNat 32 address)) ∨
  ∃ t physicalAddress, translateAddress s virtualAddress accessType = .ok t ∧
    t.physicalAddress = some physicalAddress ∧
    if accessType = .fetch then WithoutRam s.memoryMap physicalAddress
    else Uncovered s.memoryMap physicalAddress

/-- The cause that the architecture has for a bad access of an instruction. -/
def DataAccess.accessFaultCause : DataAccess → Word
  | .load | .loadReserved => causeLoadAccess
  | .store | .amo | .storeConditional => causeStoreAccess

/-- The first access of an instruction; the write half of an atomic uses the same address. -/
def DataAccess.firstType : DataAccess → AccessType
  | .load | .amo | .loadReserved => .load
  | .store | .storeConditional => .store

/-- The accesses of a step: state, virtual address, type, and the cause of a failure. -/
inductive StepAccess (s : State) : State → Word → AccessType → Word → Prop
  | fetch : StepAccess s s s.pc .fetch causeFetchAccess
  | data (fetched : Fetches s f instruction op) (accesses : op.dataAccess = some access)
      (made : access = .storeConditional → f.loadReservation = access.address f instruction) :
      StepAccess s f (access.address f instruction) access.firstType access.accessFaultCause

/-- The step traps with the given cause and value, and has used no pointer that is not there. -/
def TakesAccessFault [Platform] (s : State) (virtualAddress cause : Word) : Prop :=
  ∃ s', emulateOp s = .ok s' ∧ s'.traps = ⟨s.pc + 4, cause, virtualAddress⟩ :: s.traps

/-- The stale pending fields happen to describe the failed fetch. -/
def StaleFetchFault (s : State) : Prop :=
  (∃ t physicalAddress, translateAddress s s.pc .fetch = .ok t ∧
    t.physicalAddress = some physicalAddress ∧
    getPhysMemRange s.memoryMap physicalAddress = none) ∧
  s.pendingException = causeFetchAccess ∧ s.pendingTval = s.pc

theorem getMemoryTarget_bad {s : State} (bad : BadAccess s virtualAddress accessType)
    (data : accessType ≠ .fetch) :
    (∃ e, getMemoryTarget s virtualAddress accessType = .error e) ∨
    ∃ t, getMemoryTarget s virtualAddress accessType = .ok ⟨-2, ⟨none,none⟩, t⟩ := by
  rcases bad with ⟨level,address,walks,unmapped,_⟩ | ⟨t,physicalAddress,translated,assigned,outside⟩
  · refine Or.inl ⟨physicalStop s.memoryMap (BitVec.ofNat 32 address), ?_⟩
    rw [getMemoryTarget,translateAddress_walks walks,unmapped]
    rfl
  · rw [if_neg data] at outside
    exact Or.inr ⟨t.state, getMemoryTarget_uncovered translated assigned outside.lookup⟩

theorem readCommon_bad {s : State} (bad : BadAccess s address .load) (sizeLog2 : Nat) :
    ∃ e, readCommon s address sizeLog2 = .error e := by
  unfold readCommon
  rcases getMemoryTarget_bad bad (by decide) with ⟨e,stopped⟩ | ⟨t,looked⟩
  · exact ⟨e, by rw [stopped]; rfl⟩
  · exact ⟨.nullRange, by rw [looked]; rfl⟩

theorem writeCommon_bad [Platform] {s : State} (bad : BadAccess s address .store) (value : Word)
    (sizeLog2 : Nat) : ∃ e, writeCommon s address value sizeLog2 = .error e := by
  unfold writeCommon
  rcases getMemoryTarget_bad bad (by decide) with ⟨e,stopped⟩ | ⟨t,looked⟩
  · exact ⟨e, by rw [stopped]; rfl⟩
  · exact ⟨.nullRange, by rw [looked]; rfl⟩

/-- A bind whose first part stops, stops. -/
theorem bind_stops {α β : Type} {x : Except Stop α} (f : α → Except Stop β)
    (stops : ∃ e, x = .error e) : ∃ e, (x >>= f) = .error e := by
  obtain ⟨e,rfl⟩ := stops
  exact ⟨e,rfl⟩

/-- An instruction whose access is bad never gets as far as a trap. -/
theorem execute_bad [Platform] (accesses : op.dataAccess = some access)
    (made : access = .storeConditional → s.loadReservation = access.address s instruction)
    (bad : BadAccess s (access.address s instruction) access.firstType) :
    ∃ e, execute op s instruction = .error e := by
  cases op <;> simp only [Op.dataAccess,Option.some.injEq,reduceCtorEq] at accesses
  all_goals subst accesses
  case lb => exact bind_stops _ (bind_stops _ (readCommon_bad bad sizeByte))
  case lbu => exact bind_stops _ (readCommon_bad bad sizeByte)
  case lh => exact bind_stops _ (bind_stops _ (readCommon_bad bad sizeHalf))
  case lhu => exact bind_stops _ (readCommon_bad bad sizeHalf)
  case lw => exact bind_stops _ (readCommon_bad bad sizeWord)
  case sb => exact writeCommon_bad bad _ sizeByte
  case sh => exact writeCommon_bad bad _ sizeHalf
  case sw => exact writeCommon_bad bad _ sizeWord
  case amoaddW => exact bind_stops _ (readCommon_bad bad sizeWord)
  case amoorW => exact bind_stops _ (readCommon_bad bad sizeWord)
  case amoandW => exact bind_stops _ (readCommon_bad bad sizeWord)
  case amoxorW => exact bind_stops _ (readCommon_bad bad sizeWord)
  case amoswapW => exact bind_stops _ (readCommon_bad bad sizeWord)
  case lr => exact bind_stops _ (readCommon_bad bad sizeWord)
  case sc =>
    have reserved : s.loadReservation = getRs1Value s instruction := made rfl
    have stops := writeCommon_bad bad (getRs2Value s instruction) sizeWord
    unfold execute Handler.sc
    dsimp only
    rw [if_pos reserved]
    exact bind_stops _ stops

section Step

variable [Platform] {s : State}

theorem emulateOp_stops (stops : ∃ e, emulateOp s = .error e) (virtualAddress cause : Word) :
    ¬TakesAccessFault s virtualAddress cause := by
  rintro ⟨s',stepped,_⟩
  obtain ⟨e,stopped⟩ := stops
  rw [stopped] at stepped
  contradiction

/-- A fetch that no range answers raises what is pending. -/
theorem emulateOp_unmapped (translated : translateAddress s s.pc .fetch = .ok t)
    (assigned : t.physicalAddress = some physicalAddress)
    (outside : getPhysMemRange s.memoryMap physicalAddress = none) :
    ∃ s', emulateOp s = .ok s' ∧
      s'.traps = ⟨s.pc + 4, s.pendingException, s.pendingTval⟩ :: s.traps := by
  have looked := getMemoryTarget_uncovered translated assigned outside
  have only := translateAddress_ramOnly translated
  have pc : t.state.pc = s.pc := by rw [only]
  have traps : t.state.traps = s.traps := by rw [only]
  have exception : t.state.pendingException = s.pendingException := by rw [only]
  have tval : t.state.pendingTval = s.pendingTval := by rw [only]
  have stepped : emulateOp s = .ok (raiseException { t.state with pc := t.state.pc + 4 }
      t.state.pendingException t.state.pendingTval) := by
    rw [emulateOp,looked]
    rfl
  refine ⟨_,stepped,?_⟩
  rw [raiseException_traps,pc,traps,exception,tval]

/-- A fetch from a device range goes through a null pointer. -/
theorem emulateOp_device (translated : translateAddress s s.pc .fetch = .ok t)
    (assigned : t.physicalAddress = some physicalAddress)
    (found : getPhysMemRange s.memoryMap physicalAddress = some range)
    (device : range.entry.isRam = false) : ∃ e, emulateOp s = .error e := by
  have looked := getMemoryTarget_covered translated assigned found
  have base : range.physMemPtr = none := if_neg (by rw [device]; decide)
  rw [base] at looked
  refine ⟨.nullPointer,?_⟩
  rw [emulateOp,looked]
  rfl

theorem data_stops (fetched : Fetches s f instruction op) (accesses : op.dataAccess = some access)
    (made : access = .storeConditional → f.loadReservation = access.address f instruction)
    (bad : BadAccess f (access.address f instruction) access.firstType) :
    ∃ e, emulateOp s = .error e := by
  rw [emulateOp_fetched fetched]
  exact bind_stops _ (execute_bad accesses made bad)

/-- For every access of a step that reaches no memory. -/
theorem takesAccessFault_iff (access : StepAccess s q virtualAddress accessType cause)
    (bad : BadAccess q virtualAddress accessType) :
    TakesAccessFault s virtualAddress cause ↔ accessType = .fetch ∧ StaleFetchFault s := by
  cases access with
  | fetch =>
    rcases bad with ⟨level,address,walks,unmapped,_⟩ | ⟨t,physicalAddress,translated,assigned,outside⟩
    · have failed : translateAddress s s.pc .fetch =
          .error (physicalStop s.memoryMap (BitVec.ofNat 32 address)) := by
        rw [translateAddress_walks walks,unmapped]
        rfl
      have stops : ∃ e, emulateOp s = .error e := bind_stops _ (bind_stops _ ⟨_,failed⟩)
      constructor
      · exact fun takes => absurd takes (emulateOp_stops stops _ _)
      · rintro ⟨_,⟨t,_,translated,_⟩,_⟩
        rw [failed] at translated
        contradiction
    · rw [if_pos rfl] at outside
      cases found : getPhysMemRange s.memoryMap physicalAddress with
      | none =>
        obtain ⟨s',stepped,traps⟩ := emulateOp_unmapped translated assigned found
        constructor
        · rintro ⟨s'',stepped',traps'⟩
          obtain rfl := Except.ok.inj (stepped.symm.trans stepped')
          obtain ⟨_,exception,tval⟩ := Trap.mk.inj (List.cons.inj (traps.symm.trans traps')).1
          exact ⟨rfl, ⟨t,physicalAddress,translated,assigned,found⟩, exception, tval⟩
        · rintro ⟨_,_,exception,tval⟩
          rw [exception,tval] at traps
          exact ⟨s',stepped,traps⟩
      | some range =>
        have stops := emulateOp_device translated assigned found (outside.lookup found)
        constructor
        · exact fun takes => absurd takes (emulateOp_stops stops _ _)
        · rintro ⟨_,⟨t',physicalAddress',translated',assigned',missing⟩,_⟩
          obtain rfl := Except.ok.inj (translated.symm.trans translated')
          obtain rfl := Option.some.inj (assigned.symm.trans assigned')
          rw [found] at missing
          contradiction
  | @data f instruction op access fetched accesses made =>
    have stops := data_stops fetched accesses made bad
    constructor
    · exact fun takes => absurd takes (emulateOp_stops stops _ _)
    · rintro ⟨fetch,_⟩
      cases access <;> contradiction

end Step

/-- `lw x5, 0(x7)` with `x7` in a page that is mapped to physical address 0, below all RAM. -/
def wildLoad : State :=
  { guest privS [superpageEntry,0xcf,0x0003a283] with
    pc := 8
    x := fun index => if index = 7 then 0x400000 else 0 }

/-- The state after its fetch. -/
def wildFetched : State :=
  { markEntry wildLoad 0x80000000 superpageEntry .fetch with
    pc := (markEntry wildLoad 0x80000000 superpageEntry .fetch).pc + 4 }

theorem wildLoad_fetches : Fetches wildLoad wildFetched ⟨0,8⟩ .lw := by
  have paged : Paged wildLoad := ⟨Or.inl rfl, by decide⟩
  have leaf : busWalk wildLoad wildLoad.pc = .leaf 1 0x80000000 superpageEntry := by decide
  exact fetches_of_leaf paged leaf (by decide) (by decide)

theorem wildLoad_access : StepAccess wildLoad wildFetched
    (DataAccess.load.address wildFetched ⟨0,8⟩) .load causeLoadAccess :=
  .data wildLoad_fetches rfl fun other => nomatch other

theorem wildLoad_bad :
    BadAccess wildFetched (DataAccess.load.address wildFetched ⟨0,8⟩) .load := by
  have paged : Paged wildFetched := ⟨by decide, by decide⟩
  have leaf : busWalk wildFetched 0x400000 = .leaf 1 0x80000004 0xcf := by decide
  refine Or.inr ⟨_, _, translateAddress_leaf paged .load leaf, rfl, ?_⟩
  rw [if_neg (by decide)]
  have map : wildFetched.memoryMap = [⟨0x80000000, 0x10000, true, none, none⟩] := by decide
  rw [map]
  intro range member
  obtain rfl := List.mem_singleton.mp member
  rintro ⟨low,_⟩
  revert low
  decide

theorem takesAccessFault_wildLoad :
    @TakesAccessFault clearingPlatform wildLoad 0x400000 causeLoadAccess ↔
      AccessType.load = .fetch ∧ StaleFetchFault wildLoad :=
  letI := clearingPlatform
  takesAccessFault_iff wildLoad_access wildLoad_bad

/-- The load goes through a range descriptor that the lookup did not produce. -/
theorem wildLoad_stops :
    DataAccess.load.address wildFetched ⟨0,8⟩ = 0x400000 ∧
      StepAccess wildLoad wildFetched (DataAccess.load.address wildFetched ⟨0,8⟩) .load
        causeLoadAccess ∧
      BadAccess wildFetched (DataAccess.load.address wildFetched ⟨0,8⟩) .load ∧
      (∃ e, @emulateOp clearingPlatform wildLoad = .error e) ∧
      ¬@TakesAccessFault clearingPlatform wildLoad 0x400000 causeLoadAccess := by
  have stops : ∃ e, @emulateOp clearingPlatform wildLoad = .error e :=
    letI := clearingPlatform
    data_stops wildLoad_fetches rfl (fun other => nomatch other) wildLoad_bad
  exact ⟨by decide, wildLoad_access, wildLoad_bad, stops, @emulateOp_stops clearingPlatform _ stops _ _⟩

end Emuriscv
