import Emuriscv.Step

/-! Precise traps. A step whose data access faults should leave registers, reservation and
memory to the handler as they were. Loads and stores do; the atomics write `rd` or the
reservation without a look at the pending fault. -/
namespace Emuriscv

/-- RAM differs at most in the flags of the entry that maps the address. -/
def OnlyTableFlags (s t : State) (virtualAddress : Word) : Prop :=
  t.ram = s.ram ∨ ∃ level address entry p,
    busWalk s virtualAddress = .leaf level address entry ∧
      wordLocation s.memoryMap (BitVec.ofNat 32 address) = some p ∧ FlagBitsOnly p s t

/-- Nothing that the interrupted instruction depends on has changed. -/
structure Precise (s s' : State) : Prop where
  x : s'.x = s.x
  loadReservation : s'.loadReservation = s.loadReservation
  ram : OnlyTableFlags s s' s.pc

/-- What the handler of an access overwrites when the access faults had that value before. -/
def Unclobbered (s : State) (word : Word) : DataAccess → Prop
  | .load | .store => True
  | .amo => getRd word = 0 ∨ s.x (getRd word) = -1
  | .loadReserved =>
    (getRd word = 0 ∨ s.x (getRd word) = -1) ∧ s.x (getRs1 word) = s.loadReservation
  | .storeConditional => (getRd word = 0 ∨ s.x (getRd word) = 0) ∧ s.loadReservation = -1

/-- A fetch changes RAM in the flags of its own leaf only. -/
theorem Fetches.flags (fetched : Fetches s f instruction op) : OnlyTableFlags s f s.pc := by
  obtain ⟨l,looked,ok,rfl,_⟩ := fetched.looked
  obtain ⟨t,_,translated,_,state,_⟩ := getMemoryTarget_ok looked fetched.noFault
  unfold OnlyTableFlags
  rw [state]
  rcases translateAddress_ok translated with
    ⟨_,rfl⟩ | ⟨_,_,rfl⟩ | ⟨_,_,rfl⟩ | ⟨level,address,entry,_,leaf,rfl⟩
  · exact Or.inl rfl
  · exact Or.inl rfl
  · exact Or.inl rfl
  · obtain ⟨_,_,p,located,held⟩ := busWalk_leaf_located leaf
    refine Or.inr ⟨level, address, entry, p, leaf, located, ?_⟩
    have marked := (onlyEntryFlags_mark s p AccessType.fetch.toSv32).flags
    rw [held] at marked
    rw [markEntry_located located]
    exact ⟨marked.outside,marked.bits⟩

theorem OnlyTableFlags.congr {s t t' : State} (flags : OnlyTableFlags s t virtualAddress)
    (ram : t'.ram = t.ram) : OnlyTableFlags s t' virtualAddress := by
  rcases flags with same | ⟨level,address,entry,p,leaf,located,only⟩
  · exact Or.inl (ram.trans same)
  · refine Or.inr ⟨level, address, entry, p, leaf, located, ?_, ?_⟩
    · intro buffer offset outside
      rw [ram,only.outside buffer offset outside]
    · intro i h6 h7
      rw [deref_congr ram,only.bits i h6 h7]

theorem faultedX_eq_iff (s : State) (instruction : WordPtr) (access : DataAccess) :
    (access.faultedX s instruction = s.x ∧
      access.faultedReservation s instruction = s.loadReservation) ↔
    Unclobbered s (deref s instruction) access := by
  cases access with
  | load => exact ⟨fun _ => trivial, fun _ => ⟨rfl,rfl⟩⟩
  | store => exact ⟨fun _ => trivial, fun _ => ⟨rfl,rfl⟩⟩
  | amo =>
    simp only [DataAccess.faultedX,DataAccess.faultedReservation,Unclobbered,and_true]
    exact writeX_eq_self_iff ..
  | loadReserved =>
    simp only [DataAccess.faultedX,DataAccess.faultedReservation,Unclobbered]
    rw [writeX_eq_self_iff]
    rfl
  | storeConditional =>
    simp only [DataAccess.faultedX,DataAccess.faultedReservation,Unclobbered]
    rw [writeX_eq_self_iff,@eq_comm _ (-1)]

/-- A step whose data access faults takes the trap in the state its handler leaves. -/
theorem faulting_step [Platform] (fetched : Fetches s f instruction op)
    (accesses : op.dataAccess = some access) (faults : DataFaults f instruction access) :
    ∃ s', emulateOp s = .ok s' ∧
      s'.traps = ⟨s.pc + 4, pageFaultCause access.accessType, access.address f instruction⟩ ::
        s.traps ∧
      s'.x = access.faultedX f instruction ∧
      s'.loadReservation = access.faultedReservation f instruction ∧ OnlyTableFlags s s' s.pc := by
  have stepped := emulateOp_executed fetched (execute_fault accesses faults)
  rw [finishOp_pending (show (access.faulted f instruction).hasPendingException = true from rfl)]
    at stepped
  have frame := fetched.frame
  have pc : f.pc = s.pc + 4 := by rw [frame]
  have traps : f.traps = s.traps := by rw [frame]
  obtain ⟨x,ram,reservation⟩ := raiseException_frame
    (dispatched (access.faulted f instruction)) (pageFaultCause access.accessType)
    (access.address f instruction)
  refine ⟨_, stepped, ?_, x, reservation, fetched.flags.congr ram⟩
  rw [← pc,← traps]
  exact raiseException_traps ..

/-- The trap is precise if and only if the values that the handler wrote were there before. -/
theorem precise_iff [Platform] (fetched : Fetches s f instruction op)
    (accesses : op.dataAccess = some access) (faults : DataFaults f instruction access) :
    ∃ s', emulateOp s = .ok s' ∧
      s'.traps = ⟨s.pc + 4, pageFaultCause access.accessType, access.address f instruction⟩ ::
        s.traps ∧
      (Precise s s' ↔ Unclobbered s (deref f instruction) access) := by
  obtain ⟨s',stepped,trapped,x,reservation,flags⟩ := faulting_step fetched accesses faults
  refine ⟨s',stepped,trapped,?_⟩
  have sameX : f.x = s.x := by rw [fetched.frame]
  have sameReservation : f.loadReservation = s.loadReservation := by rw [fetched.frame]
  have same : Unclobbered s (deref f instruction) access ↔
      Unclobbered f (deref f instruction) access := by
    cases access <;> simp only [Unclobbered,sameX,sameReservation]
  rw [same,← faultedX_eq_iff,sameX,sameReservation,← x,← reservation]
  constructor
  · exact fun precise => ⟨precise.x,precise.loadReservation⟩
  · exact fun ⟨keepsX,keepsReservation⟩ => ⟨keepsX,keepsReservation,flags⟩

/-- `amoadd.w x5, x6, (x7)` on a page that has no entry yet. -/
def demandPaged : State :=
  { guest privS [superpageEntry,0,0x0063a2af] with
    pc := 8
    x := fun index => if index = 7 then 0x400000 else 0 }

/-- The state after its fetch. -/
def demandFetched : State :=
  { markEntry demandPaged 0x80000000 superpageEntry .fetch with
    pc := (markEntry demandPaged 0x80000000 superpageEntry .fetch).pc + 4 }

theorem demandPaged_paged : Paged demandPaged := ⟨Or.inl rfl, by decide⟩

theorem demandPaged_leaf :
    busWalk demandPaged demandPaged.pc = .leaf 1 0x80000000 superpageEntry := by decide

theorem demandPaged_fetches : Fetches demandPaged demandFetched ⟨0,8⟩ .amoaddW :=
  fetches_of_leaf demandPaged_paged demandPaged_leaf (by decide) (by decide)

theorem demandPaged_faults : DataFaults demandFetched ⟨0,8⟩ .amo := by
  rw [amoFaults_iff,pageFaults_iff]
  have missing : busWalk demandFetched (getRs1Value demandFetched ⟨0,8⟩) =
      .invalid 1 0x80000004 0 := by decide
  exact ⟨⟨by decide, by decide⟩, _, _, _, missing⟩

theorem precise_demandPaged :
    ∃ s', @emulateOp clearingPlatform demandPaged = .ok s' ∧
      s'.traps = ⟨12, causeStorePageFault, 0x400000⟩ :: [] ∧
      (Precise demandPaged s' ↔ Unclobbered demandPaged 0x0063a2af .amo) :=
  @precise_iff _ _ _ _ _ clearingPlatform demandPaged_fetches rfl demandPaged_faults

/-- The handler that maps the page returns to an instruction that has lost `x5`. -/
theorem demandPaged_clobbered :
    ∃ s', @emulateOp clearingPlatform demandPaged = .ok s' ∧ demandPaged.x 5 = 0 ∧ s'.x 5 = -1 ∧
      ¬Precise demandPaged s' := by
  obtain ⟨s',stepped,_,x,_⟩ :=
    @faulting_step _ _ _ _ _ clearingPlatform demandPaged_fetches rfl demandPaged_faults
  have clobbered : s'.x 5 = -1 := by
    rw [x]
    decide
  refine ⟨s',stepped,rfl,clobbered,?_⟩
  intro precise
  rw [precise.x] at clobbered
  revert clobbered
  decide

end Emuriscv
