import Emuriscv.Footprint

/-! What can be seen of memory through the page tables. A look may set an accessed flag, but the flag
is in the first byte of an entry that is valid: no walk takes another way for it, and no byte
becomes zero or ceases to be. -/
namespace Emuriscv

theorem low_byte_zero_iff (value : Word) : value &&& 0xFF = 0 ↔ value.setWidth 8 = (0 : Byte) := by
  have low : (value &&& 0xFF).toNat = value.toNat % 2 ^ 8 := by
    rw [BitVec.toNat_and]
    exact Nat.and_two_pow_sub_one_eq_mod value.toNat 8
  rw [← BitVec.toNat_inj,← BitVec.toNat_inj,low,BitVec.toNat_setWidth]
  rfl

theorem dataTerminated_iff (data : Word) : dataTerminated data = true ↔ ∃ k < 4, byteOf data k = 0 := by
  have shift : data >>> (8 * 0) = data := rfl
  simp only [dataTerminated,low_byte_zero_iff,decide_eq_true_iff,byteOf]
  constructor
  · rintro (zero | zero | zero | zero)
    · exact ⟨3, by decide, zero⟩
    · exact ⟨2, by decide, zero⟩
    · exact ⟨1, by decide, zero⟩
    · exact ⟨0, by decide, by rwa [shift]⟩
  · rintro ⟨k,bound,zero⟩
    interval_cases k
    · exact Or.inr (Or.inr (Or.inr zero))
    · exact Or.inr (Or.inr (Or.inl zero))
    · exact Or.inr (Or.inl zero)
    · exact Or.inl zero

theorem byteOf_mark (entry : Word) (access : Sv32.Access) (later : k ≠ 0) :
    byteOf (Sv32.Pte.mark entry access) k = byteOf entry k := by
  apply BitVec.eq_of_getLsbD_eq
  intro i bound
  simp only [byteOf,BitVec.getLsbD_setWidth,BitVec.getLsbD_ushiftRight]
  rw [Sv32.mark_frame entry access _ (by omega) (by omega)]

theorem byteOf_valid {entry : Word} (valid : Sv32.Pte.valid entry = true) : byteOf entry 0 ≠ 0 := by
  intro zero
  have bit : (byteOf entry 0).getLsbD 0 = Sv32.Pte.valid entry := by
    simp [byteOf,Sv32.Pte.valid]
  rw [zero,valid] at bit
  contradiction

/-- The word that is read at a virtual address, if one can be read. -/
def shownWord (s : State) (a : Word) : Option Word :=
  match arrival s a with
  | .reached p _ => wordThere s p
  | _ => none

/-- The arrival with the flag set. -/
def Arrival.settled : Arrival → Arrival
  | .reached physicalAddress _ => .reached physicalAddress true
  | arrival => arrival

theorem Arrival.settled_fault (arrival : Arrival) : arrival.settled = .fault ↔ arrival = .fault := by
  cases arrival <;> simp [settled]

theorem shownWord_settled (s : State) (a : Word) : shownWord s a =
    match (arrival s a).settled with
    | .reached p _ => wordThere s p
    | _ => none := by
  unfold shownWord
  cases arrival s a <;> rfl

theorem arrival_settled {s : State} (walks : Walks s) (a : Word) : (arrival s a).settled =
    match (busWalk s a).map (Sv32.Pte.mark · .read) with
    | .invalid _ _ _ => .fault
    | .leaf level _ entry => .reached (leafPhysical level entry a) true
    | _ => .lost := by
  rw [arrival,if_pos walks]
  cases busWalk s a <;> simp [Sv32.Outcome.map,Arrival.settled,leafPhysical_mark]

/-- Every address arrives where it did, and the same show words with or without a zero byte. -/
structure SameSight (s t : State) : Prop where
  map : t.memoryMap = s.memoryMap
  arrived : ∀ a, (arrival t a).settled = (arrival s a).settled
  shown : ∀ a, (shownWord t a).map dataTerminated = (shownWord s a).map dataTerminated

/-- An address leads to an offset in a range. -/
def LeadsTo (s : State) (a : Word) (range : RangePtr) (offset : Word) : Prop :=
  ∃ p, (∃ flagged, arrival s a = .reached p flagged) ∧ getPhysMemRange s.memoryMap p = some range ∧
    offset = p - range.entry.address

theorem Arrival.settled_reached (arrival : Arrival) (p : Word) :
    arrival.settled = .reached p true ↔ ∃ flagged, arrival = .reached p flagged := by
  cases arrival <;> simp [settled]

theorem LeadsTo.unique {s : State} (first : LeadsTo s a range offset) (second : LeadsTo s a range' offset') :
    range = range' ∧ offset = offset' := by
  obtain ⟨p,⟨_,arrived⟩,found,rfl⟩ := first
  obtain ⟨p',⟨_,arrived'⟩,found',rfl⟩ := second
  obtain ⟨rfl,_⟩ := Arrival.reached.inj (arrived.symm.trans arrived')
  obtain rfl := Option.some.inj (found.symm.trans found')
  exact ⟨rfl,rfl⟩

section SameSight

variable {s t u : State}

theorem SameSight.refl (s : State) : SameSight s s := ⟨rfl, fun _ => rfl, fun _ => rfl⟩

theorem SameSight.trans (first : SameSight s t) (second : SameSight t u) : SameSight s u :=
  ⟨second.map.trans first.map, fun a => (second.arrived a).trans (first.arrived a),
    fun a => (second.shown a).trans (first.shown a)⟩

theorem PendingOnly.sight (only : PendingOnly s t) : SameSight s t := by
  refine ⟨by rw [only], fun a => by rw [only.arrival], fun a => ?_⟩
  simp only [shownWord,only.arrival,only.wordThere]

/-- The same addresses fault. -/
theorem SameSight.fault (same : SameSight s t) (a : Word) :
    arrival t a = .fault ↔ arrival s a = .fault := by
  rw [← Arrival.settled_fault,same.arrived,Arrival.settled_fault]

theorem SameSight.reached (same : SameSight s t) (a p : Word) :
    (∃ flagged, arrival t a = .reached p flagged) ↔ ∃ flagged, arrival s a = .reached p flagged := by
  rw [← Arrival.settled_reached,same.arrived,Arrival.settled_reached]

theorem SameSight.leadsTo (same : SameSight s t) (a : Word) (range : RangePtr) (offset : Word) :
    LeadsTo t a range offset ↔ LeadsTo s a range offset := by
  simp only [LeadsTo,same.map,same.reached]

end SameSight

section Mark

variable {s : State} {a : Word} {level address : Nat} {entry : Word}
  (leaf : busWalk s a = .leaf level address entry)

include leaf

/-- The walk to any address reads the marked entry as it read the entry before. -/
theorem pteAt_markEntry (b : Nat) (aligned : b % 4 = 0) :
    (pteAt (markEntry s address entry .load) b).map (Sv32.Pte.mark · .read) =
      (pteAt s b).map (Sv32.Pte.mark · .read) := by
  obtain ⟨small,aligned',p,located,held⟩ := busWalk_leaf_located leaf
  rw [markEntry_located located]
  by_cases same : b = address
  · subst same
    rw [pteAt_putWord_self located small,pteAt,if_pos small,located]
    simp [AccessType.toSv32,held]
  · rw [pteAt_putWord_other located small aligned' aligned same]

theorem busWalk_markEntry_map (b : Word) :
    (busWalk (markEntry s address entry .load) b).map (Sv32.Pte.mark · .read) =
      (busWalk s b).map (Sv32.Pte.mark · .read) := by
  obtain ⟨_,_,p,located,_⟩ := busWalk_leaf_located leaf
  have root : rootPpn (markEntry s address entry .load) = rootPpn s := by
    rw [markEntry_located located,rootPpn_putWord]
  rw [busWalk,root]
  exact Sv32.walk_map (fun e => Sv32.mark_kind e .read) (fun e => Sv32.mark_ppn e .read)
    (fun l t => pteAt_markEntry leaf _ (Sv32.entryAddress_aligned (by decide) l t)) 1 _

/-- The flag is in a byte that the valid bit keeps from being zero. -/
theorem markEntry_zero (buffer offset : Nat) :
    (markEntry s address entry .load).ram buffer offset = 0 ↔ s.ram buffer offset = 0 := by
  obtain ⟨_,_,p,located,held⟩ := busWalk_leaf_located leaf
  have kind := (Sv32.walk_leaf_read 1 (rootPpn s) leaf).2.1
  rw [markEntry_located located,putWord_ram]
  split
  next inside =>
    obtain ⟨rfl,low,high⟩ := inside
    rw [show offset = p.offset + (offset - p.offset) by omega,← byteOf_deref s p _ (by omega),held,
      Nat.add_sub_cancel_left]
    by_cases first : offset - p.offset = 0
    · rw [first]
      refine iff_of_false (byteOf_valid ?_) (byteOf_valid (Sv32.valid_of_leaf kind))
      exact Sv32.valid_of_leaf ((Sv32.mark_kind entry _).trans kind)
    · rw [byteOf_mark entry _ first]
  next => rfl

theorem markEntry_settled (walks : Walks s) (b : Word) :
    (arrival (markEntry s address entry .load) b).settled = (arrival s b).settled := by
  have walks' := (markEntry_ramOnly s address entry .load).walks.mpr walks
  rw [arrival_settled walks',arrival_settled walks,busWalk_markEntry_map leaf]

end Mark

section RamOnly

variable {s t : State} (only : RamOnly s t)
  (zero : ∀ buffer offset, t.ram buffer offset = 0 ↔ s.ram buffer offset = 0)

include zero

theorem dataTerminated_deref (p : WordPtr) :
    dataTerminated (deref t p) = dataTerminated (deref s p) := by
  rw [Bool.eq_iff_iff,dataTerminated_iff,dataTerminated_iff]
  refine exists_congr fun k => and_congr_right fun bound => ?_
  rw [byteOf_deref t p k bound,byteOf_deref s p k bound,zero]

include only

theorem wordThere_terminated (p : Word) :
    (wordThere t p).map dataTerminated = (wordThere s p).map dataTerminated := by
  have map : t.memoryMap = s.memoryMap := by rw [only]
  have device (f : Option DeviceReadFunc) (offset : Word) :
      callRead f t offset = callRead f s offset := by
    rw [only]
    rfl
  unfold wordThere
  rw [map]
  split
  next => rfl
  next range found =>
    split
    next =>
      rw [Option.map_map,Option.map_map]
      exact congrArg (Option.map · _) (funext fun q => dataTerminated_deref zero q)
    next => rw [device]

theorem sameSight_of_settled (settled : ∀ b, (arrival t b).settled = (arrival s b).settled) :
    SameSight s t := by
  constructor
  case map => rw [only]
  case arrived => exact settled
  case shown =>
    intro b
    rw [shownWord_settled,shownWord_settled,settled]
    cases (arrival s b).settled with
    | fault => rfl
    | lost => rfl
    | reached p flagged => exact wordThere_terminated only zero p

end RamOnly

section Looks

variable {s : State} {a : Word}

theorem translateAddress_sight (h : translateAddress s a .load = .ok t) : SameSight s t.state := by
  rcases translateAddress_ok h with
    ⟨_,rfl⟩ | ⟨_,_,rfl⟩ | ⟨_,_,rfl⟩ | ⟨level,address,entry,walks,leaf,rfl⟩
  · exact .refl s
  · exact .refl s
  · exact .refl s
  · exact sameSight_of_settled (markEntry_ramOnly ..) (markEntry_zero leaf)
      (markEntry_settled leaf walks)

theorem getMemoryTarget_sight (h : getMemoryTarget s a .load = .ok l) : SameSight s l.state := by
  by_cases faults : PageFaults s a .load
  · rw [getMemoryTarget_fault faults] at h
    obtain rfl := Except.ok.inj h
    exact PendingOnly.sight rfl
  · obtain ⟨translation,_,translated,_,state,_⟩ := getMemoryTarget_ok h faults
    rw [state]
    exact translateAddress_sight translated

theorem readWord_sight (h : readWord s a = .ok (value,t)) : SameSight s t := by
  by_cases faults : PageFaults s a .load
  · rw [readWord,readCommon_fault faults] at h
    obtain ⟨_,rfl⟩ := Prod.mk.inj (Except.ok.inj h)
    exact PendingOnly.sight rfl
  · obtain ⟨translation,translated,rfl⟩ := readCommon_translated h faults
    exact translateAddress_sight translated

/-- A look sets the flag of the leaf. -/
theorem translateAddress_arrives (h : translateAddress s a .load = .ok t)
    (arrived : arrival s a = .reached p flagged) : arrival t.state a = .reached p true := by
  rw [arrival] at arrived
  rcases translateAddress_ok h with
    ⟨direct,rfl⟩ | ⟨walks,⟨_,_,_,outcome⟩,rfl⟩ | ⟨walks,⟨_,_,outcome⟩,rfl⟩ |
      ⟨level,address,entry,walks,leaf,rfl⟩
  · rw [if_neg direct] at arrived
    rw [arrival,if_neg direct,(Arrival.reached.inj arrived).1]
  · rw [if_pos walks,outcome] at arrived
    contradiction
  · rw [if_pos walks,outcome] at arrived
    contradiction
  · rw [if_pos walks,leaf] at arrived
    rw [arrival,if_pos ((markEntry_ramOnly ..).walks.mpr walks),busWalk_markEntry leaf]
    dsimp only
    rw [leafPhysical_mark,Sv32.mark_accessed,(Arrival.reached.inj arrived).1]

/-- A look that arrives arrives again, in a state that shows the same. -/
theorem arrival_again (arrived : arrival s a = .reached p flagged) :
    ∃ t, translateAddress s a .load = .ok t ∧ t.physicalAddress = some p ∧
      SameSight s t.state ∧ arrival t.state a = .reached p true := by
  obtain ⟨t,translated,assigned,_⟩ := arrival_reached arrived
  exact ⟨t, translated, assigned, translateAddress_sight translated,
    translateAddress_arrives translated arrived⟩

/-- The word that a read returns is the one that is seen, but for the flag. -/
theorem readWord_shown (h : readWord s a = .ok (data,t)) (quiet : arrival s a ≠ .fault) :
    (shownWord s a).map dataTerminated = some (dataTerminated data) := by
  cases arrived : arrival s a with
  | fault => exact absurd arrived quiet
  | lost =>
    obtain ⟨e,stops⟩ := arrival_lost arrived
    rw [readWord,readCommon,stops] at h
    contradiction
  | reached p flagged =>
    obtain ⟨translation,translated,assigned,same,arrives⟩ := arrival_again arrived
    have there := ((readWord_reached translated assigned).mp h).1
    rw [← same.shown a,shownWord,arrives]
    exact congrArg (Option.map dataTerminated) there

end Looks

section Served

variable {s : State} {a : Word}

/-- An access that is translated arrives, whatever its type is. -/
theorem translateAddress_assigned_iff (accessType : AccessType) (p : Word) :
    (∃ t, translateAddress s a accessType = .ok t ∧ t.physicalAddress = some p) ↔
      ∃ flagged, arrival s a = .reached p flagged := by
  rw [arrival]
  by_cases walks : Walks s
  · rw [if_pos walks,translateAddress_walks walks]
    cases busWalk s a with
    | unmapped level address => simp [walkResult,physicalStop]
    | invalid level address entry => simp [walkResult]
    | dangling address entry => simp [walkResult]
    | leaf level address entry => simp [walkResult]
  · simp [translateAddress_direct walks,if_neg walks]

/-- Whether an access is served depends on where its address leads. -/
theorem served_leadsTo_iff {accessType : AccessType} {serves : State → RangePtr → Word → Prop}
    (kept : ∀ t range offset, RamOnly s t → (serves t range offset ↔ serves s range offset)) :
    (PageFaults s a accessType ∨
        ∃ t range offset, Resolves s a accessType t range offset ∧ serves t range offset) ↔
      arrival s a = .fault ∨ ∃ range offset, LeadsTo s a range offset ∧ serves s range offset := by
  rw [arrival_fault_iff,pageFaults_iff,pageFaults_iff]
  refine or_congr_right ?_
  constructor
  · rintro ⟨t,range,offset,resolves,serves⟩
    obtain ⟨translation,p,translated,assigned,_,found,place⟩ := resolves.translated
    have arrived := (translateAddress_assigned_iff accessType p).mp ⟨translation,translated,assigned⟩
    exact ⟨range, offset, ⟨p,arrived,found,place⟩, (kept _ _ _ resolves.ramOnly).mp serves⟩
  · rintro ⟨range,offset,⟨p,arrived,found,place⟩,serves⟩
    obtain ⟨translation,translated,assigned⟩ := (translateAddress_assigned_iff accessType p).mpr arrived
    have resolves : Resolves s a accessType translation.state range offset :=
      ⟨translation, p, translated, assigned, rfl, found, place⟩
    exact ⟨_, range, offset, resolves, (kept _ _ _ resolves.ramOnly).mpr serves⟩

theorem readServed_leadsTo_iff (sizeLog2 : Nat) : ReadServed s a sizeLog2 ↔
    arrival s a = .fault ∨ ∃ range offset, LeadsTo s a range offset ∧
      range.entry.ServesRead offset sizeLog2 :=
  served_leadsTo_iff fun _ _ _ _ => Iff.rfl

theorem writeServed_leadsTo_iff (value : Word) (sizeLog2 : Nat) : WriteServed s a value sizeLog2 ↔
    arrival s a = .fault ∨ ∃ range offset, LeadsTo s a range offset ∧
      range.entry.ServesWrite s.vm offset value sizeLog2 := by
  refine served_leadsTo_iff fun t range offset only => ?_
  have vm : t.vm = s.vm := by rw [only]
  rw [vm]

end Served

/-- The address after so many rounds. -/
def roundAddress (a : Word) (k : Nat) : Word := a + BitVec.ofNat 32 (4 * k)

theorem roundAddress_zero (a : Word) : roundAddress a 0 = a := BitVec.add_zero a

theorem roundAddress_succ (a : Word) (k : Nat) :
    roundAddress a (k + 1) = roundAddress (a + wordSize) k := by
  unfold roundAddress wordSize
  apply BitVec.eq_of_toNat_eq
  simp [BitVec.toNat_add]
  omega

/-- After `2 ^ 30` rounds the addresses come again. -/
theorem roundAddress_mod (a : Word) (k : Nat) : roundAddress a (k % 2 ^ 30) = roundAddress a k := by
  unfold roundAddress
  congr 1
  apply BitVec.eq_of_toNat_eq
  simp only [BitVec.toNat_ofNat]
  omega

end Emuriscv
