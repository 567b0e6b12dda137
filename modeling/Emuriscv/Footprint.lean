import Emuriscv.WordBits

/-! What an inspection of guest memory leaves behind. The debugger and the call tracer of
`monitor.c` look at memory through the translating functions of the hart, so that a look may set
an accessed flag or leave a page fault pending. -/
namespace Emuriscv

/-- Where a look at a virtual address ends, as the page tables have it. -/
inductive Arrival where
  | fault
  /-- The walk leaves RAM, or ends at a pointer. -/
  | lost
  | reached (physicalAddress : Word) (flagged : Bool)
  deriving DecidableEq, Repr

def arrival (s : State) (virtualAddress : Word) : Arrival :=
  if Walks s then
    match busWalk s virtualAddress with
    | .invalid _ _ _ => .fault
    | .leaf level _ entry =>
      .reached (leafPhysical level entry virtualAddress) (Sv32.Pte.accessed entry)
    | _ => .lost
  else .reached virtualAddress true

/-- The word at a physical address: in RAM, or a device's answer. -/
def wordThere (s : State) (physicalAddress : Word) : Option Word :=
  match getPhysMemRange s.memoryMap physicalAddress with
  | none => none
  | some range =>
    if range.entry.isRam then (wordLocation s.memoryMap physicalAddress).map (deref s)
    else (callRead range.entry.readFunc s (physicalAddress - range.entry.address)).toOption

theorem arrival_fault_iff (s : State) (a : Word) : arrival s a = .fault ↔ PageFaults s a .load := by
  rw [pageFaults_iff,arrival]
  by_cases walks : Walks s
  · rw [if_pos walks]
    cases outcome : busWalk s a <;> simp [walks,Sv32.Outcome.MeetsInvalid]
  · simp [walks]

theorem arrival_lost {s : State} (lost : arrival s a = .lost) :
    ∃ e, getMemoryTarget s a .load = .error e := by
  unfold arrival at lost
  split at lost
  next walks =>
    rw [getMemoryTarget,translateAddress_walks walks]
    cases outcome : busWalk s a with
    | unmapped level address => exact ⟨_,rfl⟩
    | dangling address entry => exact ⟨_,rfl⟩
    | invalid level address entry =>
      rw [outcome] at lost
      contradiction
    | leaf level address entry =>
      rw [outcome] at lost
      contradiction
  next => contradiction

/-- A translation leaves RAM as it is when the flag that it sets is set already. -/
theorem arrival_reached {s : State} (reached : arrival s a = .reached p flagged) :
    ∃ t, translateAddress s a .load = .ok t ∧ t.physicalAddress = some p ∧
      (t.state.ram = s.ram ↔ flagged = true) := by
  unfold arrival at reached
  split at reached
  next walks =>
    cases outcome : busWalk s a with
    | unmapped level address =>
      rw [outcome] at reached
      contradiction
    | dangling address entry =>
      rw [outcome] at reached
      contradiction
    | invalid level address entry =>
      rw [outcome] at reached
      contradiction
    | leaf level address entry =>
      rw [outcome] at reached
      obtain ⟨rfl,rfl⟩ := Arrival.reached.inj reached
      obtain ⟨_,_,q,located,held⟩ := busWalk_leaf_located outcome
      refine ⟨⟨translateOk, some (leafPhysical level entry a), markEntry s address entry .load⟩,
        ?_, rfl, ?_⟩
      · rw [translateAddress_walks walks,outcome]
        rfl
      · dsimp only
        rw [markEntry_located located,← Sv32.mark_read_eq_iff]
        constructor
        · intro same
          have word := congrFun (deref_congr same) q
          rwa [deref_putWord,held] at word
        · intro marked
          rw [show AccessType.toSv32 .load = .read from rfl,marked,← held,putWord_deref]
  next direct =>
    obtain ⟨rfl,rfl⟩ := Arrival.reached.inj reached
    exact ⟨_, translateAddress_direct direct a .load, rfl, by simp⟩

/-- Every bit of RAM that is set stays set. -/
def Grows (s t : State) : Prop :=
  ∀ buffer offset i, (s.ram buffer offset).getLsbD i = true → (t.ram buffer offset).getLsbD i = true

theorem Grows.of_same {s t : State} (same : t.ram = s.ram) : Grows s t := by
  intro buffer offset i set
  rwa [same]

theorem Grows.trans {s t u : State} (first : Grows s t) (second : Grows t u) : Grows s u :=
  fun buffer offset i set => second buffer offset i (first buffer offset i set)

/-- What has grown into itself has not changed on the way. -/
theorem Grows.same {s t u : State} (first : Grows s t) (second : Grows t u) (same : u.ram = s.ram) :
    t.ram = s.ram := by
  funext buffer offset
  apply BitVec.eq_of_getLsbD_eq
  intro i _
  rw [Bool.eq_iff_iff]
  refine ⟨fun set => ?_, first buffer offset i⟩
  rw [← same]
  exact second buffer offset i set

theorem translateAddress_grows {s : State} (h : translateAddress s a accessType = .ok t) :
    Grows s t.state := by
  intro buffer offset i set
  by_cases bound : i < 8
  · have moved := (translateAddress_bit h ⟨buffer,offset⟩ i (by omega)).mpr
    have byte (u : State) : (deref u ⟨buffer,offset⟩).getLsbD i = (u.ram buffer offset).getLsbD i := by
      rw [deref_bit u _ i (by omega),Nat.div_eq_of_lt bound,Nat.mod_eq_of_lt bound]
      rfl
    rw [byte,byte] at moved
    exact moved (Or.inl set)
  · rw [BitVec.getLsbD_of_ge _ _ (Nat.le_of_not_lt bound)] at set
    contradiction

theorem getMemoryTarget_grows {s : State} (h : getMemoryTarget s a accessType = .ok l) :
    Grows s l.state := by
  by_cases faults : PageFaults s a accessType
  · rw [getMemoryTarget_fault faults] at h
    obtain rfl := Except.ok.inj h
    exact .of_same rfl
  · obtain ⟨t,_,translated,_,state,_⟩ := getMemoryTarget_ok h faults
    rw [state]
    exact translateAddress_grows translated

theorem readWord_grows {s : State} (h : readWord s a = .ok (value,t)) : Grows s t := by
  by_cases faults : PageFaults s a .load
  · rw [readWord,readCommon_fault faults] at h
    obtain ⟨_,rfl⟩ := Prod.mk.inj (Except.ok.inj h)
    exact .of_same rfl
  · obtain ⟨translation,translated,rfl⟩ := readCommon_translated h faults
    exact translateAddress_grows translated

/-- The word that a read finds at a physical address. -/
theorem read_there (s : State) (found : getPhysMemRange s.memoryMap p = some range) :
    (if range.entry.isRam then
      readCommonRam s ⟨range.physMemPtr, (p - range.entry.address).toNat⟩ sizeWord
      else callRead range.entry.readFunc s (BitVec.ofNat 32 (p - range.entry.address).toNat)).toOption =
    wordThere s p := by
  rw [wordThere,found,BitVec.ofNat_toNat,BitVec.setWidth_eq,RangePtr.physMemPtr]
  dsimp only
  by_cases ram : range.entry.isRam = true
  · rw [if_pos ram,if_pos ram,if_pos ram,wordLocation,found]
    dsimp only
    have size : s.bufferSize range.index = range.entry.size.toNat :=
      bufferSize_eq (getPhysMemRange_spec found).1
    by_cases inside : (p - range.entry.address).toNat + 3 < range.entry.size.toNat
    · have word := readCommonRam_word s ⟨range.index, (p - range.entry.address).toNat⟩
        (by rwa [size])
      rw [if_pos ⟨ram,inside⟩]
      exact congrArg Except.toOption word
    · have stops := readCommonRam_outside s range.index (p - range.entry.address).toNat (by rwa [size])
      rw [if_neg fun both => inside both.2]
      exact congrArg Except.toOption stops
  · rw [if_neg ram,if_neg ram]

/-- A read that arrives somewhere finds the word that is there with the flag set. -/
theorem readWord_reached {s : State} (translated : translateAddress s a .load = .ok translation)
    (assigned : translation.physicalAddress = some p) :
    readWord s a = .ok (value,t) ↔ wordThere translation.state p = some value ∧ t = translation.state := by
  have map : translation.state.memoryMap = s.memoryMap := by rw [translateAddress_ramOnly translated]
  cases found : getPhysMemRange s.memoryMap p with
  | none =>
    have none : wordThere translation.state p = none := by rw [wordThere,map,found]
    rw [readWord,readCommon,getMemoryTarget_uncovered translated assigned found,ok_bind,none]
    simp [pageFault]
  | some range =>
    have found' : getPhysMemRange translation.state.memoryMap p = some range := by rw [map,found]
    have read : readWord s a = (if range.entry.isRam = true then
          readCommonRam translation.state ⟨range.physMemPtr, (p - range.entry.address).toNat⟩ sizeWord
        else callRead range.entry.readFunc translation.state
          (BitVec.ofNat 32 (p - range.entry.address).toNat)) >>= fun value =>
            .ok (value,translation.state) := by
      rw [readWord,readCommon,getMemoryTarget_covered translated assigned found,ok_bind,
        if_neg (show translateOk ≠ pageFault by decide)]
      dsimp only [MemoryTarget.pointer]
      rw [pure_eq_ok,ok_bind]
      split <;> rfl
    rw [read,← read_there translation.state found']
    generalize (if range.entry.isRam = true then
        readCommonRam translation.state ⟨range.physMemPtr, (p - range.entry.address).toNat⟩ sizeWord
      else callRead range.entry.readFunc translation.state
        (BitVec.ofNat 32 (p - range.entry.address).toNat)) = word
    cases word with
    | error e => simp [Except.toOption]
    | ok word => simp [Except.toOption,eq_comm]

/-- A look that needs no flag to be set reads the word, and changes nothing. -/
theorem readWord_there {s : State} (reached : arrival s a = .reached p true) :
    readWord s a = .ok (value,t) ↔ wordThere s p = some value ∧ t = s := by
  obtain ⟨translation,translated,assigned,settled⟩ := arrival_reached reached
  have same : translation.state = s := by
    rw [translateAddress_ramOnly translated,settled.mpr rfl]
  rw [readWord_reached translated assigned,same]

/-- One access of an inspection: `get_memory_target`, `read_word` or `read_word_physical`. -/
inductive Look where
  | probe (virtualAddress : Word)
  | read (virtualAddress : Word)
  | physical (physicalAddress : Word)
  deriving DecidableEq, Repr

def Look.perform (s : State) : Look → Except Stop State
  | .probe a => do
    let l ← getMemoryTarget s a .load
    pure l.state
  | .read a => do
    let (_, s) ← readWord s a
    pure s
  | .physical a => do
    let _ ← readWordPhysical s a
    pure s

/-- The look changes nothing but, after a page fault, the pending fields. -/
def Look.Harmless (s : State) : Look → Prop
  | .probe a => arrival s a = .fault ∨ ∃ p, arrival s a = .reached p true
  | .read a => arrival s a = .fault ∨ ∃ p, arrival s a = .reached p true ∧ wordThere s p ≠ none
  | .physical a => wordLocation s.memoryMap a ≠ none

/-- The address for which the look page-faults. -/
def Look.fault (s : State) : Look → Option Word
  | .probe a | .read a => if arrival s a = .fault then some a else none
  | .physical _ => none

/-- The state that faults leave, the last of which counts. -/
def afterFaults (s : State) (faults : List Word) : State :=
  match faults.getLast? with
  | some a => pendFault s a .load
  | none => s

theorem Look.perform_harmless {s : State} {look : Look} (harmless : look.Harmless s) :
    look.perform s = .ok (afterFaults s (look.fault s).toList) := by
  cases look with
  | probe a =>
    rcases harmless with fault | ⟨p,reached⟩
    · have faults := (arrival_fault_iff s a).mp fault
      simp only [perform,getMemoryTarget_fault faults,ok_bind,Look.fault,fault,if_true]
      rfl
    · obtain ⟨t,translated,assigned,settled⟩ := arrival_reached reached
      have same : t.state = s := by rw [translateAddress_ramOnly translated,settled.mpr rfl]
      simp only [perform,getMemoryTarget_assigned translated assigned,ok_bind,same,Look.fault,reached]
      rfl
  | read a =>
    rcases harmless with fault | ⟨p,reached,there⟩
    · have faults := (arrival_fault_iff s a).mp fault
      simp only [perform,readWord,readCommon_fault faults,ok_bind,Look.fault,fault,if_true]
      rfl
    · obtain ⟨value,found⟩ := Option.ne_none_iff_exists'.mp there
      have read := (readWord_there reached).mpr ⟨found,rfl⟩
      simp only [perform,read,ok_bind,Look.fault,reached]
      rfl
  | physical a =>
    obtain ⟨q,located⟩ := Option.ne_none_iff_exists'.mp harmless
    simp only [perform,readWordPhysical_located located,ok_bind]
    rfl

theorem Look.perform_grows {s : State} {look : Look} (h : look.perform s = .ok t) : Grows s t := by
  cases look with
  | probe a =>
    obtain ⟨l,looked,rest⟩ := bind_eq_ok.mp h
    rw [← Except.ok.inj rest]
    exact getMemoryTarget_grows looked
  | read a =>
    obtain ⟨⟨value,u⟩,read,rest⟩ := bind_eq_ok.mp h
    rw [← Except.ok.inj rest]
    exact readWord_grows read
  | physical a =>
    obtain ⟨value,read,rest⟩ := bind_eq_ok.mp h
    rw [← Except.ok.inj rest]
    exact .of_same rfl

theorem getMemoryTarget_same {s : State} (looked : getMemoryTarget s a .load = .ok l)
    (same : l.state.ram = s.ram) : arrival s a = .fault ∨ ∃ p, arrival s a = .reached p true := by
  cases arrived : arrival s a with
  | fault => exact Or.inl rfl
  | lost =>
    obtain ⟨e,stops⟩ := arrival_lost arrived
    rw [stops] at looked
    contradiction
  | reached p flagged =>
    obtain ⟨t,translated,assigned,settled⟩ := arrival_reached arrived
    rw [getMemoryTarget_assigned translated assigned] at looked
    rw [← Except.ok.inj looked] at same
    rw [settled.mp same]
    exact Or.inr ⟨p,rfl⟩

theorem Look.perform_same {s : State} {look : Look} (h : look.perform s = .ok t)
    (same : t.ram = s.ram) : look.Harmless s := by
  cases look with
  | probe a =>
    obtain ⟨l,looked,rest⟩ := bind_eq_ok.mp h
    rw [← Except.ok.inj rest] at same
    exact getMemoryTarget_same looked same
  | read a =>
    obtain ⟨⟨value,u⟩,read,rest⟩ := bind_eq_ok.mp h
    obtain rfl := Except.ok.inj rest
    cases arrived : arrival s a with
    | fault => exact Or.inl arrived
    | lost =>
      obtain ⟨e,stops⟩ := arrival_lost arrived
      rw [readWord,readCommon,stops] at read
      contradiction
    | reached p flagged =>
      obtain ⟨translation,translated,_,settled⟩ := arrival_reached arrived
      have quiet : ¬PageFaults s a .load := by
        rw [← arrival_fault_iff,arrived]
        exact Arrival.noConfusion
      obtain ⟨other,again,rfl⟩ := readCommon_translated read quiet
      obtain rfl := Except.ok.inj (translated.symm.trans again)
      rw [settled.mp same] at arrived
      have there := ((readWord_there arrived).mp read).1
      exact Or.inr ⟨p, arrived, by rw [there]; exact Option.some_ne_none _⟩
  | physical a =>
    obtain ⟨value,read,rest⟩ := bind_eq_ok.mp h
    intro outside
    rw [readWordPhysical_unlocated outside] at read
    contradiction

def performAll (s : State) (looks : List Look) : Except Stop State := looks.foldlM Look.perform s

/-- The addresses for which an inspection page-faults, in order. -/
def faultsOf (s : State) (looks : List Look) : List Word := looks.filterMap (Look.fault s)

/-- Only the pending fields may differ. -/
def PendingOnly (s t : State) : Prop := t = { s with
  pendingTval := t.pendingTval
  pendingException := t.pendingException
  hasPendingException := t.hasPendingException }

theorem afterFaults_pendingOnly (s : State) (faults : List Word) :
    PendingOnly s (afterFaults s faults) := by
  unfold afterFaults
  split <;> rfl

section PendingOnly

variable {s t : State}

theorem PendingOnly.ram (only : PendingOnly s t) : t.ram = s.ram := by
  rw [only]

/-- What is pending has no influence on where a look arrives. -/
theorem PendingOnly.arrival (only : PendingOnly s t) : arrival t = arrival s := by
  have walk : busWalk t = busWalk s := by
    have satp : readCsr t csrSatp = readCsr s csrSatp := by
      rw [only]
      rfl
    exact busWalk_congr (by rw [only]) only.ram satp
  have walks : Walks t ↔ Walks s := by
    rw [only]
    rfl
  funext a
  unfold Emuriscv.arrival
  rw [walk]
  simp only [walks]

theorem callRead_pendingOnly (only : PendingOnly s t) (f : Option DeviceReadFunc) (offset : Word) :
    callRead f t offset = callRead f s offset := by
  rw [only]
  rfl

theorem PendingOnly.wordThere (only : PendingOnly s t) : wordThere t = wordThere s := by
  funext p
  have map : t.memoryMap = s.memoryMap := by rw [only]
  unfold Emuriscv.wordThere
  rw [map]
  simp only [callRead_pendingOnly only,deref_congr only.ram]

theorem PendingOnly.harmless (only : PendingOnly s t) (look : Look) :
    look.Harmless t ↔ look.Harmless s := by
  have map : t.memoryMap = s.memoryMap := by rw [only]
  cases look <;> simp only [Look.Harmless,only.arrival,only.wordThere,map]

theorem PendingOnly.faultsOf (only : PendingOnly s t) (looks : List Look) :
    faultsOf t looks = faultsOf s looks := by
  have same : Look.fault t = Look.fault s := by
    funext look
    cases look <;> simp only [Look.fault,only.arrival]
  rw [Emuriscv.faultsOf,same,Emuriscv.faultsOf]

end PendingOnly

/-- Later faults overwrite earlier ones. -/
theorem afterFaults_append (s : State) (first second : List Word) :
    afterFaults (afterFaults s first) second = afterFaults s (first ++ second) := by
  simp only [afterFaults,List.getLast?_append]
  cases second.getLast? with
  | none => rfl
  | some a => cases first.getLast? <;> rfl

theorem performAll_harmless {s : State} {looks : List Look} (harmless : ∀ look ∈ looks, look.Harmless s) :
    performAll s looks = .ok (afterFaults s (faultsOf s looks)) := by
  induction looks generalizing s with
  | nil => rfl
  | cons look rest ih =>
    have first := Look.perform_harmless (harmless look List.mem_cons_self)
    have only := afterFaults_pendingOnly s (look.fault s).toList
    have later : ∀ look' ∈ rest, look'.Harmless (afterFaults s (look.fault s).toList) :=
      fun look' member => (only.harmless look').mpr (harmless look' (List.mem_cons_of_mem _ member))
    have faults : faultsOf s (look :: rest) = (look.fault s).toList ++ faultsOf s rest := by
      unfold faultsOf
      cases found : look.fault s <;> simp [found]
    rw [performAll,List.foldlM_cons,first,ok_bind,faults,← afterFaults_append,← only.faultsOf]
    exact ih later

theorem performAll_grows {s : State} {looks : List Look} (h : performAll s looks = .ok t) :
    Grows s t := by
  induction looks generalizing s with
  | nil => exact .of_same (congrArg State.ram (Except.ok.inj h)).symm
  | cons look rest ih =>
    rw [performAll,List.foldlM_cons] at h
    obtain ⟨u,first,later⟩ := bind_eq_ok.mp h
    exact (Look.perform_grows first).trans (ih later)

/-- An inspection that leaves RAM as it was made harmless looks only. -/
theorem performAll_same {s : State} {looks : List Look} (h : performAll s looks = .ok t)
    (same : t.ram = s.ram) : ∀ look ∈ looks, look.Harmless s := by
  induction looks generalizing s with
  | nil => simp
  | cons look rest ih =>
    rw [performAll,List.foldlM_cons] at h
    obtain ⟨u,first,later⟩ := bind_eq_ok.mp h
    have middle : u.ram = s.ram := (Look.perform_grows first).same (performAll_grows later) same
    have harmless := Look.perform_same first middle
    rw [Look.perform_harmless harmless] at first
    have only := afterFaults_pendingOnly s (look.fault s).toList
    rw [Except.ok.inj first] at only
    intro look' member
    rcases List.mem_cons.mp member with rfl | member
    · exact harmless
    · exact (only.harmless look').mp (ih later (same.trans middle.symm) look' member)

/-- What an inspection leaves, if it leaves RAM as it was. -/
theorem performAll_iff (s t : State) (looks : List Look) :
    performAll s looks = .ok t ∧ t.ram = s.ram ↔
      (∀ look ∈ looks, look.Harmless s) ∧ t = afterFaults s (faultsOf s looks) := by
  constructor
  · rintro ⟨ran,same⟩
    have harmless := performAll_same ran same
    exact ⟨harmless, Except.ok.inj (ran.symm.trans (performAll_harmless harmless))⟩
  · rintro ⟨harmless,rfl⟩
    exact ⟨performAll_harmless harmless, (afterFaults_pendingOnly ..).ram⟩

/-- The pending fields are as a page fault of a load from the address leaves them. -/
structure PendsLoad (s : State) (a : Word) : Prop where
  exception : s.pendingException = causeLoadPageFault
  tval : s.pendingTval = a
  flag : s.hasPendingException = true

theorem pendFault_eq_iff (s : State) (a : Word) : s = pendFault s a .load ↔ PendsLoad s a := by
  constructor
  · intro same
    rw [same]
    exact ⟨rfl,rfl,rfl⟩
  · rintro ⟨exception,tval,flag⟩
    rw [pendFault,pageFaultCause,← exception,← tval,← flag]

/-- No fault is left pending but one that was. -/
theorem afterFaults_eq_iff (s : State) (faults : List Word) :
    s = afterFaults s faults ↔ ∀ a, faults.getLast? = some a → PendsLoad s a := by
  unfold afterFaults
  cases faults.getLast? with
  | none => simp
  | some a => simp [pendFault_eq_iff]

/-- What `dump_string_virtual` looks at from an address on, in memory that stands still: words up
to one with a zero byte, a page fault, or an address that no range answers. There is no end to
the string, or it cannot be read, where there is no list. -/
def stringLooks (s : State) (a : Word) : Nat → Option (List Look)
  | 0 => none
  | rounds + 1 =>
    match arrival s a with
    | .fault => some [.probe a]
    | .lost => none
    | .reached p _ =>
      match getPhysMemRange s.memoryMap p, wordThere s p with
      | none, _ => some [.probe a]
      | some _, none => none
      | some _, some value =>
        if dataTerminated value then some [.probe a, .read a]
        else (stringLooks s (a + wordSize) rounds).map ([.probe a, .read a] ++ ·)

theorem performAll_append (s : State) (first second : List Look) :
    performAll s (first ++ second) = performAll s first >>= (performAll · second) :=
  List.foldlM_append ..

theorem dumpStringLoop_grows {s : State} (h : dumpStringLoop s a rounds = .ok t) : Grows s t := by
  induction rounds generalizing s a with
  | zero => contradiction
  | succ rounds ih =>
    obtain ⟨l,looked,rest⟩ := bind_eq_ok.mp h
    have first := getMemoryTarget_grows looked
    split at rest
    next => rwa [← Except.ok.inj rest]
    next =>
      obtain ⟨⟨data,u⟩,read,rest⟩ := bind_eq_ok.mp rest
      have second := first.trans (readWord_grows read)
      dsimp only at rest
      split at rest
      next => rwa [← Except.ok.inj rest]
      next => exact second.trans (ih rest)

/-- A round whose probe arrives somewhere has to find the flag set, or RAM is not as it was. -/
theorem dumpStringLoop_flagged {s : State} (h : dumpStringLoop s a (rounds + 1) = .ok t)
    (same : t.ram = s.ram) (arrived : arrival s a = .reached p flagged) : flagged = true := by
  obtain ⟨translation,translated,assigned,settled⟩ := arrival_reached arrived
  refine settled.mp ((translateAddress_grows translated).same ?_ same)
  obtain ⟨l,looked,rest⟩ := bind_eq_ok.mp h
  rw [getMemoryTarget_assigned translated assigned] at looked
  obtain rfl := Except.ok.inj looked
  split at rest
  next => exact .of_same (congrArg State.ram (Except.ok.inj rest)).symm
  next =>
    obtain ⟨⟨data,u⟩,read,rest⟩ := bind_eq_ok.mp rest
    dsimp only at rest
    split at rest
    next =>
      rw [← Except.ok.inj rest]
      exact readWord_grows read
    next => exact (readWord_grows read).trans (dumpStringLoop_grows rest)

theorem faultsOf_append (s : State) (first second : List Look) :
    faultsOf s (first ++ second) = faultsOf s first ++ faultsOf s second :=
  List.filterMap_append ..

section Round

variable {s : State} {a p : Word} (arrived : arrival s a = .reached p true)

include arrived

theorem dumpStringLoop_unanswered (found : getPhysMemRange s.memoryMap p = none) (rounds : Nat) :
    dumpStringLoop s a (rounds + 1) = .ok s := by
  obtain ⟨translation,translated,assigned,settled⟩ := arrival_reached arrived
  have same : translation.state = s := by rw [translateAddress_ramOnly translated,settled.mpr rfl]
  rw [dumpStringLoop,getMemoryTarget_uncovered translated assigned found,ok_bind,
    if_pos (show (-2 : Int) ≠ translateOk by decide),same]
  rfl

/-- The round goes on with its word. -/
theorem dumpStringLoop_answered (found : getPhysMemRange s.memoryMap p = some range) (rounds : Nat) :
    dumpStringLoop s a (rounds + 1) = readWord s a >>= fun (data,s) =>
      if dataTerminated data then pure s else dumpStringLoop s (a + wordSize) rounds := by
  obtain ⟨translation,translated,assigned,settled⟩ := arrival_reached arrived
  have same : translation.state = s := by rw [translateAddress_ramOnly translated,settled.mpr rfl]
  rw [dumpStringLoop,getMemoryTarget_covered translated assigned found,ok_bind,
    if_neg (not_not.mpr (show translateOk = translateOk from rfl)),same]

theorem probe_quiet : faultsOf s [.probe a] = [] ∧ faultsOf s [.probe a, .read a] = [] := by
  simp [faultsOf,Look.fault,arrived]

theorem round_harmless (there : wordThere s p = some value) :
    ∀ look ∈ [Look.probe a, .read a], look.Harmless s := by
  simp [Look.Harmless,arrived,there]

theorem readWord_missing (missing : wordThere s p = none) : ∃ e, readWord s a = .error e := by
  cases read : readWord s a with
  | error e => exact ⟨e,rfl⟩
  | ok result =>
    have there := ((readWord_there arrived).mp read).1
    rw [missing] at there
    contradiction

/-- A round with its word adds no fault to those of the later rounds. -/
theorem round_further (there : wordThere s p = some value) (rest : List Look) (t : State) :
    ((∀ look ∈ [Look.probe a, .read a] ++ rest, look.Harmless s) ∧
        t = afterFaults s (faultsOf s ([Look.probe a, .read a] ++ rest))) ↔
      (∀ look ∈ rest, look.Harmless s) ∧ t = afterFaults s (faultsOf s rest) := by
  rw [faultsOf_append,(probe_quiet arrived).2,List.nil_append,List.forall_mem_append,
    and_iff_right (round_harmless arrived there)]

end Round

/-- Every round begins with its probe. -/
theorem stringLooks_probe {s : State} (here : stringLooks s a (rounds + 1) = some looks)
    (arrived : arrival s a = .reached p flagged) : .probe a ∈ looks := by
  rw [stringLooks,arrived] at here
  dsimp only at here
  split at here
  next => simp [← Option.some.inj here]
  next => contradiction
  next =>
    split at here
    next => simp [← Option.some.inj here]
    next =>
      obtain ⟨rest,_,rfl⟩ := Option.map_eq_some_iff.mp here
      exact List.mem_cons_self

/-- A probe that sets a flag is a change. -/
theorem stringLooks_flagged {s : State} (here : stringLooks s a (rounds + 1) = some looks)
    (harmless : ∀ look ∈ looks, look.Harmless s) (arrived : arrival s a = .reached p flagged) :
    flagged = true := by
  rcases harmless _ (stringLooks_probe here arrived) with fault | ⟨q,reached⟩
  · rw [arrived] at fault
    contradiction
  · rw [arrived] at reached
    exact (Arrival.reached.inj reached).2

/-- Where the dump ends, with all that it has looked at. -/
theorem ended_iff {s t : State} {ran : Except Stop State} {looks : List Look}
    (ended : ran = .ok (afterFaults s (faultsOf s looks)))
    (harmless : ∀ look ∈ looks, look.Harmless s) :
    ran = .ok t ∧ t.ram = s.ram ↔ ∃ looks', some looks = some looks' ∧
      (∀ look ∈ looks', look.Harmless s) ∧ t = afterFaults s (faultsOf s looks') := by
  rw [ended]
  constructor
  · rintro ⟨same,_⟩
    exact ⟨looks, rfl, harmless, (Except.ok.inj same).symm⟩
  · rintro ⟨looks',here,_,rfl⟩
    obtain rfl := Option.some.inj here
    exact ⟨rfl, (afterFaults_pendingOnly ..).ram⟩

/-- The dump leaves what the inspection of its looks leaves. -/
def StringInspected (s t : State) (a : Word) (rounds : Nat) : Prop :=
  dumpStringLoop s a rounds = .ok t ∧ t.ram = s.ram ↔
    ∃ looks, stringLooks s a rounds = some looks ∧ (∀ look ∈ looks, look.Harmless s) ∧
      t = afterFaults s (faultsOf s looks)

section StringInspected

variable {s t : State} {a p : Word} {rounds : Nat}

/-- A round that faults is the last. -/
theorem stringInspected_fault (arrived : arrival s a = .fault) :
    StringInspected s t a (rounds + 1) := by
  have faults := (arrival_fault_iff s a).mp arrived
  have single : faultsOf s [.probe a] = [a] := by simp [faultsOf,Look.fault,arrived]
  rw [StringInspected,stringLooks,arrived]
  refine ended_iff ?_ (by simp [Look.Harmless,arrived])
  rw [dumpStringLoop,getMemoryTarget_fault faults,ok_bind,
    if_pos (show pageFault ≠ translateOk by decide),single]
  rfl

/-- Where the flag is set, the round is the last, or the later ones decide. -/
theorem stringInspected_set (arrived : arrival s a = .reached p true)
    (later : StringInspected s t (a + wordSize) rounds) : StringInspected s t a (rounds + 1) := by
  rw [StringInspected,stringLooks,arrived]
  dsimp only
  cases found : getPhysMemRange s.memoryMap p with
  | none =>
    refine ended_iff ?_ (by simp [Look.Harmless,arrived])
    rw [dumpStringLoop_unanswered arrived found,(probe_quiet arrived).1]
    rfl
  | some range =>
    rw [dumpStringLoop_answered arrived found]
    cases there : wordThere s p with
    | none =>
      obtain ⟨e,stops⟩ := readWord_missing arrived there
      simp [stops]
    | some value =>
      rw [(readWord_there arrived).mpr ⟨there,rfl⟩,ok_bind]
      dsimp only
      split
      next last =>
        refine ended_iff ?_ (round_harmless arrived there)
        rw [(probe_quiet arrived).2]
        rfl
      next further =>
        refine later.trans ?_
        constructor
        · rintro ⟨rest,here,harmless⟩
          exact ⟨_, congrArg (Option.map _) here, (round_further arrived there rest t).mpr harmless⟩
        · rintro ⟨looks,here,harmless⟩
          obtain ⟨rest,tail,rfl⟩ := Option.map_eq_some_iff.mp here
          exact ⟨rest, tail, (round_further arrived there rest t).mp harmless⟩

/-- Where the flag is not set, the probe changes RAM and is not harmless. -/
theorem stringInspected_unset (arrived : arrival s a = .reached p false) :
    StringInspected s t a (rounds + 1) := by
  constructor
  · rintro ⟨ran,same⟩
    exact absurd (dumpStringLoop_flagged ran same arrived) Bool.false_ne_true
  · rintro ⟨looks,here,harmless,_⟩
    exact absurd (stringLooks_flagged here harmless arrived) Bool.false_ne_true

end StringInspected

/-- The loop is the inspection of the words that it meets. -/
theorem dumpStringLoop_iff (s t : State) (a : Word) (rounds : Nat) :
    dumpStringLoop s a rounds = .ok t ∧ t.ram = s.ram ↔
      ∃ looks, stringLooks s a rounds = some looks ∧ (∀ look ∈ looks, look.Harmless s) ∧
        t = afterFaults s (faultsOf s looks) := by
  induction rounds generalizing a with
  | zero => simp [dumpStringLoop,stringLooks]
  | succ rounds ih =>
    cases arrived : arrival s a with
    | fault => exact stringInspected_fault arrived
    | lost =>
      obtain ⟨e,stops⟩ := arrival_lost arrived
      rw [dumpStringLoop,stops,stringLooks,arrived]
      simp
    | reached p flagged =>
      cases flagged with
      | true => exact stringInspected_set arrived (ih _)
      | false => exact stringInspected_unset arrived

end Emuriscv
