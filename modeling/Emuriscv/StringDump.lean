import Emuriscv.LinuxRun
import Emuriscv.Sight

/-! When `dump_string_virtual` stops. Its loop has no bound of its own, and what it meets is for the
guest to choose: every address may show a word without a zero byte. -/
namespace Emuriscv

/-- No loop in it runs for ever. An abort of the emulator is an end as well. -/
def Halts (ran : Except Stop α) : Prop := ran ≠ .error .diverges

theorem halts_ok (value : α) : Halts (.ok value) := by simp [Halts]

theorem halts_error {e : Stop} (other : e ≠ .diverges) : Halts (.error e : Except Stop α) :=
  fun same => other (Except.error.inj same)

theorem Halts.bind {ran : Except Stop α} {f : α → Except Stop β} (first : Halts ran)
    (later : ∀ value, ran = .ok value → Halts (f value)) : Halts (ran >>= f) := by
  cases ran with
  | error e => exact halts_error fun same => first (congrArg Except.error same)
  | ok value => exact later value rfl

theorem translateAddress_halts (s : State) (a : Word) (accessType : AccessType) :
    Halts (translateAddress s a accessType) := by
  by_cases walks : Walks s
  · rw [translateAddress_walks walks]
    cases busWalk s a with
    | unmapped level address =>
      rw [walkResult,physicalStop]
      split
      next => exact halts_error (by decide)
      next => split <;> exact halts_error (by decide)
    | invalid level address entry => exact halts_ok _
    | dangling address entry => exact halts_ok _
    | leaf level address entry => exact halts_ok _
  · rw [translateAddress_direct walks]
    exact halts_ok _

theorem getMemoryTarget_halts (s : State) (a : Word) (accessType : AccessType) :
    Halts (getMemoryTarget s a accessType) := by
  refine (translateAddress_halts s a accessType).bind fun t _ => ?_
  split
  next => exact halts_ok _
  next =>
    split
    next => exact halts_error (by decide)
    next => exact halts_ok _

theorem callRead_halts (f : Option DeviceReadFunc) (s : State) (offset : Word) :
    Halts (callRead f s offset) := by
  unfold callRead
  split
  next => exact halts_error (by decide)
  next => exact halts_ok _
  next => exact halts_ok _
  next =>
    unfold uartRead
    dsimp only
    split
    next => exact halts_ok _
    next =>
      split
      next => exact halts_ok _
      next => exact halts_error (by decide)

theorem load_halts (s : State) (target : HostPtr) (k : Nat) : Halts (s.load target k) := by
  unfold State.load
  split
  next => exact halts_error (by decide)
  next =>
    split
    next => exact halts_ok _
    next => exact halts_error (by decide)

theorem readWord_halts (s : State) (a : Word) : Halts (readWord s a) := by
  refine (getMemoryTarget_halts s a .load).bind fun l _ => ?_
  split
  next => exact halts_ok _
  next =>
    split
    next => exact halts_error (by decide)
    next range found =>
      have pointer : Halts l.target.pointer := by
        unfold MemoryTarget.pointer
        split
        next => exact halts_error (by decide)
        next => exact halts_ok _
      refine pointer.bind fun ptr _ => ?_
      dsimp only
      split
      next =>
        have byte := load_halts l.state ptr
        refine Halts.bind ?_ fun value _ => halts_ok _
        exact (byte 0).bind fun _ _ => (byte 1).bind fun _ _ => (byte 2).bind fun _ _ =>
          (byte 3).bind fun _ _ => halts_ok _
      next => exact (callRead_halts _ _ _).bind fun value _ => halts_ok _

/-- The dump has no next address: the one at hand does not show a word, or its word ends a string. -/
def EndsAt (s : State) (a : Word) : Prop := (shownWord s a).map dataTerminated ≠ some false

theorem SameSight.endsAt {s t : State} (same : SameSight s t) (a : Word) : EndsAt t a ↔ EndsAt s a := by
  rw [EndsAt,EndsAt,same.shown]

section Round

variable {s : State} {a : Word}

/-- The last round. -/
theorem dumpStringLoop_last (ends : EndsAt s a) (rounds : Nat) :
    Halts (dumpStringLoop s a (rounds + 1)) := by
  refine (getMemoryTarget_halts s a .load).bind fun l looked => ?_
  split
  next => exact halts_ok _
  next ok =>
    refine (readWord_halts l.state a).bind fun (data,t) read => ?_
    have same := getMemoryTarget_sight looked
    have quiet : arrival l.state a ≠ .fault := by
      rw [Ne,same.fault,arrival_fault_iff]
      intro faults
      rw [getMemoryTarget_fault faults] at looked
      rw [← Except.ok.inj looked] at ok
      exact ok (show pageFault ≠ translateOk by decide)
    have ends' := (same.endsAt a).mpr ends
    rw [EndsAt,readWord_shown read quiet,Ne,Option.some_inj,Bool.not_eq_false] at ends'
    dsimp only
    rw [if_pos ends']
    exact halts_ok _

/-- A round that is not the last leaves the memory that is seen as it is. -/
theorem dumpStringLoop_further (further : ¬EndsAt s a) (rounds : Nat) :
    ∃ t, SameSight s t ∧
      dumpStringLoop s a (rounds + 1) = dumpStringLoop t (a + wordSize) rounds := by
  obtain ⟨word,shown,open'⟩ := Option.map_eq_some_iff.mp (not_not.mp further)
  cases arrived : arrival s a with
  | fault => simp [shownWord,arrived] at shown
  | lost => simp [shownWord,arrived] at shown
  | reached p flagged =>
    obtain ⟨translation,translated,assigned,same,arrives⟩ := arrival_again arrived
    have covered : ∃ range, getPhysMemRange s.memoryMap p = some range := by
      cases found : getPhysMemRange s.memoryMap p with
      | none => simp [shownWord,arrived,wordThere,found] at shown
      | some range => exact ⟨range,rfl⟩
    obtain ⟨range,found⟩ := covered
    have later : ¬EndsAt translation.state a := by rwa [same.endsAt]
    obtain ⟨data,there,open''⟩ := Option.map_eq_some_iff.mp (not_not.mp later)
    rw [shownWord,arrives] at there
    refine ⟨translation.state, same, ?_⟩
    rw [dumpStringLoop,getMemoryTarget_covered translated assigned found,ok_bind,
      if_neg (not_not.mpr (show translateOk = translateOk from rfl)),
      (readWord_there arrives).mpr ⟨there,rfl⟩,ok_bind]
    dsimp only
    rw [if_neg (by simp [open''])]

end Round

/-- The loop ends at the first end that it comes to. -/
theorem dumpStringLoop_halts_iff (s : State) (a : Word) (rounds : Nat) :
    Halts (dumpStringLoop s a rounds) ↔ ∃ k < rounds, EndsAt s (roundAddress a k) := by
  induction rounds generalizing s a with
  | zero => exact iff_of_false (fun halts => halts rfl) (by simp)
  | succ rounds ih =>
    have start := roundAddress_zero a
    by_cases ends : EndsAt s a
    · exact iff_of_true (dumpStringLoop_last ends rounds)
        ⟨0, Nat.succ_pos rounds, by rwa [start]⟩
    · obtain ⟨t,same,later⟩ := dumpStringLoop_further ends rounds
      rw [later,ih]
      constructor
      · rintro ⟨k,bound,here⟩
        rw [same.endsAt,← roundAddress_succ] at here
        exact ⟨k + 1, Nat.succ_lt_succ bound, here⟩
      · rintro ⟨k,bound,here⟩
        cases k with
        | zero =>
          rw [start] at here
          exact absurd here ends
        | succ k =>
          refine ⟨k, Nat.lt_of_succ_lt_succ bound, ?_⟩
          rwa [same.endsAt,← roundAddress_succ]

/-- The dump returns from the address: it does not translate, or nothing is there, or the word that is
there ends a string. -/
def StopsAt (s : State) (a : Word) : Prop :=
  arrival s a = .fault ∨
    (∃ p, (∃ flagged, arrival s a = .reached p flagged) ∧ getPhysMemRange s.memoryMap p = none) ∨
    (shownWord s a).map dataTerminated = some true

theorem SameSight.stopsAt {s t : State} (same : SameSight s t) (a : Word) :
    StopsAt t a ↔ StopsAt s a := by
  simp only [StopsAt,same.fault,same.reached,same.map,same.shown]

theorem StopsAt.ends {s : State} (stops : StopsAt s a) : EndsAt s a := by
  rcases stops with fault | ⟨p,⟨flagged,arrived⟩,outside⟩ | terminated
  · simp [EndsAt,shownWord,fault]
  · simp [EndsAt,shownWord,arrived,wordThere,outside]
  · simp [EndsAt,terminated]

/-- The last round returns, or the process ends in it. -/
theorem dumpStringLoop_last_iff {s : State} (ends : EndsAt s a) (rounds : Nat) :
    Returns (dumpStringLoop s a (rounds + 1)) ↔ StopsAt s a := by
  rw [dumpStringLoop]
  cases arrived : arrival s a with
  | fault =>
    rw [getMemoryTarget_fault ((arrival_fault_iff s a).mp arrived),ok_bind,
      if_pos (show pageFault ≠ translateOk by decide)]
    exact iff_of_true (returns_ok _) (Or.inl arrived)
  | lost =>
    obtain ⟨e,stops⟩ := arrival_lost arrived
    rw [stops]
    exact iff_of_false (not_returns_error e) (by simp [StopsAt,shownWord,arrived])
  | reached p flagged =>
    obtain ⟨translation,translated,assigned,same,arrives⟩ := arrival_again arrived
    rw [← same.stopsAt]
    rw [← same.endsAt] at ends
    cases found : getPhysMemRange s.memoryMap p with
    | none =>
      rw [getMemoryTarget_uncovered translated assigned found,ok_bind,
        if_pos (show (-2 : Int) ≠ translateOk by decide)]
      rw [← same.map] at found
      exact iff_of_true (returns_ok _) (Or.inr (Or.inl ⟨p,⟨_,arrives⟩,found⟩))
    | some range =>
      rw [getMemoryTarget_covered translated assigned found,ok_bind,
        if_neg (not_not.mpr (show translateOk = translateOk from rfl))]
      rw [← same.map] at found
      cases there : wordThere translation.state p with
      | none =>
        obtain ⟨e,stops⟩ := readWord_missing arrives there
        rw [stops]
        exact iff_of_false (not_returns_error e) (by simp [StopsAt,shownWord,arrives,there,found])
      | some word =>
        have shown : shownWord translation.state a = some word := by simp [shownWord,arrives,there]
        have terminated : dataTerminated word = true := by simpa [EndsAt,shown] using ends
        rw [(readWord_there arrives).mpr ⟨there,rfl⟩,ok_bind]
        dsimp only
        rw [if_pos terminated]
        exact iff_of_true (returns_ok _) (Or.inr (Or.inr (by rw [shown]; exact congrArg some terminated)))

/-- The words before the end of a string are there, and so is the end, if it is not that of the memory
that is mapped. -/
def StringShown (s : State) (a : Word) : Prop :=
  ∃ k, (∀ j < k, ¬EndsAt s (roundAddress a j)) ∧ StopsAt s (roundAddress a k)

theorem dumpStringLoop_returns_iff (s : State) (a : Word) (rounds : Nat) :
    Returns (dumpStringLoop s a rounds) ↔
      ∃ k < rounds, (∀ j < k, ¬EndsAt s (roundAddress a j)) ∧ StopsAt s (roundAddress a k) := by
  induction rounds generalizing s a with
  | zero => exact iff_of_false (not_returns_error _) (by simp)
  | succ rounds ih =>
    have start := roundAddress_zero a
    by_cases ends : EndsAt s a
    · rw [dumpStringLoop_last_iff ends]
      constructor
      · exact fun stops => ⟨0, Nat.succ_pos rounds, by simp, by rwa [start]⟩
      · rintro ⟨k,_,before,stops⟩
        cases k with
        | zero => rwa [start] at stops
        | succ k => exact absurd ends (by simpa [start] using before 0 (Nat.succ_pos k))
    · obtain ⟨t,same,later⟩ := dumpStringLoop_further ends rounds
      rw [later,ih]
      simp only [same.endsAt,same.stopsAt,← roundAddress_succ]
      constructor
      · rintro ⟨k,bound,before,stops⟩
        refine ⟨k + 1, Nat.succ_lt_succ bound, ?_, stops⟩
        rintro (_ | j) small
        · rwa [start]
        · exact before j (Nat.lt_of_succ_lt_succ small)
      · rintro ⟨k,bound,before,stops⟩
        cases k with
        | zero =>
          rw [start] at stops
          exact absurd stops.ends ends
        | succ k =>
          exact ⟨k, Nat.lt_of_succ_lt_succ bound, fun j small => before (j + 1) (Nat.succ_lt_succ small),
            stops⟩

/-- The addresses come again, so that the first end is within the rounds of the model. -/
theorem dumpStringVirtual_returns_iff (s : State) (a : Word) :
    Returns (dumpStringVirtual s a) ↔ StringShown s a := by
  rw [dumpStringVirtual,dumpStringLoop_returns_iff]
  constructor
  · rintro ⟨k,_,shown⟩
    exact ⟨k,shown⟩
  · rintro ⟨k,before,stops⟩
    refine ⟨k, ?_, before, stops⟩
    by_contra long
    have early := before (k % 2 ^ 30) ((Nat.mod_lt k (by decide)).trans_le (Nat.le_of_not_lt long))
    rw [roundAddress_mod] at early
    exact early stops.ends

/-- The string that begins at an address comes to an end. -/
def StringEnds (s : State) (a : Word) : Prop := ∃ k, EndsAt s (roundAddress a k)

theorem dumpStringVirtual_halts_iff (s : State) (a : Word) :
    Halts (dumpStringVirtual s a) ↔ StringEnds s a := by
  rw [dumpStringVirtual,dumpStringLoop_halts_iff]
  constructor
  · rintro ⟨k,_,here⟩
    exact ⟨k,here⟩
  · rintro ⟨k,here⟩
    exact ⟨k % 2 ^ 30, Nat.mod_lt k (by decide), by rwa [roundAddress_mod]⟩

/-- The calls that pass a file name. -/
def TracesName (s : State) : Prop :=
  s.privilege = privU ∧
    (s.x (regA 7) = 56 ∨ s.x (regA 7) = 48 ∨ s.x (regA 7) = 291 ∨ s.x (regA 7) = 78)

theorem ecall_halts_iff (s : State) :
    Halts (ecall s) ↔ (TracesName s → StringEnds s (s.x (regA 1))) := by
  have traced : Halts (ecall s) ↔ Halts (traceEcall s) := by
    rw [ecall]
    cases traceEcall s with
    | error e => exact Iff.rfl
    | ok t => exact iff_of_true (halts_ok _) (halts_ok _)
  rw [traced,traceEcall]
  split
  next user =>
    dsimp only
    split
    next name =>
      have traces : TracesName s := ⟨user,name⟩
      rw [dumpStringVirtual_halts_iff]
      exact ⟨fun ends _ => ends, fun ends => ends traces⟩
    next other =>
      refine iff_of_true ?_ fun traces => absurd traces.2 other
      split
      next => exact halts_error (by decide)
      next => exact halts_ok _
  next other => exact iff_of_true (halts_ok _) fun traces => absurd traces.1 other

/-- The number of rounds has a bound if and only if the string has an end, in the memory that the
dump begins with, and then the tracing of a call has one. -/
theorem stringDump_halts_iff (s : State) (a : Word) :
    ((∃ rounds, Halts (dumpStringLoop s a rounds)) ↔ StringEnds s a) ∧
      (Halts (dumpStringVirtual s a) ↔ StringEnds s a) ∧
      (Halts (ecall s) ↔ (TracesName s → StringEnds s (s.x (regA 1)))) := by
  refine ⟨?_, dumpStringVirtual_halts_iff s a, ecall_halts_iff s⟩
  simp only [dumpStringLoop_halts_iff]
  constructor
  · rintro ⟨rounds,k,_,here⟩
    exact ⟨k,here⟩
  · rintro ⟨k,here⟩
    exact ⟨k + 1, k, Nat.lt_succ_self k, here⟩

/-- A call of `openat` in the Linux machine, with every entry of the root table pointing to one
table, and every entry of that to one page, which is full of the letter A. -/
def aliasedPage : State := { guest privU [] with
  x := Function.update (fun _ => 0) (regA 7) 56
  memoryMap := linuxMemoryMap
  ram := fun _ offset =>
    if offset < 0x1000 then byteOf 0x20000401 (offset % 4)
    else if offset < 0x2000 then byteOf 0x200008df (offset % 4)
    else 0x41 }

theorem linuxMemoryMap_ram (offset : Nat) (inside : offset < 0x10000) :
    getPhysMemRange linuxMemoryMap (BitVec.ofNat 32 (0x80000000 + offset)) =
      some ⟨0, ⟨ramBaseAddr,vmMemorySize,true,none,none⟩⟩ := by
  have covers : ramBaseAddr ≤ BitVec.ofNat 32 (0x80000000 + offset) ∧
      BitVec.ofNat 32 (0x80000000 + offset) < ramBaseAddr + vmMemorySize := by
    rw [BitVec.le_def,BitVec.lt_def,BitVec.toNat_ofNat]
    have base : ramBaseAddr.toNat = 0x80000000 := rfl
    have limit : (ramBaseAddr + vmMemorySize).toNat = 0x86000000 := rfl
    rw [base,limit]
    omega
  rw [getPhysMemRange,linuxMemoryMap,getPhysMemRangeFrom,if_pos covers]

theorem wordLocation_ram (offset : Nat) (inside : offset < 0x10000) :
    wordLocation linuxMemoryMap (BitVec.ofNat 32 (0x80000000 + offset)) = some ⟨0,offset⟩ := by
  have place : (BitVec.ofNat 32 (0x80000000 + offset) - ramBaseAddr).toNat = offset := by
    have base : ramBaseAddr = 0x80000000#32 := rfl
    rw [base]
    simp
    omega
  have size : vmMemorySize.toNat = 0x6000000 := rfl
  rw [wordLocation,linuxMemoryMap_ram offset inside]
  dsimp only
  rw [place,size,if_pos ⟨rfl,by omega⟩]

theorem deref_bytes {s : State} (p : WordPtr) (word : Word)
    (bytes : ∀ k < 4, s.ram p.buffer (p.offset + k) = byteOf word k) : deref s p = word := by
  apply word_ext
  intro k bound
  rw [byteOf_deref s p k bound,bytes k bound]

theorem aliasedPage_pteAt (a : Word) (level : Nat) {page : Nat} (table : page < 2) (entry : Word)
    (bytes : ∀ index < 1024, ∀ k < 4,
      aliasedPage.ram 0 (0x1000 * page + 4 * index + k) = byteOf entry k) :
    pteAt aliasedPage (Sv32.entryAddress 32 a level (0x80000 + page)) = some entry := by
  have index : Sv32.vpn a level < 1024 := Nat.mod_lt _ (by decide)
  have place : Sv32.entryAddress 32 a level (0x80000 + page) =
      0x80000000 + (0x1000 * page + 4 * Sv32.vpn a level) := by
    unfold Sv32.entryAddress
    omega
  have located : wordLocation aliasedPage.memoryMap
      (BitVec.ofNat 32 (0x80000000 + (0x1000 * page + 4 * Sv32.vpn a level))) =
        some ⟨0, 0x1000 * page + 4 * Sv32.vpn a level⟩ := wordLocation_ram _ (by omega)
  rw [place,pteAt,if_pos (by omega),located,Option.map_some]
  exact congrArg some (deref_bytes _ entry fun k bound => bytes _ index k bound)

theorem aliasedPage_walk (a : Word) :
    ∃ address, busWalk aliasedPage a = .leaf 0 address 0x200008df := by
  have root : pteAt aliasedPage (Sv32.entryAddress 32 a 1 0x80000) = some 0x20000401 := by
    refine aliasedPage_pteAt a 1 (show 0 < 2 by decide) _ fun index inside k bound => ?_
    have low : 0x1000 * 0 + 4 * index + k < 0x1000 := by omega
    have byte : (0x1000 * 0 + 4 * index + k) % 4 = k := by omega
    simp only [aliasedPage,low,byte,if_true]
  have table : pteAt aliasedPage (Sv32.entryAddress 32 a 0 0x80001) = some 0x200008df := by
    refine aliasedPage_pteAt a 0 (show 1 < 2 by decide) _ fun index inside k bound => ?_
    have low : ¬0x1000 * 1 + 4 * index + k < 0x1000 := by omega
    have high : 0x1000 * 1 + 4 * index + k < 0x2000 := by omega
    have byte : (0x1000 * 1 + 4 * index + k) % 4 = k := by omega
    simp only [aliasedPage,low,high,byte,if_true,if_false]
  refine ⟨Sv32.entryAddress 32 a 0 0x80001, ?_⟩
  change Sv32.walk 32 (pteAt aliasedPage) a 1 0x80000 = _
  rw [Sv32.walk,Sv32.visit_pointer root (by decide)]
  change Sv32.walk 32 (pteAt aliasedPage) a 0 0x80001 = _
  rw [Sv32.walk,Sv32.visit_leaf table (by decide)]

theorem aliasedPage_open (a : Word) : ¬EndsAt aliasedPage a := by
  obtain ⟨address,walk⟩ := aliasedPage_walk a
  have walks : Walks aliasedPage := ⟨by decide, by decide⟩
  have inside : Sv32.pageOffset a 0 < 0x1000 := Nat.mod_lt _ (by decide)
  have place : leafPhysical 0 0x200008df a =
      BitVec.ofNat 32 (0x80000000 + (0x2000 + Sv32.pageOffset a 0)) := by
    apply BitVec.eq_of_toNat_eq
    rw [leafPhysical_toNat (by decide) _ _ (by decide) (by decide),BitVec.toNat_ofNat]
    have ppn : Sv32.Pte.ppn 0x200008df = 0x80002 := by decide
    rw [ppn]
    omega
  have word : deref aliasedPage ⟨0, 0x2000 + Sv32.pageOffset a 0⟩ = 0x41414141 := by
    apply deref_bytes
    intro k bound
    have low : ¬0x2000 + Sv32.pageOffset a 0 + k < 0x1000 := by omega
    have high : ¬0x2000 + Sv32.pageOffset a 0 + k < 0x2000 := by omega
    simp only [aliasedPage,low,high,if_false]
    interval_cases k <;> rfl
  have found : getPhysMemRange aliasedPage.memoryMap (leafPhysical 0 0x200008df a) =
      some ⟨0, ⟨ramBaseAddr,vmMemorySize,true,none,none⟩⟩ := by
    rw [place]
    exact linuxMemoryMap_ram _ (by omega)
  have located : wordLocation aliasedPage.memoryMap (leafPhysical 0 0x200008df a) =
      some ⟨0, 0x2000 + Sv32.pageOffset a 0⟩ := by
    rw [place]
    exact wordLocation_ram _ (by omega)
  have there : wordThere aliasedPage (leafPhysical 0 0x200008df a) = some 0x41414141 := by
    rw [wordThere,found]
    dsimp only
    rw [if_pos rfl,located,Option.map_some,word]
  have shown : shownWord aliasedPage a = some 0x41414141 := by
    rw [shownWord,arrival,if_pos walks,walk]
    exact there
  rw [EndsAt,shown,not_not]
  rfl

/-- The dump runs for ever, wherever it begins, and with it the trace of the call. -/
theorem aliasedPage_hangs : (∀ a rounds, ¬Halts (dumpStringLoop aliasedPage a rounds)) ∧
    (∀ a, ¬Halts (dumpStringVirtual aliasedPage a)) ∧ ¬Halts (ecall aliasedPage) := by
  have never (a : Word) : ¬StringEnds aliasedPage a := fun ⟨_,ends⟩ => aliasedPage_open _ ends
  refine ⟨fun a rounds halts => ?_, fun a halts => ?_, fun halts => ?_⟩
  · obtain ⟨k,_,ends⟩ := (dumpStringLoop_halts_iff ..).mp halts
    exact aliasedPage_open _ ends
  · exact never a ((dumpStringVirtual_halts_iff ..).mp halts)
  · have traces : TracesName aliasedPage := ⟨rfl, Or.inl rfl⟩
    exact never _ ((ecall_halts_iff _).mp halts traces)

end Emuriscv
