import Emuriscv.Footprint
import Emuriscv.Reset

/-! The two builds of `ecall`. Tracing is a debug print, but it dumps the file name of a call
through `get_memory_target`, right before the trap that takes `pending_tval` for its value. -/
namespace Emuriscv

/-- The handler where `NO_TRACE_ECALLS` is defined. -/
def ecallUntraced (s : State) : Except Stop State := pure (raiseEcall s)

def executeUntraced [Platform] (op : Op) (s : State) (instruction : WordPtr) : Except Stop State :=
  match op with
  | .ecall => ecallUntraced s
  | op => execute op s instruction

/-- `emulate_op` of the build without tracing. -/
def emulateOpUntraced [Platform] (s : State) : Except Stop State := do
  let l ← getMemoryTarget s s.pc .fetch
  let s := { l.state with pc := l.state.pc + 4 }
  if l.status ≠ translateOk then
    pure (raiseException s s.pendingException s.pendingTval)
  else
    let instruction ← codePtr s l.target
    match decode (deref s instruction) with
    | some op =>
      let s ← executeUntraced op s instruction
      pure (finishOp s)
    | none => throw (.exit exitIllegalInstruction)

/-- The calls whose second argument is dumped: `openat`, `faccessat`, `statx`, `readlinkat`. -/
def NamesFile (nr : Word) : Prop := nr = 56 ∨ nr = 48 ∨ nr = 291 ∨ nr = 78

instance (nr : Word) : Decidable (NamesFile nr) := inferInstanceAs (Decidable (_ ∨ _))

/-- The dump of a string ends after looks that change nothing; if it ends in a page fault, the
address is the one that `pending_tval` holds already. -/
def DumpsSilently (s : State) (a : Word) : Prop :=
  ∃ looks, stringLooks s a (2 ^ 30) = some looks ∧ (∀ look ∈ looks, look.Harmless s) ∧
    ∀ b, (faultsOf s looks).getLast? = some b → s.pendingTval = b

/-- Apart from cause and value, a trap does not depend on what is pending. -/
theorem raiseException_pendingOnly {s t : State} (only : PendingOnly s t) (cause tval : Word) :
    raiseException t cause tval = raiseException s cause tval := by
  rw [only]
  rfl

theorem raiseEcall_pendingOnly {s t : State} (only : PendingOnly s t) (user : s.privilege = privU)
    (tval : t.pendingTval = s.pendingTval) : raiseEcall t = raiseEcall s := by
  have cause : ecallCause t = ecallCause s := by
    rw [only,ecallCause,ecallCause,user]
    rfl
  have raised : PendingOnly { s with pendingException := ecallCause s }
      { t with pendingException := ecallCause s } := by
    unfold PendingOnly
    rw [only]
  rw [raiseEcall,raiseEcall,cause]
  dsimp only
  rw [raiseException_pendingOnly raised,tval]

/-- The trap shows the RAM and the pending value that it was taken with. -/
theorem finishOp_raiseEcall {s t : State} (same : finishOp (raiseEcall t) = finishOp (raiseEcall s)) :
    t.ram = s.ram ∧ t.pendingTval = s.pendingTval := by
  have kept (u : State) (quiet : u.hasPendingException = false) :
      (finishOp u).ram = u.ram ∧ (finishOp u).traps = u.traps := by
    rw [finishOp_quiet quiet]
    exact ⟨rfl,rfl⟩
  have shown (u : State) : (finishOp (raiseEcall u)).ram = u.ram ∧
      (finishOp (raiseEcall u)).traps = ⟨u.pc, ecallCause u, u.pendingTval⟩ :: u.traps := by
    have quiet : (raiseEcall u).hasPendingException = false := raiseException_pending ..
    rw [(kept _ quiet).1,(kept _ quiet).2,raiseEcall]
    dsimp only
    rw [(raiseException_frame _ _ _).2.1,raiseException_traps]
    exact ⟨rfl,rfl⟩
  have ram := congrArg State.ram same
  have traps := congrArg State.traps same
  rw [(shown t).1,(shown s).1] at ram
  rw [(shown t).2,(shown s).2,List.cons.injEq,Trap.mk.injEq] at traps
  exact ⟨ram, traps.1.2.2⟩

theorem traceEcall_user {s : State} (user : s.privilege = privU)
    (monitored : s.x (regA 7) ≠ 422 ∧ s.x (regA 7) ≠ 98) :
    traceEcall s =
      if NamesFile (s.x (regA 7)) then dumpStringVirtual s (s.x (regA 1)) else .ok s := by
  have other : ¬(s.x (regA 7) = 422 ∨ s.x (regA 7) = 98) := by
    rintro (same | same)
    · exact monitored.1 same
    · exact monitored.2 same
  unfold traceEcall NamesFile
  rw [if_pos user]
  dsimp only
  rw [if_neg other]
  rfl

/-- A dump before the trap goes unnoticed if and only if it is silent. -/
theorem dump_unnoticed_iff {s : State} (user : s.privilege = privU) (a : Word) :
    (∃ t, dumpStringVirtual s a = .ok t ∧ finishOp (raiseEcall t) = finishOp (raiseEcall s)) ↔
      DumpsSilently s a := by
  constructor
  · rintro ⟨t,dumped,same⟩
    obtain ⟨ram,tval⟩ := finishOp_raiseEcall same
    obtain ⟨looks,here,harmless,rfl⟩ := (dumpStringLoop_iff s t a (2 ^ 30)).mp ⟨dumped,ram⟩
    refine ⟨looks, here, harmless, fun b last => ?_⟩
    rw [afterFaults,last] at tval
    exact tval.symm
  · rintro ⟨looks,here,harmless,silent⟩
    have dumped := (dumpStringLoop_iff s _ a (2 ^ 30)).mpr ⟨looks,here,harmless,rfl⟩
    have tval : (afterFaults s (faultsOf s looks)).pendingTval = s.pendingTval := by
      unfold afterFaults
      split
      next b last => exact (silent b last).symm
      next => rfl
    refine ⟨_, dumped.1, congrArg finishOp ?_⟩
    exact raiseEcall_pendingOnly (afterFaults_pendingOnly ..) user tval

/-- A name on a page that is not mapped. -/
theorem dumpsSilently_fault {s : State} (fault : arrival s a = .fault) :
    DumpsSilently s a ↔ s.pendingTval = a := by
  have looks : stringLooks s a (2 ^ 30) = some [.probe a] := by
    change stringLooks s a (2 ^ 30 - 1 + 1) = _
    rw [stringLooks,fault]
  have faults : faultsOf s [.probe a] = [a] := by simp [faultsOf,Look.fault,fault]
  have harmless : ∀ look ∈ [Look.probe a], look.Harmless s := by simp [Look.Harmless,fault]
  rw [DumpsSilently,looks]
  constructor
  · rintro ⟨found,here,_,silent⟩
    obtain rfl := Option.some.inj here
    exact silent a (by rw [faults]; rfl)
  · intro same
    refine ⟨_, rfl, harmless, fun b last => ?_⟩
    rw [faults] at last
    rwa [← Option.some.inj last]

section Step

variable [Platform] {s f : State} {p : WordPtr}

theorem emulateOpUntraced_ecall (fetched : Fetches s f p .ecall) :
    emulateOpUntraced s = .ok (finishOp (raiseEcall f)) := by
  obtain ⟨l,looked,ok,rfl,located⟩ := fetched.looked
  have decoded := fetched.decoded
  unfold emulateOpUntraced
  rw [looked,ok_bind]
  dsimp only
  rw [if_neg (not_not.mpr ok),located,ok_bind,decoded]
  rfl

/-- Both builds step to the same state if and only if there is no name to dump, or its dump is
silent. -/
theorem emulateOp_untraced_iff (fetched : Fetches s f p .ecall) (user : s.privilege = privU)
    (monitored : s.x (regA 7) ≠ 422 ∧ s.x (regA 7) ≠ 98) :
    emulateOp s = emulateOpUntraced s ↔
      (NamesFile (s.x (regA 7)) → DumpsSilently f (s.x (regA 1))) := by
  have x : f.x = s.x := by rw [fetched.frame]
  have user' : f.privilege = privU := by
    rw [fetched.frame]
    exact user
  rw [emulateOpUntraced_ecall fetched,emulateOp_fetched fetched]
  change (ecall f >>= fun t => pure (finishOp t)) = _ ↔ _
  rw [ecall,traceEcall_user user' (by rwa [x]),x]
  by_cases names : NamesFile (s.x (regA 7))
  · rw [if_pos names,← dump_unnoticed_iff user']
    simp only [names,true_implies]
    cases dumpStringVirtual f (s.x (regA 1)) with
    | error e => simp
    | ok t => simp
  · rw [if_neg names]
    exact iff_of_true rfl fun named => absurd named names

end Step

/-- `ecall` for `openat` in U mode. The first 4 MiB are mapped, and the name lies behind them. -/
def openatMachine : State :=
  { guest privU [superpageEntry, 0, 0x73] with
    pc := 8
    x := fun r => if r = regA 7 then 56 else if r = regA 1 then 0x400000 else 0 }

/-- The machine after the fetch; the page was flagged before. -/
def openatFetched : State :=
  { markEntry openatMachine 0x80000000 superpageEntry .fetch with pc := 12 }

theorem openatMachine_fetches : Fetches openatMachine openatFetched ⟨0,8⟩ .ecall := by
  have paged : Paged openatMachine := ⟨Or.inr rfl, (guest_paged (Or.inr rfl) [superpageEntry]).mode⟩
  have leaf : busWalk openatMachine openatMachine.pc = .leaf 1 0x80000000 superpageEntry := by decide
  exact fetches_of_leaf paged leaf (by decide) (by decide)

theorem emulateOp_untraced_openatMachine :
    @emulateOp clearingPlatform openatMachine = @emulateOpUntraced clearingPlatform openatMachine ↔
      (NamesFile 56 → DumpsSilently openatFetched 0x400000) :=
  @emulateOp_untraced_iff clearingPlatform openatMachine openatFetched ⟨0,8⟩ openatMachine_fetches rfl
    (by decide)

/-- The trap of the traced build has the address of the name for its value. -/
theorem openat_traced_differs : openatMachine.privilege = privU ∧ openatMachine.x (regA 7) = 56 ∧
    @emulateOp clearingPlatform openatMachine ≠
      @emulateOpUntraced clearingPlatform openatMachine := by
  let _ : Platform := clearingPlatform
  refine ⟨rfl, rfl, ?_⟩
  have fault : arrival openatFetched 0x400000 = .fault := by decide
  have tval : openatFetched.pendingTval = 0 := rfl
  rw [emulateOpUntraced_ecall openatMachine_fetches,emulateOp_fetched openatMachine_fetches]
  change (ecall openatFetched >>= fun t => pure (finishOp t)) ≠ _
  rw [ecall,traceEcall_user rfl (by decide),if_pos (by decide)]
  intro same
  obtain ⟨t,called,rest⟩ := bind_eq_ok.mp same
  obtain ⟨u,dumped,raised⟩ := bind_eq_ok.mp called
  obtain rfl := Except.ok.inj raised
  have silent := (dump_unnoticed_iff rfl _).mp ⟨u, dumped, Except.ok.inj rest⟩
  have same := (dumpsSilently_fault fault).mp silent
  rw [tval] at same
  exact absurd same (by decide)

end Emuriscv
