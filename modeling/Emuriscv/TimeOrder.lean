import Emuriscv.LinuxRun
import Emuriscv.IntegerStep

/-! The order of the times that a guest reads. The clock is a 32-bit word on its way to the two
64-bit times: it starts over after `2 ^ 32` instructions, and nothing carries into the high
halves. -/
namespace Emuriscv

open LabelledRun

/-- The time in the CLINT. -/
def clintTime (s : State) : Quadword := clintRead s sifiveTimeHigh ++ clintRead s sifiveTimeLow

/-- The time in the CSRs. -/
def csrPairTime (s : State) : Quadword := readCsr s csrTimeh ++ readCsr s csrTime

/-- Neither time is earlier in the second state. -/
def NotEarlier (s t : State) : Prop := clintTime s ≤ clintTime t ∧ csrPairTime s ≤ csrPairTime t

/-- The step counts an instruction when the counter is at its end. -/
def Wraps (s : State) : Prop :=
  s.instructionCounter = 0xffffffff ∧ ∃ f instruction op, Fetches s f instruction op

/-- The CSR instruction leaves less in its CSR: `csrrw` with a smaller operand, or one of those
that clear bits with a bit that is set. -/
def Lowers (op : CsrOp) (f : State) (instruction : WordPtr) : Prop :=
  let old := readCsr f (csrNumber f instruction)
  match op with
  | .csrrw => csrOperand op f instruction < old
  | .csrrs | .csrrsi => False
  | .csrrc | .csrrwi | .csrrci => csrOperand op f instruction &&& old ≠ 0

/-- The instruction at `pc` takes something off `timeh`. -/
def LowersTimeh (s : State) : Prop :=
  ∃ f instruction op csrOp, Fetches s f instruction op ∧ op.csrOp = some csrOp ∧
    csrNumber f instruction = csrTimeh ∧ Lowers csrOp f instruction

theorem append_le_iff {a b c d : Word} (low : b ≤ d) : a ++ b ≤ c ++ d ↔ a ≤ c := by
  have below : b.toNat ≤ d.toNat := low
  have bound := d.isLt
  have value (u v : Word) : (u ++ v).toNat = u.toNat * 2 ^ 32 + v.toNat := by
    rw [BitVec.toNat_append,Nat.shiftLeft_eq,← Nat.shiftLeft_eq]
    exact (Nat.shiftLeft_add_eq_or_of_lt v.isLt u.toNat).symm
  rw [BitVec.le_def,BitVec.le_def,value,value]
  omega

theorem le_succ_iff (a : Word) : a ≤ a + 1 ↔ a ≠ 0xffffffff := by
  constructor
  · rintro below rfl
    contradiction
  · intro room
    have bound := a.isLt
    have inside : a.toNat ≠ 2 ^ 32 - 1 := fun last => room (BitVec.eq_of_toNat_eq last)
    rw [BitVec.le_def,BitVec.toNat_add]
    simp
    omega

theorem le_and_not_iff (a b : Word) : a ≤ a &&& ~~~b ↔ b &&& a = 0 := by
  have smaller : a &&& ~~~b ≤ a := by
    rw [BitVec.le_def,BitVec.toNat_and]
    exact Nat.and_le_left
  constructor
  · intro above
    have same : a &&& ~~~b = a := BitVec.le_antisymm smaller above
    have apart : b &&& (a &&& ~~~b) = 0 := by
      apply BitVec.eq_of_getLsbD_eq
      intro i bound
      cases bit : b.getLsbD i <;> simp [bit]
    rwa [same] at apart
  · intro disjoint
    rw [BitVec.and_comm] at disjoint
    rw [and_not_of_and_eq_zero disjoint]
    exact BitVec.le_refl a

theorem le_or (a b : Word) : a ≤ a ||| b := by
  rw [BitVec.le_def,BitVec.toNat_or]
  exact Nat.left_le_or

theorem Clocks.clintTime_eq (clocks : Clocks s) : clintTime s = s.instructionCounter.setWidth 64 := by
  have parts : clintTime s = (s.vm.cycles >>> 32).setWidth 32 ++ s.vm.cycles.setWidth 32 := rfl
  rw [parts,clocks.cycles]
  apply BitVec.eq_of_getLsbD_eq
  intro i bound
  rw [BitVec.getLsbD_append]
  by_cases low : i < 32
  · simp [low,bound]
  · have above : ¬32 + (i - 32) < 32 := by omega
    have beyond : s.instructionCounter.getLsbD i = false := BitVec.getLsbD_of_ge _ _ (by omega)
    simp [low,beyond]

theorem Clocks.clintTime_le_iff (clocks : Clocks s) (later : Clocks t) :
    clintTime s ≤ clintTime t ↔ s.instructionCounter ≤ t.instructionCounter := by
  have bound := s.instructionCounter.isLt
  have bound' := t.instructionCounter.isLt
  rw [clocks.clintTime_eq,later.clintTime_eq,BitVec.le_def,BitVec.le_def]
  simp only [BitVec.toNat_setWidth]
  omega

theorem Clocks.csrPairTime_le_iff (clocks : Clocks s) (later : Clocks t)
    (counter : s.instructionCounter ≤ t.instructionCounter) :
    csrPairTime s ≤ csrPairTime t ↔ readCsr s csrTimeh ≤ readCsr t csrTimeh := by
  rw [← clocks.time,← later.time] at counter
  exact append_le_iff counter

theorem csrWritten_le_iff (op : CsrOp) (f : State) (instruction : WordPtr) :
    readCsr f (csrNumber f instruction) ≤ csrWritten op f instruction ↔ ¬Lowers op f instruction := by
  cases op with
  | csrrw => simp [csrWritten,Lowers]
  | csrrs | csrrsi => simp [csrWritten,Lowers,le_or]
  | csrrc | csrrwi | csrrci => simp only [csrWritten,Lowers,le_and_not_iff,ne_eq,not_not]

theorem timeh_le_iff [Platform] (step : emulateOp s = .ok t) :
    readCsr s csrTimeh ≤ readCsr t csrTimeh ↔ ¬LowersTimeh s := by
  cases emulateOp_counts step with
  | unfetched none counter csr =>
    rw [csr csrTimeh (by decide)]
    exact iff_of_true (BitVec.le_refl _) fun ⟨f,instruction,op,_,fetched,_⟩ => none f instruction op fetched
  | @counted f instruction op fetched counter time cycle csr =>
    rcases csr csrTimeh (by decide) with ⟨apart,kept⟩ | ⟨csrOp,found,addressed,wrote⟩
    · rw [kept]
      refine iff_of_true (BitVec.le_refl _) ?_
      rintro ⟨_,_,_,csrOp,fetched',found,addressed,_⟩
      obtain ⟨rfl,rfl,rfl⟩ := fetched.unique fetched'
      exact apart csrOp found addressed
    · have lowers : LowersTimeh s ↔ Lowers csrOp f instruction := by
        constructor
        · rintro ⟨_,_,_,_,fetched',found',_,lowers⟩
          obtain ⟨rfl,rfl,rfl⟩ := fetched.unique fetched'
          obtain rfl := Option.some.inj (found.symm.trans found')
          exact lowers
        · exact fun lowers => ⟨f, instruction, op, csrOp, fetched, found, addressed, lowers⟩
      rw [wrote,← fetched.midStep.readCsr,← addressed,lowers]
      exact csrWritten_le_iff csrOp f instruction

theorem wraps_iff [Platform] (step : emulateOp s = .ok t) :
    s.instructionCounter ≤ t.instructionCounter ↔ ¬Wraps s := by
  cases emulateOp_counts step with
  | unfetched none counter csr =>
    rw [counter]
    exact iff_of_true (BitVec.le_refl _) fun ⟨_,f,instruction,op,fetched⟩ => none f instruction op fetched
  | @counted f instruction op fetched counter time cycle csr =>
    rw [counter,le_succ_iff]
    constructor
    · exact fun room wraps => room wraps.1
    · exact fun keeps last => keeps ⟨last, f, instruction, op, fetched⟩

/-- The step lemma. -/
theorem linuxStep_notEarlier [Platform] (clocks : Clocks s) (step : linuxStep s = .ok t) :
    NotEarlier s t ↔ ¬Wraps s ∧ ¬LowersTimeh s := by
  have later := linuxStep_clocks clocks step
  obtain ⟨u,ran,rfl⟩ := linuxStep_ok step
  rw [NotEarlier,clocks.clintTime_le_iff later,← wraps_iff ran,← timeh_le_iff ran]
  exact and_congr_right fun counter => clocks.csrPairTime_le_iff later counter

theorem NotEarlier.refl (s : State) : NotEarlier s s := ⟨BitVec.le_refl _, BitVec.le_refl _⟩

theorem NotEarlier.trans (first : NotEarlier s t) (second : NotEarlier t u) : NotEarlier s u :=
  ⟨BitVec.le_trans first.1 second.1, BitVec.le_trans first.2 second.2⟩

/-- The run lemma: a run that shows an earlier time later has counted an instruction past the end
of the counter, or the guest has set `timeh` back. -/
theorem linuxRun_time [Platform] (boot : AtBoot s) (run : LinuxRun s steps) :
    (states s steps).Pairwise NotEarlier ↔
      Every (fun s _ _ => ¬Wraps s ∧ ¬LowersTimeh s) s steps := by
  have ordered : (states s steps).Pairwise NotEarlier ↔ Every (fun s _ t => NotEarlier s t) s steps :=
    @pairwise_iff_every State Unit NotEarlier (fun _ _ _ => NotEarlier.trans) s steps
  refine ordered.trans (run.every_iff boot.clocks ?_ ?_)
  · exact fun _ _ _ clocks step => linuxStep_notEarlier clocks step
  · exact fun _ _ _ clocks step _ => linuxStep_clocks clocks step

/-- Two steps of the machine that boots into `jal x0, 0`. -/
theorem linuxRun_time_bootWord : ∃ t u, @LinuxRun clearingPlatform (bootWord 0x0000006f) [((),t),((),u)] ∧
    ([bootWord 0x0000006f, t, u].Pairwise NotEarlier ↔
      Every (fun s _ _ => ¬Wraps s ∧ ¬LowersTimeh s) (bootWord 0x0000006f) [((),t),((),u)]) := by
  obtain ⟨u,ran,_⟩ := exists_ok
    (x := @linuxStep clearingPlatform (bootWord 0x0000006f) >>= @linuxStep clearingPlatform)
    (fun _ => true) (by decide +kernel)
  obtain ⟨t,first,second⟩ := bind_eq_ok.mp ran
  have run : @LinuxRun clearingPlatform (bootWord 0x0000006f) [((),t),((),u)] :=
    .cons first (.cons second .nil)
  exact ⟨t, u, run, @linuxRun_time _ _ clearingPlatform (bootWord_boot _) run⟩

/-- The machine stays at `jal x0, 0`. -/
structure Spins (s : State) : Prop where
  direct : ¬Walks s
  noException : s.hasPendingException = false
  located : wordLocation s.memoryMap s.pc = some ⟨1,0x1000⟩
  word : deref s ⟨1,0x1000⟩ = 0x0000006f

theorem bootWord_spins : Spins (bootWord 0x0000006f) :=
  ⟨fun walks => walks.1 rfl, rfl, by decide, by decide⟩

theorem linuxStep_spins [Platform] (spins : Spins s) :
    ∃ t, linuxStep s = .ok t ∧ Spins t ∧ t.instructionCounter = s.instructionCounter + 1 := by
  have decoded : decode (deref s ⟨1,0x1000⟩) = some .jal := by
    rw [spins.word]
    decide
  have fetched := fetches_direct spins.direct spins.located decoded
  have stepped := emulateOp_executed fetched (execute_transfer _ ⟨1,0x1000⟩ rfl)
  have word : deref { s with pc := s.pc + 4 } ⟨1,0x1000⟩ = 0x0000006f := spins.word
  have stays : Rv32i.Transfer.jal.target s.x (s.pc + 4 - 4) 0x0000006f = s.pc := by
    have still : Rv32i.jImm 0x0000006f = 0 := by decide
    rw [BitVec.add_sub_cancel,Rv32i.Transfer.target,still]
    exact BitVec.add_zero _
  dsimp only at stepped
  rw [word,stays] at stepped
  generalize Rv32i.Transfer.jal.registers _ _ _ = x at stepped
  have quiet : ({ s with x := x } : State).hasPendingException = false := spins.noException
  rw [finishOp_quiet quiet] at stepped
  refine ⟨setCycles _, congrArg (· >>= fun t => pure (setCycles t)) stepped, ?_, rfl⟩
  exact ⟨spins.direct, spins.noException, spins.located, spins.word⟩

/-- The induction is on the number of iterations. -/
theorem linuxRun_spins [Platform] (spins : Spins s) (count : Nat) :
    ∃ steps, LinuxRun s steps ∧
      (final s steps).instructionCounter = s.instructionCounter + BitVec.ofNat 32 count := by
  induction count generalizing s with
  | zero => exact ⟨[], .nil, by simp [final]⟩
  | succ count ih =>
    obtain ⟨t,step,again,counter⟩ := linuxStep_spins spins
    obtain ⟨steps,run,total⟩ := ih again
    refine ⟨((),t) :: steps, .cons step run, ?_⟩
    rw [final,total,counter,BitVec.ofNat_add]
    ac_rfl

/-- After `2 ^ 32` iterations of a loop the time is zero again. -/
theorem spinning_clintTime : ∃ steps, @LinuxRun clearingPlatform (bootWord 0x0000006f) steps ∧
    ¬(states (bootWord 0x0000006f) steps).Pairwise NotEarlier := by
  let _ : Platform := clearingPlatform
  obtain ⟨t,step,spins,one⟩ := linuxStep_spins bootWord_spins
  obtain ⟨steps,run,total⟩ := linuxRun_spins spins (2 ^ 32 - 1)
  refine ⟨((),t) :: steps, .cons step run, fun ordered => ?_⟩
  have first := linuxStep_clocks (bootWord_boot _).clocks step
  have last : Clocks (final t steps) := run.states_invariant first
    (fun _ _ _ clocks step => linuxStep_clocks clocks step) _ (final_mem t steps)
  have notEarlier : NotEarlier t (final t steps) :=
    pairwise_final NotEarlier.refl (List.Pairwise.of_cons ordered)
  have below := (first.clintTime_le_iff last).mp notEarlier.1
  rw [total,one] at below
  exact absurd below (by decide)

end Emuriscv
