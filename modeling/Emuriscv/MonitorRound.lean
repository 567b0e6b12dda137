import Emuriscv.AttendedRun
import Emuriscv.WordDump

/-! When a round of `run_monitor_loop` returns. The words of its line have to be there for the branch
that is taken, and what the branch then does to the machine must not end the process. -/
namespace Emuriscv.Attended

open Monitor Numeral

theorem returns_map {α β : Type} {x : Except Stop α} (f : α → β) : Returns (x.map f) ↔ Returns x := by
  cases x with
  | error e => exact iff_of_false (not_returns_error e) (not_returns_error e)
  | ok a => exact iff_of_true (returns_ok _) (returns_ok a)

/-- The words of a dump are answered, from the first one to the last before the bound. -/
def DumpServed (sizeBits : Nat) (start : Word) (count : Nat) (answers : Word → Prop) : Prop :=
  ∃ n, dumpBound sizeBits start count ≤ (roundAddress start n).toNat ∧
    ∀ k < n, answers (roundAddress start k)

theorem dumpMemoryVirtual_returns_iff (sizeBits : Nat) (s : State) (start : Word) (count : Nat) :
    Returns (dumpMemoryVirtual sizeBits s start count) ↔ DumpServed sizeBits start count (Monitor.Answers s) :=
  dumpLoop_returns_iff dumpOne_returns_iff
    (fun _ _ _ shown b => answers_sight (dumpOne_sight shown) b) s start

theorem dumpMemoryPhysical_returns_iff (sizeBits : Nat) (s : State) (start : Word) (count : Nat) :
    Returns (dumpMemoryPhysical sizeBits s start count) ↔
      DumpServed sizeBits start count fun a => wordLocation s.memoryMap a ≠ none :=
  dumpLoop_returns_iff dumpOnePhysical_returns_iff
    (fun _ _ _ shown b => by rw [dumpOnePhysical_same shown]) s start

theorem dumpBacktrace_words (s : State) :
    dumpBacktrace s = ((List.finRange pcHistoryDepth).map s.pcHistory).foldlM dumpOne s := by
  rw [dumpBacktrace]
  generalize List.finRange pcHistoryDepth = entries
  induction entries generalizing s with
  | nil => rfl
  | cons i rest ih =>
    rw [List.foldlM_cons,List.map_cons,List.foldlM_cons]
    cases shown : dumpOne s (s.pcHistory i) with
    | error e => rfl
    | ok t =>
      have history : t.pcHistory = s.pcHistory := by
        rw [dumpOne_eq] at shown
        rw [performAll_traced shown]
      rw [ok_bind,ok_bind,ih t,history]

theorem dumpBacktrace_returns_iff (s : State) :
    Returns (dumpBacktrace s) ↔ ∀ i, Monitor.Answers s (s.pcHistory i) := by
  rw [dumpBacktrace_words,foldlM_returns_iff dumpOne_returns_iff
    (fun _ _ _ shown b => answers_sight (dumpOne_sight shown) b)]
  simp

/-- The lookup before the store meets what the store meets. -/
theorem writeMemoryVirtual_returns_iff [Platform] (s : State) (address value : Word) :
    Returns (writeMemoryVirtual s address value) ↔ WriteServed s address value sizeWord := by
  have stored {l : Lookup} (looked : getMemoryTarget s address .load = .ok l) :
      Returns (writeWord l.state address value) ↔ WriteServed s address value sizeWord := by
    have same := getMemoryTarget_sight looked
    have vm : l.state.vm = s.vm := by rw [getMemoryTarget_traced looked]
    rw [writeWord,writeCommon_returns_iff _ _ _ (show sizeWord ≤ 2 from Nat.le_refl 2),
      writeServed_leadsTo_iff,writeServed_leadsTo_iff,same.fault,vm]
    simp only [same.leadsTo]
  rw [writeMemoryVirtual,returns_bind]
  constructor
  · rintro ⟨l,looked,returns⟩
    exact (stored looked).mp returns
  · intro served
    have looked : ∃ l, getMemoryTarget s address .load = .ok l := by
      rcases (writeServed_leadsTo_iff ..).mp served with fault | ⟨range,offset,⟨p,⟨_,arrived⟩,found,_⟩,_⟩
      · exact ⟨_, getMemoryTarget_fault ((arrival_fault_iff s address).mp fault)⟩
      · obtain ⟨t,translated,assigned,_⟩ := arrival_reached arrived
        exact ⟨_, getMemoryTarget_covered translated assigned found⟩
    obtain ⟨l,looked⟩ := looked
    exact ⟨l, looked, (stored looked).mpr served⟩

section Rounds

variable [Platform] (sizeBits : Nat) (symbols : List Symbol) (files : Files)

/-- So many instructions can be executed, with the input for the sessions that they open. -/
def StepsServed : Nat → State → Text → Prop
  | 0, _, _ => True
  | n + 1, s, input =>
    ∃ t rest, emulateOp sizeBits symbols files s input = .ok (t,rest) ∧ StepsServed n t rest

/-- What an action needs of the machine and of the host, to be carried out to its end. -/
def Serves (s : State) (input : Text) : Action → Prop
  | .nothing | .help | .quit | .reg _ => True
  | .regs => s.privilege.toNat < 4
  | .dumpVirtual start count | .disassemble start count =>
    DumpServed sizeBits (start.start s) count (Monitor.Answers s)
  | .dumpPhysical start count =>
    DumpServed sizeBits (start.start s) count fun a => wordLocation s.memoryMap a ≠ none
  | .dumpString start => StringShown s start
  | .write address value => WriteServed s address value sizeWord
  | .step count => StepsServed sizeBits symbols files count s input
  | .backtrace => ∀ i, Monitor.Answers s (s.pcHistory i)
  | .symbol => symbols ≠ []
  | .save file => Returns (files.save file s)
  | .load file => Returns (files.load file s)

variable {sizeBits symbols files}

theorem stepLoop_returns_iff (n : Nat) (s : State) (input : Text) :
    Returns (stepLoop (emulateOp sizeBits symbols files) n s input) ↔
      StepsServed sizeBits symbols files n s input := by
  induction n generalizing s input with
  | zero => exact iff_of_true (returns_ok _) trivial
  | succ n ih =>
    rw [stepLoop,returns_bind,Prod.exists]
    exact exists_congr fun t => exists_congr fun rest => and_congr_right fun _ => ih t rest

/-- One branch after the other. -/
theorem perform_returns_iff (s : State) (input : Text) (action : Action) :
    Returns (perform sizeBits symbols files (emulateOp sizeBits symbols files) s input action) ↔
      Serves sizeBits symbols files s input action := by
  by_cases steps : ∃ n, action = .step n
  · obtain ⟨n,rfl⟩ := steps
    exact stepLoop_returns_iff n s input
  rw [perform_other (not_exists.mp steps),returns_map]
  cases action with
  | nothing | help | quit | reg name => exact iff_of_true (returns_ok s) trivial
  | regs =>
    rw [Action.perform,dumpRegisters,Serves]
    split
    next named => exact iff_of_true (returns_ok s) named
    next unnamed => exact iff_of_false (not_returns_error _) unnamed
  | dumpVirtual start count | disassemble start count => exact dumpMemoryVirtual_returns_iff ..
  | dumpPhysical start count => exact dumpMemoryPhysical_returns_iff ..
  | dumpString start => exact dumpStringVirtual_returns_iff ..
  | write address value => exact writeMemoryVirtual_returns_iff ..
  | step n => exact absurd ⟨n,rfl⟩ steps
  | backtrace => exact dumpBacktrace_returns_iff s
  | symbol =>
    cases symbols with
    | nil => exact iff_of_false (not_returns_error _) (not_not.mpr rfl)
    | cons head rest => exact iff_of_true (returns_ok s) (List.cons_ne_nil _ _)
  | save file => exact returns_bind_ok fun _ => returns_ok s
  | load file => exact Iff.rfl

/-- A round does what its line is taken for. -/
theorem runMonitorLoop_interpreted {s : State} {input : Text} (more : input ≠ [])
    (read : interpret sizeBits (lineOf input) = .ok action) :
    runMonitorLoop sizeBits symbols files s input =
      (perform sizeBits symbols files (emulateOp sizeBits symbols files) s (fgets 63 input).2 action).map
        fun (t, rest) => (if action = .quit then 1 else 0,t,rest) := by
  rw [runMonitorLoop,runMonitorLoopWith,if_neg more]
  dsimp only
  rw [show chomp (fgets 63 input).1 = lineOf input from rfl,read,ok_bind]
  cases perform sizeBits symbols files _ s (fgets 63 input).2 action <;> rfl

/-- The round returns: no absent token is read, and what the line asks for ends. -/
def Survives (sizeBits : Nat) (symbols : List Symbol) (files : Files) (s : State) (input : Text) : Prop :=
  Returns (runMonitorLoop sizeBits symbols files s input)

/-- The round survives an empty line, and a line whose first word has the others that it cannot do
without and whose command is served. -/
theorem survives_iff (sizeBits : Nat) (symbols : List Symbol) (files : Files) (s : State) (input : Text) :
    Survives sizeBits symbols files s input ↔ lineOf input = [] ∨
      ∃ (name : String) (arguments : List Text), words (lineOf input) = name.toList :: arguments ∧
        (name = "xp" → arguments ≠ []) ∧
        Serves sizeBits symbols files s (fgets 63 input).2 (asked sizeBits name arguments) := by
  by_cases ended : input = []
  · subst ended
    exact iff_of_true (returns_ok _) (Or.inl rfl)
  have round {action : Action} (read : interpret sizeBits (lineOf input) = .ok action) :
      Survives sizeBits symbols files s input ↔
        Serves sizeBits symbols files s (fgets 63 input).2 action := by
    rw [Survives,runMonitorLoop_interpreted ended read,returns_map,perform_returns_iff]
  constructor
  · intro survives
    obtain ⟨⟨status,t,rest⟩,ran⟩ := survives
    obtain ⟨empty,_⟩ | ⟨_,action,read,_⟩ := runMonitorLoopWith_cases ran
    · exact absurd empty ended
    rcases (interpret_iff sizeBits _ action).mp read with
      ⟨empty,_⟩ | ⟨_,name,arguments,split,given,rfl⟩
    · exact Or.inl empty
    · exact Or.inr ⟨name, arguments, split, given, (round read).mp ⟨_,ran⟩⟩
  · rintro (empty | ⟨name,arguments,split,given,serves⟩)
    · have read := (interpret_iff sizeBits _ .nothing).mpr (Or.inl ⟨empty,rfl⟩)
      exact (round read).mpr trivial
    · have some : lineOf input ≠ [] := by
        intro empty
        rw [empty] at split
        cases split
      have read := (interpret_iff sizeBits _ _).mpr (Or.inr ⟨some, name, arguments, split, given, rfl⟩)
      exact (round read).mpr serves

end Rounds

/-- A round with that line, at a machine with nothing but RAM. -/
def SurvivesLine (line : String) : Prop :=
  @Survives clearingPlatform 64 [] noFiles (guest privM []) line.toList

/-- Lines of blanks, without an argument, and with an address that is not there end the process. -/
theorem lines_crash : ¬SurvivesLine "  \n" ∧ ¬SurvivesLine "xp\n" ∧ ¬SurvivesLine "x 40000000\n" ∧
    ¬SurvivesLine "w 40000000 1\n" := by
  have stops {line : String} {e : Stop}
      (ran : @runMonitorLoop clearingPlatform 64 [] noFiles (guest privM []) line.toList = .error e) :
      ¬SurvivesLine line := by
    rintro ⟨result,returned⟩
    cases ran.symm.trans returned
  exact ⟨stops (e := .nullPointer) rfl, stops (e := .nullPointer) rfl, stops (e := .nullRange) rfl,
    stops (e := .nullRange) rfl⟩

end Emuriscv.Attended
