import Emuriscv.Monitor
import Emuriscv.TrapStep

/-! What a session of showing commands leaves behind. Each command is an inspection of the memory
that it shows: the state stays as it is if and only if every look is harmless and no page fault
is left pending. -/
namespace Emuriscv.Monitor

open Numeral

/-- The looks of a dump that ends. -/
def rangeLooks (one : Word → List Look) (bound : Nat) : Nat → Word → Option (List Look)
  | 0, _ => none
  | rounds + 1, address =>
    if address.toNat < bound then
      (rangeLooks one bound rounds (address + wordSize)).map (one address ++ ·)
    else some []

/-- A word that is shown is looked up first and then read. -/
def shownLooks (address : Word) : List Look := [.probe address, .read address]

def dumpLooks (sizeBits : Nat) (one : Word → List Look) (startAddress : Word) (count : Nat) :
    Option (List Look) :=
  rangeLooks one (dumpBound sizeBits startAddress count) (2 ^ 30 + 1) startAddress

def backtraceLooks (s : State) : List Look :=
  (List.finRange pcHistoryDepth).flatMap fun i => shownLooks (s.pcHistory i)

/-- What a command looks at, in memory that stands still. There is none if the command has no
end, or cannot be executed whatever is in memory. -/
def Command.looks (sizeBits : Nat) (symbols : List Symbol) (command : Command) (s : State) :
    Option (List Look) :=
  match command.inspector, command.arguments with
  | .regs, _ => if s.privilege.toNat < 4 then some [] else none
  | .reg, _ => some []
  | .p, name :: _ | .dr, name :: _ =>
    dumpLooks sizeBits shownLooks (getRegisterValue s name) (getRepeat command.arguments)
  | .pp, name :: _ =>
    dumpLooks sizeBits ([.physical ·]) (getRegisterValue s name) (getRepeat command.arguments)
  | .x, address :: _ | .d, address :: _ =>
    dumpLooks sizeBits shownLooks (getAddress address) (getRepeat command.arguments)
  | .xs, address :: _ => stringLooks s (getAddress address) (2 ^ 30)
  | .xp, [] => none
  | .xp, [address] => dumpLooks sizeBits ([.physical ·]) (strtoul address) 1
  | .xp, address :: count :: _ =>
    dumpLooks sizeBits ([.physical ·]) (strtoul address) ((atoi count).signExtend sizeBits).toNat
  | .bt, _ => some (backtraceLooks s)
  | .sym, _ => if symbols = [] then none else some []
  | _, [] => some []

/-- A computation is the inspection that the looks are, as far as it leaves RAM as it was. -/
structure Inspects (s : State) (ran : Except Stop State) (looks : Option (List Look)) : Prop where
  grows : ∀ t, ran = .ok t → Grows s t
  leaves : ∀ t, ran = .ok t ∧ t.ram = s.ram ↔
    ∃ found, looks = some found ∧ (∀ look ∈ found, look.Harmless s) ∧
      t = afterFaults s (faultsOf s found)

theorem performAll_inspects (s : State) (looks : List Look) :
    Inspects s (performAll s looks) (some looks) := by
  refine ⟨fun t ran => performAll_grows ran, fun t => ?_⟩
  rw [performAll_iff]
  simp

/-- What never returns has nothing to look at. -/
theorem inspects_none {s : State} {ran : Except Stop State} (never : ∀ t, ran ≠ .ok t) :
    Inspects s ran none :=
  ⟨fun t returned => absurd returned (never t), by simp [never]⟩

theorem dumpOne_eq (s : State) (address : Word) :
    dumpOne s address = performAll s (shownLooks address) := by
  rw [dumpOne,performAll,shownLooks,List.foldlM_cons,Look.perform,bind_assoc]
  cases getMemoryTarget s address .load with
  | error e => rfl
  | ok l =>
    rw [ok_bind,ok_bind,pure_eq_ok,ok_bind,List.foldlM_cons,Look.perform]
    cases readWord l.state address <;> rfl

section Loop

variable {body : State → Word → Except Stop State} {one : Word → List Look}
  (shows : ∀ s address, body s address = performAll s (one address)) (bound : Nat)

include shows

/-- A loop whose body is an inspection is one if it ends. -/
theorem dumpLoop_some (rounds : Nat) (address : Word) (s : State)
    (here : rangeLooks one bound rounds address = some looks) :
    dumpLoop body bound rounds s address = performAll s looks := by
  induction rounds generalizing address s looks with
  | zero => contradiction
  | succ rounds ih =>
    rw [dumpLoop]
    rw [rangeLooks] at here
    split at here
    next below =>
      obtain ⟨rest,later,rfl⟩ := Option.map_eq_some_iff.mp here
      rw [if_pos below,shows,performAll_append]
      cases performAll s (one address) with
      | error e => rfl
      | ok t => exact ih _ t later
    next past =>
      obtain rfl := Option.some.inj here
      rw [if_neg past]
      rfl

omit shows in
theorem dumpLoop_none (rounds : Nat) (address : Word) (s t : State)
    (here : rangeLooks one bound rounds address = none) :
    dumpLoop body bound rounds s address ≠ .ok t := by
  induction rounds generalizing address s with
  | zero => exact nofun
  | succ rounds ih =>
    rw [dumpLoop]
    rw [rangeLooks] at here
    split at here
    next below =>
      rw [if_pos below]
      cases body s address with
      | error e => exact nofun
      | ok u => exact ih _ u (Option.map_eq_none_iff.mp here)
    next => contradiction

theorem dumpLoop_inspects (rounds : Nat) (address : Word) (s : State) :
    Inspects s (dumpLoop body bound rounds s address) (rangeLooks one bound rounds address) := by
  cases here : rangeLooks one bound rounds address with
  | none => exact inspects_none fun t => dumpLoop_none bound rounds address s t here
  | some looks =>
    rw [dumpLoop_some shows bound rounds address s here]
    exact performAll_inspects s looks

end Loop

theorem performAll_traced {s : State} {looks : List Look} (h : performAll s looks = .ok t) :
    Traced s t := by
  induction looks generalizing s with
  | nil =>
    obtain rfl := Except.ok.inj h
    rfl
  | cons look rest ih =>
    rw [performAll,List.foldlM_cons] at h
    obtain ⟨u,first,later⟩ := bind_eq_ok.mp h
    refine Traced.trans ?_ (ih later)
    cases look with
    | probe a =>
      obtain ⟨l,looked,rest⟩ := bind_eq_ok.mp first
      rw [← Except.ok.inj rest]
      exact getMemoryTarget_traced looked
    | read a =>
      obtain ⟨⟨value,v⟩,read,rest⟩ := bind_eq_ok.mp first
      rw [← Except.ok.inj rest]
      exact readWord_traced read
    | physical a =>
      obtain ⟨value,read,rest⟩ := bind_eq_ok.mp first
      rw [← Except.ok.inj rest]
      rfl

/-- The history that the loop runs through stands still. -/
theorem dumpBacktrace_eq (s : State) : dumpBacktrace s = performAll s (backtraceLooks s) := by
  rw [dumpBacktrace,backtraceLooks]
  generalize List.finRange pcHistoryDepth = entries
  induction entries generalizing s with
  | nil => rfl
  | cons i rest ih =>
    rw [List.foldlM_cons,dumpOne_eq,List.flatMap_cons,performAll_append]
    cases first : performAll s (shownLooks (s.pcHistory i)) with
    | error e => rfl
    | ok t =>
      have history : t.pcHistory = s.pcHistory := by rw [performAll_traced first]
      rw [ok_bind,ok_bind,ih t,history]

theorem dumpStringVirtual_inspects (s : State) (address : Word) :
    Inspects s (dumpStringVirtual s address) (stringLooks s address (2 ^ 30)) :=
  ⟨fun _ ran => dumpStringLoop_grows ran, fun t => dumpStringLoop_iff s t address (2 ^ 30)⟩

theorem unchanged_inspects (s : State) : Inspects s (.ok s) (some []) := performAll_inspects s []

theorem readWordPhysical_shows (s : State) (address : Word) :
    (do let _ ← readWordPhysical s address; pure s) = performAll s [.physical address] := by
  rw [performAll,List.foldlM_cons,Look.perform,bind_assoc]
  cases readWordPhysical s address <;> rfl

/-- Every command is the inspection of what it looks at. -/
theorem run_inspects (sizeBits : Nat) (symbols : List Symbol) (command : Command) (s : State) :
    Inspects s (command.run sizeBits symbols s) (command.looks sizeBits symbols s) := by
  obtain ⟨inspector,arguments⟩ := command
  have virtual (address : Word) (count : Nat) :
      Inspects s (dumpMemoryVirtual sizeBits s address count)
        (dumpLooks sizeBits shownLooks address count) := dumpLoop_inspects dumpOne_eq ..
  have physical (address : Word) (count : Nat) :
      Inspects s (dumpMemoryPhysical sizeBits s address count)
        (dumpLooks sizeBits ([.physical ·]) address count) :=
    dumpLoop_inspects readWordPhysical_shows ..
  cases inspector with
  | regs =>
    change Inspects s (dumpRegisters s) (if s.privilege.toNat < 4 then some [] else none)
    rw [dumpRegisters]
    split
    next => exact unchanged_inspects s
    next => exact inspects_none nofun
  | reg => exact unchanged_inspects s
  | bt =>
    have shown := performAll_inspects s (backtraceLooks s)
    rwa [← dumpBacktrace_eq] at shown
  | sym =>
    cases symbols with
    | nil => exact inspects_none nofun
    | cons head rest => exact unchanged_inspects s
  | p | dr | x | d =>
    cases arguments with
    | nil => exact unchanged_inspects s
    | cons first rest => exact virtual ..
  | pp =>
    cases arguments with
    | nil => exact unchanged_inspects s
    | cons first rest => exact physical ..
  | xs =>
    cases arguments with
    | nil => exact unchanged_inspects s
    | cons first rest => exact dumpStringVirtual_inspects ..
  | xp =>
    rcases arguments with _ | ⟨first, _ | ⟨second,rest⟩⟩
    · exact inspects_none nofun
    · exact physical ..
    · exact physical ..

/-- What the commands of a session look at, one after the other. -/
def sessionLooks (sizeBits : Nat) (symbols : List Symbol) (s : State) :
    List Command → Option (List Look)
  | [] => some []
  | command :: rest => do
    let first ← command.looks sizeBits symbols s
    let later ← sessionLooks sizeBits symbols s rest
    pure (first ++ later)

section Session

variable {sizeBits : Nat} {symbols : List Symbol}

theorem stringLooks_pendingOnly {s t : State} (only : PendingOnly s t) (a : Word) (rounds : Nat) :
    stringLooks t a rounds = stringLooks s a rounds := by
  have map : t.memoryMap = s.memoryMap := by rw [only]
  induction rounds generalizing a with
  | zero => rfl
  | succ rounds ih => simp only [stringLooks,only.arrival,only.wordThere,map,ih]

/-- What is pending has no influence on where a command looks. -/
theorem looks_pendingOnly {s t : State} (only : PendingOnly s t) (command : Command) :
    command.looks sizeBits symbols t = command.looks sizeBits symbols s := by
  have registers (name : Text) : getRegisterValue t name = getRegisterValue s name := by
    rw [only]
    rfl
  have history : backtraceLooks t = backtraceLooks s := by
    rw [only]
    rfl
  have privilege : t.privilege = s.privilege := by rw [only]
  unfold Command.looks
  split <;> simp only [registers,history,privilege,stringLooks_pendingOnly only]

theorem sessionLooks_pendingOnly {s t : State} (only : PendingOnly s t) (commands : List Command) :
    sessionLooks sizeBits symbols t commands = sessionLooks sizeBits symbols s commands := by
  induction commands with
  | nil => rfl
  | cons command rest ih => rw [sessionLooks,sessionLooks,looks_pendingOnly only,ih]

theorem runMonitor_grows {s : State} {commands : List Command}
    (h : runMonitor sizeBits symbols s commands = .ok t) : Grows s t := by
  induction commands generalizing s with
  | nil => exact .of_same (congrArg State.ram (Except.ok.inj h)).symm
  | cons command rest ih =>
    rw [runMonitor,List.foldlM_cons] at h
    obtain ⟨u,first,later⟩ := bind_eq_ok.mp h
    exact ((run_inspects sizeBits symbols command s).grows u first).trans (ih later)

/-- An inspection in two parts, the second of which starts where the first ends. -/
theorem inspected_append_iff (s t : State) (first second : List Look) :
    ((∀ look ∈ first ++ second, look.Harmless s) ∧ t = afterFaults s (faultsOf s (first ++ second))) ↔
      (∀ look ∈ first, look.Harmless s) ∧
      (∀ look ∈ second, look.Harmless (afterFaults s (faultsOf s first))) ∧
      t = afterFaults (afterFaults s (faultsOf s first))
        (faultsOf (afterFaults s (faultsOf s first)) second) := by
  have only := afterFaults_pendingOnly s (faultsOf s first)
  rw [List.forall_mem_append,only.faultsOf,afterFaults_append,faultsOf_append,and_assoc]
  simp only [only.harmless]

end Session

/-- A session is the inspection of what its commands look at. -/
theorem runMonitor_inspects (sizeBits : Nat) (symbols : List Symbol) (s : State)
    (commands : List Command) :
    Inspects s (runMonitor sizeBits symbols s commands)
      (sessionLooks sizeBits symbols s commands) := by
  refine ⟨fun t ran => runMonitor_grows ran, fun t => ?_⟩
  induction commands generalizing s with
  | nil => exact (unchanged_inspects s).leaves t
  | cons command rest ih =>
    have one := run_inspects sizeBits symbols command s
    rw [runMonitor,List.foldlM_cons,sessionLooks]
    constructor
    · rintro ⟨ran,same⟩
      obtain ⟨u,first,later⟩ := bind_eq_ok.mp ran
      have middle : u.ram = s.ram := (one.grows u first).same (runMonitor_grows later) same
      obtain ⟨looks,here,harmless,rfl⟩ := (one.leaves u).mp ⟨first,middle⟩
      obtain ⟨others,there,both⟩ := (ih _).mp ⟨later, same.trans middle.symm⟩
      rw [sessionLooks_pendingOnly (afterFaults_pendingOnly ..)] at there
      exact ⟨looks ++ others, by rw [here,there]; rfl,
        (inspected_append_iff ..).mpr ⟨harmless,both⟩⟩
    · rintro ⟨found,here,inspected⟩
      obtain ⟨looks,there,here⟩ := Option.bind_eq_some_iff.mp here
      obtain ⟨others,further,here⟩ := Option.bind_eq_some_iff.mp here
      obtain rfl := Option.some.inj here
      obtain ⟨harmless,both⟩ := (inspected_append_iff ..).mp inspected
      obtain ⟨first,middle⟩ := (one.leaves _).mpr ⟨looks, there, harmless, rfl⟩
      rw [← sessionLooks_pendingOnly (afterFaults_pendingOnly s (faultsOf s looks))] at further
      obtain ⟨later,same⟩ := (ih _).mpr ⟨others,further,both⟩
      rw [first]
      exact ⟨later, same.trans middle⟩

/-- A session leaves the whole state as it was if and only if every command can be carried out,
all its looks are harmless, and no page fault is left pending but one that was. -/
theorem runMonitor_unchanged_iff (sizeBits : Nat) (symbols : List Symbol) (s : State)
    (commands : List Command) :
    runMonitor sizeBits symbols s commands = .ok s ↔
      ∃ looks, sessionLooks sizeBits symbols s commands = some looks ∧
        (∀ look ∈ looks, look.Harmless s) ∧
        ∀ a, (faultsOf s looks).getLast? = some a → PendsLoad s a := by
  have whole := (runMonitor_inspects sizeBits symbols s commands).leaves s
  rw [and_iff_left rfl] at whole
  simp only [whole,← afterFaults_eq_iff]

/-- A hart in S mode whose first 4 MiB are mapped. -/
def inspectedMachine : State := guest privS [superpageEntry]

/-- `x 400000`, a page behind them. -/
def showUnmapped : Command := ⟨.x, ["400000".toList]⟩

/-- Showing it leaves a page fault for the next instruction to raise. -/
theorem showUnmapped_pends :
    runMonitor 64 [] inspectedMachine [showUnmapped] ≠ .ok inspectedMachine := by
  have looks : sessionLooks 64 [] inspectedMachine [showUnmapped] =
      some [.probe 0x400000, .read 0x400000] := by decide +kernel
  have faults : (faultsOf inspectedMachine [.probe 0x400000, .read 0x400000]).getLast? =
      some 0x400000 := by decide
  intro same
  have whole := (runMonitor_inspects 64 [] inspectedMachine [showUnmapped]).leaves inspectedMachine
  obtain ⟨found,here,_,ends⟩ := whole.mp ⟨same,rfl⟩
  rw [looks] at here
  obtain rfl := Option.some.inj here
  have pends := (afterFaults_eq_iff ..).mp ends 0x400000 faults
  exact Bool.noConfusion pends.flag

end Emuriscv.Monitor
