import Emuriscv.HartRefinement
import Emuriscv.HtifConsole
import Emuriscv.Served

/-! Programs with a console. In the loop of `run_linux`, a program that talks to the host
interface reads from its registers what the protocol has in them, and what it prints is what the
console shows. -/
namespace Emuriscv

open LabelledRun

/-- The two registers of 64 bits, and what was printed. -/
structure Htif where
  tohost : Quadword
  fromhost : Quadword
  printed : List Byte
  deriving DecidableEq, Repr

inductive HtifRegister where
  | tohost
  | fromhost
  deriving DecidableEq, Repr

/-- The halves are words from `HTIF_BASE_ADDR` on. -/
def htifCell (address : Word) : Option (HtifRegister × Half) :=
  if address = htifBaseAddr then some (.tohost,.low)
  else if address = htifBaseAddr + 4 then some (.tohost,.high)
  else if address = htifBaseAddr + 8 then some (.fromhost,.low)
  else if address = htifBaseAddr + 12 then some (.fromhost,.high)
  else none

/-- A register with one half replaced. -/
def Half.put : Half → Quadword → Word → Quadword
  | .low, field, value => Half.high.get field ++ value
  | .high, field, value => value ++ Half.low.get field

namespace Htif

def field (io : Htif) : HtifRegister → Quadword
  | .tohost => io.tohost
  | .fromhost => io.fromhost

/-- A command is complete with its upper half. The command 1 ends the machine. -/
def command (io : Htif) (command : Quadword) : Option Htif :=
  if command = 1 then none
  else if IsPutchar command then
    some ⟨0, 1#8 ++ 1#8 ++ 0#48, io.printed ++ [command.setWidth 8]⟩
  else if IsRequest command then some { io with tohost := 0 }
  else some { io with tohost := command }

def write (io : Htif) : HtifRegister → Half → Word → Option Htif
  | .tohost, .low, value => some { io with tohost := Half.low.put io.tohost value }
  | .tohost, .high, value => io.command (Half.high.put io.tohost value)
  | .fromhost, half, value => some { io with fromhost := half.put io.fromhost value }

/-- The interface on the bus. -/
def device : Rv32ima.Device Htif where
  read io address := do
    let (register,half) ← htifCell address
    pure (half.get (io.field register))
  write io address value := do
    let (register,half) ← htifCell address
    io.write register half value

end Htif

/-- What the emulator has in the place of the interface. -/
structure Speaks (io : Htif) (s : State) : Prop where
  tohost : s.vm.htifTohost = io.tohost
  fromhost : s.vm.htifFromhost = io.fromhost
  console : s.console = io.printed

/-- Where the program follows what the handlers and the interface ask of it: a write to a lower
half clears the upper one, so this one has to be clear. -/
def Behaves (system : Rv32ima.Hart × Htif) (executed : Rv32ima.Instruction × Word) : Prop :=
  Conforms system.1 executed.1 executed.2 ∧
  (executed.1 = .store .word → ∀ register,
    htifCell (system.1.x (Rv32i.rs1 executed.2) + Rv32i.sImm executed.2) = some (register,.low) →
    Half.high.get (system.2.field register) = 0)

/-- What such a program changes in the machine. -/
structure Performed (s t : State) : Prop where
  rest : t = { s with
    pc := t.pc
    x := t.x
    csr := t.csr
    loadReservation := t.loadReservation
    ram := t.ram
    pcHistory := t.pcHistory
    instructionCounter := t.instructionCounter
    console := t.console
    vm := { s.vm with
      cycles := t.vm.cycles
      htifTohost := t.vm.htifTohost
      htifFromhost := t.vm.htifFromhost } }
  csr : UpToCounters s t

theorem Performed.refl (s : State) : Performed s s := ⟨rfl, fun _ _ _ => rfl⟩

theorem Performed.trans {s t u : State} (first : Performed s t) (second : Performed t u) :
    Performed s u := by
  refine ⟨?_, fun number time cycle =>
    (second.csr number time cycle).trans (first.csr number time cycle)⟩
  rw [second.rest,first.rest]

theorem Performed.quiet {s t : State} (performed : Performed s t) (quiet : Quiet s) : Quiet t := by
  refine quiet.congr ?_ ?_ ?_ <;> rw [performed.rest]

theorem Programmed.performed {s t : State} (programmed : Programmed s t) : Performed s t := by
  refine ⟨?_, programmed.csr⟩
  rw [programmed.rest]

theorem setCycles_performed (s : State) : Performed s (setCycles s) := ⟨rfl, fun _ _ _ => rfl⟩

/-- The state with these registers and this console. -/
def withHtif (s : State) (io : Htif) : State :=
  { s with vm := { s.vm with htifTohost := io.tohost, htifFromhost := io.fromhost }, console := io.printed }

theorem withHtif_performed (s : State) (io : Htif) : Performed s (withHtif s io) :=
  ⟨rfl, fun _ _ _ => rfl⟩

theorem Speaks.same {s : State} (speaks : Speaks io s) : withHtif s io = s := by
  rw [withHtif,← speaks.tohost,← speaks.fromhost,← speaks.console]

def HtifRegister.offset : HtifRegister → Half → Word
  | .tohost, .low => 0
  | .tohost, .high => 4
  | .fromhost, .low => 8
  | .fromhost, .high => 12

theorem htifCell_offset {register : HtifRegister} {half : Half}
    (cell : htifCell address = some (register,half)) :
    address = htifBaseAddr + register.offset half := by
  unfold htifCell at cell
  split at cell
  next place =>
    obtain ⟨rfl,rfl⟩ := Prod.mk.inj (Option.some.inj cell)
    exact place
  split at cell
  next place =>
    obtain ⟨rfl,rfl⟩ := Prod.mk.inj (Option.some.inj cell)
    exact place
  split at cell
  next place =>
    obtain ⟨rfl,rfl⟩ := Prod.mk.inj (Option.some.inj cell)
    exact place
  split at cell
  next place =>
    obtain ⟨rfl,rfl⟩ := Prod.mk.inj (Option.some.inj cell)
    exact place
  next => contradiction

theorem htifRead_cell {s : State} (speaks : Speaks io s) (register : HtifRegister) (half : Half) :
    htifRead s (register.offset half) = half.get (io.field register) := by
  cases register
  case tohost =>
    rw [Htif.field,← speaks.tohost]
    cases half <;> rfl
  case fromhost =>
    rw [Htif.field,← speaks.fromhost]
    cases half <;> rfl

theorem setHighHalf_put (field : Quadword) (value : Word) :
    setHighHalf field value = Half.high.put field value := by
  apply BitVec.eq_of_getLsbD_eq
  intro i bound
  rw [setHighHalf_bit,Half.put,BitVec.getLsbD_append]
  by_cases low : i < 32 <;> simp [low,Half.get,bound]

theorem setLowHalf_put {field : Quadword} (clear : Half.high.get field = 0) (value : Word) :
    setLowHalf field value = Half.low.put field value := by
  rw [setLowHalf_eq,Half.put,clear]
  apply BitVec.eq_of_getLsbD_eq
  intro i bound
  rw [BitVec.getLsbD_append]
  by_cases low : i < 32
  · simp [low,bound]
  · have beyond : value.getLsbD i = false := BitVec.getLsbD_of_ge _ _ (by omega)
    simp [low,beyond]

theorem htifHandleCmd_rest {s : State} (ran : htifHandleCmd s = .ok t) :
    t = withHtif s ⟨t.vm.htifTohost, t.vm.htifFromhost, t.console⟩ := by
  unfold htifHandleCmd at ran
  dsimp only at ran
  split at ran
  · contradiction
  split at ran
  · rw [← Except.ok.inj ran]
    rfl
  split at ran
  · rw [← Except.ok.inj ran]
    rfl
  · rw [← Except.ok.inj ran]
    rfl

theorem htifHandleCmd_command {s : State} {io : Htif} (fromhost : s.vm.htifFromhost = io.fromhost)
    (console : s.console = io.printed) (takes : io.command s.vm.htifTohost = some io') :
    htifHandleCmd s = .ok (withHtif s io') := by
  have live : s.vm.htifTohost ≠ 1 := by
    intro off
    rw [Htif.command,if_pos off] at takes
    contradiction
  obtain ⟨t,ran,handled⟩ := htifHandleCmd_handled live
  rw [ran,htifHandleCmd_rest ran]
  rw [Htif.command,if_neg live] at takes
  by_cases putchar : IsPutchar s.vm.htifTohost
  · obtain ⟨cleared,answer,shown⟩ := handled.putchar putchar
    rw [if_pos putchar] at takes
    rw [cleared,answer,shown,console,← Option.some.inj takes]
  rw [if_neg putchar] at takes
  by_cases request : IsRequest s.vm.htifTohost
  · obtain ⟨cleared,answer,shown⟩ := handled.request request
    rw [if_pos request] at takes
    rw [cleared,answer,shown,console,fromhost,← Option.some.inj takes]
  · obtain ⟨kept,answer,shown⟩ := handled.unsupported putchar request
    rw [if_neg request] at takes
    rw [kept,answer,shown,console,fromhost,← Option.some.inj takes]

/-- A store to a register of the interface. -/
theorem htifWrite_cell {s : State} (speaks : Speaks io s) {register : HtifRegister} {half : Half}
    (clear : half = .low → Half.high.get (io.field register) = 0)
    (writes : io.write register half value = some io') :
    htifWrite s (register.offset half) value = .ok (withHtif s io') := by
  obtain ⟨tohost,fromhost,console⟩ := speaks
  cases register <;> cases half
  case tohost.low =>
    obtain rfl := Option.some.inj writes
    have set : setLowHalf io.tohost value = _ := setLowHalf_put (clear rfl) value
    exact congrArg Except.ok (by simp [withHtif,Htif.field,set,tohost,fromhost,console])
  case tohost.high =>
    let s' : State := { s with vm := { s.vm with htifTohost := setHighHalf s.vm.htifTohost value } }
    have set : s'.vm.htifTohost = Half.high.put io.tohost value := by
      rw [← setHighHalf_put,← tohost]
    exact htifHandleCmd_command (s := s') fromhost console (set ▸ writes)
  case fromhost.low =>
    obtain rfl := Option.some.inj writes
    have set : setLowHalf io.fromhost value = _ := setLowHalf_put (clear rfl) value
    exact congrArg Except.ok (by simp [withHtif,Htif.field,set,tohost,fromhost,console])
  case fromhost.high =>
    obtain rfl := Option.some.inj writes
    have set := setHighHalf_put io.fromhost value
    exact congrArg Except.ok (by simp [withHtif,set,tohost,fromhost,console])

theorem htifCell_found {register : HtifRegister} {half : Half}
    (cell : htifCell address = some (register,half)) :
    getPhysMemRange linuxMemoryMap address =
        some ⟨2,⟨htifBaseAddr,htifSize,false,some .htifRead,some .htifWrite⟩⟩ ∧
      register.offset half = address - htifBaseAddr := by
  obtain rfl := htifCell_offset cell
  cases register <;> cases half <;> decide

section Access

variable {s f : State} {register : HtifRegister} {half : Half}

theorem htifCell_resolves (map : s.memoryMap = linuxMemoryMap) (direct : ¬Walks s)
    (cell : htifCell address = some (register,half)) (accessType : AccessType) :
    Resolves s address accessType s
      ⟨2,⟨htifBaseAddr,htifSize,false,some .htifRead,some .htifWrite⟩⟩ (register.offset half) := by
  obtain ⟨found,place⟩ := htifCell_found cell
  rw [← map] at found
  exact ⟨_, address, translateAddress_direct direct address accessType, rfl, rfl, found, place⟩

theorem readWord_htif (map : s.memoryMap = linuxMemoryMap) (direct : ¬Walks s) (speaks : Speaks io s)
    (reads : Htif.device.read io address = some value) : readWord s address = .ok (value,s) := by
  obtain ⟨⟨register,half⟩,cell,same⟩ := Option.bind_eq_some_iff.mp reads
  rw [readWord,(htifCell_resolves map direct cell .load).readCommon]
  change Except.ok (htifRead s (register.offset half), s) = _
  rw [htifRead_cell speaks,← Option.some.inj same]

variable [Platform]

theorem writeWord_htif (map : s.memoryMap = linuxMemoryMap) (direct : ¬Walks s) (speaks : Speaks io s)
    (clear : ∀ register, htifCell address = some (register,.low) →
      Half.high.get (io.field register) = 0)
    (writes : Htif.device.write io address value = some io') :
    writeWord s address value = .ok (withHtif s io') := by
  obtain ⟨⟨register,half⟩,cell,taken⟩ := Option.bind_eq_some_iff.mp writes
  rw [writeWord,(htifCell_resolves map direct cell .store).writeCommon]
  refine htifWrite_cell speaks ?_ taken
  rintro rfl
  exact clear register cell

end Access

/-- The machine carries out the hart and the interface, and does nothing else. -/
structure Hosts (s : State) (system : Rv32ima.Hart × Htif) (t : State) : Prop where
  refines : Refines (.bare linuxMemoryMap) system.1 t
  speaks : Speaks system.2 t
  performed : Performed s t

section Steps

variable {s t u : State} {h : Rv32ima.Hart} {system system' : Rv32ima.Hart × Htif}

theorem linuxMemoryMap_lawful [Platform] : (AddressSpace.bare linuxMemoryMap).Lawful :=
  AddressSpace.bare_lawful linuxMemoryMap_separate

theorem Speaks.congr (speaks : Speaks io s) (vm : t.vm = s.vm) (console : t.console = s.console) :
    Speaks io t := by
  refine ⟨?_, ?_, ?_⟩
  · rw [vm]
    exact speaks.tohost
  · rw [vm]
    exact speaks.fromhost
  · rw [console]
    exact speaks.console

theorem Instruction.Means.lw {encoding : Instruction} (means : encoding.Means (.load .word true)) :
    encoding = .handled .lw := by
  cases means with
  | @handled _ op means =>
    cases means with
    | load loads =>
      cases op <;> simp [Op.load] at loads
      rfl

theorem Instruction.Means.sw {encoding : Instruction} (means : encoding.Means (.store .word)) :
    encoding = .handled .sw := by
  cases means with
  | @handled _ op means =>
    cases means with
    | store stores =>
      cases op <;> simp [Op.store] at stores
      rfl

variable [Platform]

/-- An instruction that leaves the interface alone. -/
theorem Hosts.quietly (hosts : Hosts s (h,io) t) (ran : emulateOp t = .ok u)
    (refines : Refines (.bare linuxMemoryMap) h' u) (programmed : Programmed t u) :
    ∃ v, linuxStep t = .ok v ∧ Hosts s (h',io) v := by
  refine ⟨setCycles u, ?_, refines.congr linuxMemoryMap_lawful rfl rfl rfl ⟨rfl,rfl,rfl,rfl⟩, ?_, ?_⟩
  · rw [linuxStep,ran]
    rfl
  · have speaks : Speaks io u := by
      refine hosts.speaks.congr ?_ ?_ <;> rw [programmed.rest]
    exact ⟨speaks.tohost,speaks.fromhost,speaks.console⟩
  · exact (hosts.performed.trans programmed.performed).trans (setCycles_performed u)

/-- The step lemma. -/
theorem linuxStep_hosts (hosts : Hosts s system t) (quiet : Quiet s)
    (step : Rv32ima.BusStep Encoded (InsideRam linuxMemoryMap) Htif.device system executed system')
    (behaves : Behaves system executed) : ∃ u, linuxStep t = .ok u ∧ Hosts s system' u := by
  have lawful := linuxMemoryMap_lawful
  have calm := hosts.performed.quiet quiet
  have refines := hosts.refines
  cases step with
  | memory step =>
    obtain ⟨u,ran,refines',programmed⟩ := emulateOp_refines refines lawful calm step behaves.1
    exact hosts.quietly ran refines' programmed
  | @load h value io fetch encoded reads =>
    obtain ⟨f,p,fetched,only,handles⟩ := refines.fetch lawful calm fetch
    obtain ⟨encoding,means,encodes⟩ := encoded
    obtain rfl := means.lw
    have word := handles.word lawful
    rw [← word] at encodes reads ⊢
    obtain ⟨map,direct,_⟩ := handles.memory
    have speaks : Speaks io f := by
      refine hosts.speaks.congr ?_ ?_ <;> rw [only]
    have loaded := readWord_htif map direct speaks reads
    have handler : execute .lw f p = Handler.loadOp readWord f p := rfl
    obtain ⟨u,ran,answers⟩ := loaded_answers handles lawful handler loaded (.refl f) handles.memory
    have fetches : Fetches t f p .lw := ⟨fetched, decode_of_encodes encodes⟩
    obtain ⟨refines',programmed⟩ := answers.finish lawful only calm refines.alignedNext
    exact hosts.quietly (emulateOp_executed fetches ran) refines' programmed
  | @store h io io' fetch encoded writes =>
    obtain ⟨f,p,fetched,only,handles⟩ := refines.fetch lawful calm fetch
    obtain ⟨encoding,means,encodes⟩ := encoded
    obtain rfl := means.sw
    have clear := behaves.2 rfl
    have word := handles.word lawful
    dsimp only at clear
    rw [← word] at encodes writes clear
    obtain ⟨map,direct,_⟩ := handles.memory
    have speaks : Speaks io f := by
      refine hosts.speaks.congr ?_ ?_ <;> rw [only]
    have stored := writeWord_htif map direct speaks clear writes
    have address : getRs1Value f p + getSImm (deref f p) =
        h.x (Rv32i.rs1 (deref f p)) + Rv32i.sImm (deref f p) := by
      rw [handles.source,getSImm_eq]
    rw [← address,← handles.operand] at stored
    have ran : execute .sw f p = .ok (withHtif f io') := stored
    have fetches : Fetches t f p .sw := ⟨fetched, decode_of_encodes encodes⟩
    have answers := handles.stored (.refl f) handles.memory
    obtain ⟨refines',programmed⟩ := answers.finish lawful only calm refines.alignedNext
    have last : finishOp (withHtif f io') = withHtif (finishOp f) io' := by
      have flag := handles.quiet.flag
      rw [finishOp_quiet flag,finishOp_quiet (s := withHtif f io') flag]
      rfl
    have stepped := emulateOp_executed fetches ran
    rw [last] at stepped
    let u := withHtif (finishOp f) io'
    refine ⟨setCycles u, ?_, refines'.congr lawful rfl rfl rfl ⟨rfl,rfl,rfl,rfl⟩, ⟨rfl,rfl,rfl⟩, ?_⟩
    · rw [linuxStep,stepped]
      rfl
    · have written := programmed.performed.trans (withHtif_performed (finishOp f) io')
      exact (hosts.performed.trans written).trans (setCycles_performed u)

/-- The run lemma. -/
theorem Hosts.run (hosts : Hosts s system t) (quiet : Quiet s)
    (program : Path (Rv32ima.BusStep Encoded (InsideRam linuxMemoryMap) Htif.device) system steps)
    (behaves : Every (fun system executed _ => Behaves system executed) system steps) :
    ∃ steps', LinuxRun t steps' ∧ List.Forall₂ (Hosts s) (states system steps) (states t steps') := by
  refine program.simulated behaves hosts ?_
  intro system executed system' t hosts step behaves
  obtain ⟨u,ran,next⟩ := linuxStep_hosts hosts quiet step behaves
  exact ⟨(), u, ran, next⟩

/-- A program with a console, in the loop of `run_linux`: the machine is in every state the hart
and the interface, so the console shows what the program has printed. -/
theorem linuxRun_hosts (refines : Refines (.bare linuxMemoryMap) h s) (speaks : Speaks io s)
    (quiet : Quiet s)
    (program : Path (Rv32ima.BusStep Encoded (InsideRam linuxMemoryMap) Htif.device) (h,io) steps)
    (behaves : Every (fun system executed _ => Behaves system executed) (h,io) steps) :
    ∃ steps', LinuxRun s steps' ∧
      List.Forall₂ (Hosts s) (states (h,io) steps) (states s steps') :=
  Hosts.run ⟨refines, speaks, .refl s⟩ quiet program behaves

end Steps

/-- `sw x7, 0(x6)`, `sw x8, 4(x6)` and `lw x9, 0(x6)`, with the interface at `x6`. -/
def printingMachine : State :=
  { guest privM [0x00732023,0x00832223,0x00032483] with
    pc := 0x80000000
    memoryMap := linuxMemoryMap
    x := fun r => if r = 6 then htifBaseAddr else if r = 7 then 0x41 else if r = 8 then 0x01010000 else 0 }

def printingHart : Rv32ima.Hart :=
  ⟨0x80000000, printingMachine.x, flatMemory printingMachine, some 0⟩

def printingProgram : List ((Rv32ima.Instruction × Word) × (Rv32ima.Hart × Htif)) :=
  let next (h : Rv32ima.Hart) : Rv32ima.Hart := { h with pc := h.pc + 4 }
  let answer : Htif := ⟨0, 1#8 ++ 1#8 ++ 0#48, [0x41]⟩
  [((.store .word,0x00732023), (next printingHart,⟨0x41,0,[]⟩)),
   ((.store .word,0x00832223), (next (next printingHart),answer)),
   ((.load .word true,0x00032483), ((next (next printingHart)).next 0x00032483 0,answer))]

/-- The program prints the letter A. -/
theorem linuxRun_hosts_printing : ∃ steps', @LinuxRun clearingPlatform printingMachine steps' ∧
    List.Forall₂ (Hosts printingMachine) (states (printingHart,⟨0,0,[]⟩) printingProgram)
      (states printingMachine steps') := by
  let _ : Platform := clearingPlatform
  have inside {a : Word} (low : 0x80000000 ≤ a.toNat) (high : a.toNat + 4 ≤ 0x86000000) :
      InsideRam linuxMemoryMap a 4 := ⟨_, List.mem_cons_self, rfl, low, high⟩
  refine linuxRun_hosts
    ⟨rfl, rfl, ⟨rfl, fun walks => walks.1 rfl, flatMemory_represents linuxMemoryMap_separate⟩, rfl, by decide⟩
    ⟨rfl,rfl,rfl⟩ ⟨rfl,rfl,rfl⟩ ?_ ?_
  · exact .cons (.store (inside (by decide) (by decide)) (.of_means .sw (.store rfl) (by decide)) (by decide))
      (.cons (.store (inside (by decide) (by decide)) (.of_means .sw (.store rfl) (by decide)) (by decide))
      (.cons (.load (inside (by decide) (by decide)) (.of_means .lw (.load rfl) (by decide)) (by decide)) .nil))
  · refine ⟨⟨trivial,?_⟩, ⟨trivial,?_⟩, ⟨trivial,?_⟩, trivial⟩
    · intro _ register _
      cases register <;> decide
    · intro _ register _
      cases register <;> decide
    · intro store
      contradiction

end Emuriscv
