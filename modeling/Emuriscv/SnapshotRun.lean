import Emuriscv.LinuxRun
import Emuriscv.TwinStep

/-! What a loaded snapshot resumes. The file has the hart and the RAM but no device, so the
execution from the load is that from the save point as long as the devices it calls back agree. -/
namespace Emuriscv

open Codec Lockstep LabelledRun

inductive Device where
  | clint
  | htif
  | uart
  deriving DecidableEq, Repr

def DeviceReadFunc.device : DeviceReadFunc → Device
  | .clintRead => .clint
  | .htifRead => .htif
  | .uartRead => .uart

def DeviceWriteFunc.device : DeviceWriteFunc → Device
  | .clintWrite => .clint
  | .htifWrite => .htif
  | .uartWrite => .uart

/-- The range, with no callbacks but those of the given devices. -/
def MemoryRange.only (devices : Device → Bool) (range : MemoryRange) : MemoryRange :=
  { range with
    readFunc := range.readFunc.filter fun f => devices f.device
    writeFunc := range.writeFunc.filter fun f => devices f.device }

def confine (devices : Device → Bool) (s : State) : State :=
  { s with memoryMap := s.memoryMap.map (MemoryRange.only devices) }

/-- The step calls back none but the given devices: without the others it returns as well. -/
def CallsOnly [Platform] (devices : Device → Bool) (s : State) : Prop :=
  ∃ t, linuxStep (confine devices s) = .ok t

/-- The registers of the given devices are the same. The clock is not one of them: it is set
again at the end of every iteration. -/
structure Agree (devices : Device → Bool) (vm : RiscVMachine) (uart : Uart) (vm' : RiscVMachine)
    (uart' : Uart) : Prop where
  timecmp : devices .clint → vm'.timecmp = vm.timecmp
  tohost : devices .htif → vm'.htifTohost = vm.htifTohost
  fromhost : devices .htif → vm'.htifFromhost = vm.htifFromhost
  reg : devices .uart → uart'.reg = uart.reg

theorem Agree.symm (agree : Agree devices vm uart vm' uart') : Agree devices vm' uart' vm uart :=
  ⟨fun given => (agree.timecmp given).symm,fun given => (agree.tohost given).symm,
    fun given => (agree.fromhost given).symm,fun given => (agree.reg given).symm⟩

theorem Agree.trans (first : Agree devices vm uart vm' uart')
    (second : Agree devices vm' uart' vm'' uart'') : Agree devices vm uart vm'' uart'' :=
  ⟨fun given => (second.timecmp given).trans (first.timecmp given),
    fun given => (second.tohost given).trans (first.tohost given),
    fun given => (second.fromhost given).trans (first.fromhost given),
    fun given => (second.reg given).trans (first.reg given)⟩

namespace Coupling

/-- The machine with some callbacks, next to the machine with all of them. -/
def confined (called agreed : Device → Bool) (map : MemoryMap) : Coupling where
  left := map.map (MemoryRange.only called)
  right := map
  ranges := by
    rw [List.map_map]
    rfl
  devices vm uart vm' uart' :=
    Agree agreed vm uart vm' uart' ∧ (called .clint → vm'.cycles = vm.cycles)

section Confined

variable {called agreed : Device → Bool} {map : MemoryMap} {s t : State}

/-- A change of the devices. -/
theorem Twin.withDevices {c : Coupling} (twin : c.Twin s t) (vm vm' : RiscVMachine)
    (uart uart' : Uart) (console console' : List Byte) (devices : c.devices vm uart vm' uart') :
    c.Twin { s with vm := vm, uart := uart, console := console }
      { t with vm := vm', uart := uart', console := console' } :=
  ⟨congrArg (fun u : State => { u with vm := vm', uart := uart', console := console' }) twin.hart,
    twin.left,twin.right,twin.ram,devices⟩

theorem Twin.clintRead (twin : (confined called agreed map).Twin s t) (calls : called .clint)
    (agrees : agreed .clint) (offset : Word) : clintRead t offset = clintRead s offset := by
  obtain ⟨agree,clock⟩ := twin.devices
  simp only [Emuriscv.clintRead,rtcGetTime,agree.timecmp agrees,clock calls]

theorem Twin.htifRead (twin : (confined called agreed map).Twin s t) (agrees : agreed .htif)
    (offset : Word) : htifRead t offset = htifRead s offset := by
  obtain ⟨agree,_⟩ := twin.devices
  simp only [Emuriscv.htifRead,agree.tohost agrees,agree.fromhost agrees]

theorem Twin.uartRead (twin : (confined called agreed map).Twin s t) (agrees : agreed .uart)
    (offset : Word) : uartRead t offset = uartRead s offset := by
  obtain ⟨agree,_⟩ := twin.devices
  simp only [Emuriscv.uartRead,agree.reg agrees]

theorem Twin.clintWrite [Platform] (twin : (confined called agreed map).Twin s t)
    (agrees : agreed .clint) (offset value : Word) :
    (confined called agreed map).Twin (clintWrite s offset value) (clintWrite t offset value) := by
  obtain ⟨agree,clock⟩ := twin.devices
  have reset {u v : State} (twin : (confined called agreed map).Twin u v) (mask : Word) :
      (confined called agreed map).Twin (resetMip u mask) (resetMip v mask) :=
    twin.map (fun s => resetMip s mask) rfl rfl rfl rfl rfl
  have compare (value : Quadword) : (confined called agreed map).Twin
      { s with vm := { s.vm with timecmp := value } } { t with vm := { t.vm with timecmp := value } } :=
    twin.withDevices { s.vm with timecmp := value } { t.vm with timecmp := value } s.uart t.uart
      s.console t.console ⟨⟨fun _ => rfl,agree.tohost,agree.fromhost,agree.reg⟩,clock⟩
  simp only [Emuriscv.clintWrite,agree.timecmp agrees]
  split
  next => exact reset (compare _) _
  next =>
    split
    next => exact reset (compare _) _
    next => exact twin

/-- New values for the registers of the HTIF. -/
theorem Twin.htif (twin : (confined called agreed map).Twin s t)
    {tohost tohost' fromhost fromhost' : Quadword} (same : tohost' = tohost)
    (same' : fromhost' = fromhost) (console console' : List Byte) :
    (confined called agreed map).Twin
      { s with
        vm := { s.vm with htifTohost := tohost, htifFromhost := fromhost }
        console := console }
      { t with
        vm := { t.vm with htifTohost := tohost', htifFromhost := fromhost' }
        console := console' } := by
  obtain ⟨agree,clock⟩ := twin.devices
  exact twin.withDevices { s.vm with htifTohost := tohost, htifFromhost := fromhost }
    { t.vm with htifTohost := tohost', htifFromhost := fromhost' } s.uart t.uart console console'
    ⟨⟨agree.timecmp,fun _ => same,fun _ => same',agree.reg⟩,clock⟩

theorem Twin.htifHandleCmd (twin : (confined called agreed map).Twin s t) (agrees : agreed .htif) :
    Tracks (confined called agreed map).Twin (htifHandleCmd s) (htifHandleCmd t) := by
  have tohost := twin.devices.1.tohost agrees
  have fromhost := twin.devices.1.fromhost agrees
  simp only [Emuriscv.htifHandleCmd,tohost]
  exact .ite _ (fun _ => .error _ _) fun _ =>
    .ite _ (fun _ => .ok (twin.htif rfl rfl _ _)) fun _ =>
    .ite _ (fun _ => .ok (twin.htif rfl fromhost s.console t.console)) fun _ => .ok twin

theorem Twin.htifWrite (twin : (confined called agreed map).Twin s t) (agrees : agreed .htif)
    (offset value : Word) : Tracks (confined called agreed map).Twin (htifWrite s offset value)
      (htifWrite t offset value) := by
  have tohost := twin.devices.1.tohost agrees
  have fromhost := twin.devices.1.fromhost agrees
  have toHost (value : Quadword) := twin.htif (Eq.refl value) (Eq.refl s.vm.htifFromhost) s.console
    t.console
  have fromHost (value : Quadword) := twin.htif (Eq.refl s.vm.htifTohost) (Eq.refl value) s.console
    t.console
  simp only [Emuriscv.htifWrite,tohost,fromhost]
  exact .ite _ (fun _ => .ok (toHost _)) fun _ =>
    .ite _ (fun _ => (toHost _).htifHandleCmd agrees) fun _ =>
    .ite _ (fun _ => .ok (fromHost _)) fun _ => .ite _ (fun _ => .ok (fromHost _)) fun _ => .ok twin

theorem Twin.uartWrite (twin : (confined called agreed map).Twin s t) (agrees : agreed .uart)
    (offset value : Word) : Tracks (confined called agreed map).Twin (uartWrite s offset value)
      (uartWrite t offset value) := by
  obtain ⟨agree,clock⟩ := twin.devices
  have registers (reg : Fin 7 → Word) (skipped skipped' : Quadword) (sent sent' : List Byte) :
      (confined called agreed map).Twin { s with uart := ⟨reg,skipped,sent⟩ }
        { t with uart := ⟨reg,skipped',sent'⟩ } :=
    twin.withDevices s.vm t.vm _ _ s.console t.console
      ⟨⟨agree.timecmp,agree.tohost,agree.fromhost,fun _ => rfl⟩,clock⟩
  simp only [Emuriscv.uartWrite,agree.reg agrees]
  split
  next =>
    refine .ite _ (fun _ => .ite _ (fun _ => .ok ?_) fun _ => .ok ?_) fun _ => .ok ?_
    all_goals exact registers _ _ _ _ _
  next => exact .error _ _

theorem confined_range {range range' : MemoryRange} {i : Nat}
    (left : (confined called agreed map).left[i]? = some range)
    (right : (confined called agreed map).right[i]? = some range') : range = range'.only called := by
  have mapped : (map.map (MemoryRange.only called))[i]? = some range := left
  have original : map[i]? = some range' := right
  rw [List.getElem?_map,original] at mapped
  exact (Option.some.inj mapped).symm

/-- The callbacks that are kept belong to devices that agree. -/
theorem confined_sound [Platform] (within : ∀ device, called device → agreed device) :
    (confined called agreed map).Sound := by
  constructor
  case read =>
    intro s t range range' i twin left right offset
    rw [confined_range left right,MemoryRange.only]
    cases range'.readFunc with
    | none => exact .error _ _
    | some f =>
      dsimp only
      rw [Option.filter_some]
      split
      next calls =>
        have agrees := within _ calls
        cases f with
        | clintRead =>
          rw [callRead,callRead,twin.clintRead calls agrees]
          exact .refl _
        | htifRead =>
          rw [callRead,callRead,twin.htifRead agrees]
          exact .refl _
        | uartRead =>
          rw [callRead,callRead,twin.uartRead agrees]
          exact .refl _
      next => exact .error _ _
  case write =>
    intro s t range range' i twin left right offset value
    rw [confined_range left right,MemoryRange.only]
    cases range'.writeFunc with
    | none => exact .error _ _
    | some f =>
      dsimp only
      rw [Option.filter_some]
      split
      next calls =>
        have agrees := within _ calls
        cases f with
        | clintWrite => exact .ok (twin.clintWrite agrees offset value)
        | htifWrite => exact twin.htifWrite agrees offset value
        | uartWrite => exact twin.uartWrite agrees offset value
      next => exact .error _ _

/-- At the end of an iteration the clocks agree again. -/
theorem Twin.linuxStep [Platform] (twin : (confined called agreed map).Twin s t)
    (within : ∀ device, called device → agreed device) :
    Tracks (fun u v => (confined called agreed map).Twin u v ∧ v.vm.cycles = u.vm.cycles)
      (linuxStep s) (linuxStep t) := by
  refine (twin.emulateOp (confined_sound within)).bind fun u v twin => .ok ?_
  obtain ⟨agree,_⟩ := twin.devices
  have counter : v.instructionCounter = u.instructionCounter := by
    rw [twin.hart]
    rfl
  have cycles : (setCycles v).vm.cycles = (setCycles u).vm.cycles :=
    congrArg (BitVec.setWidth 64) counter
  exact ⟨twin.withDevices (setCycles u).vm (setCycles v).vm u.uart v.uart u.console v.console
    ⟨⟨agree.timecmp,agree.tohost,agree.fromhost,agree.reg⟩,fun _ => cycles⟩,cycles⟩

end Confined

end Coupling

/-- Hart and RAM are the same, and the registers of the given devices. -/
structure SameGuest (devices : Device → Bool) (s t : State) : Prop where
  hart : t = graft t s
  memoryMap : t.memoryMap = s.memoryMap
  ram : ∀ i k, inRam s.memoryMap i k = true → t.ram i k = s.ram i k
  registers : Agree devices s.vm s.uart t.vm t.uart

/-- The machines after an iteration of each: the clocks are the same as well. -/
structure InStep (devices : Device → Bool) (s t : State) : Prop where
  guest : SameGuest devices s t
  cycles : t.vm.cycles = s.vm.cycles

theorem SameGuest.refl (devices : Device → Bool) (s : State) : SameGuest devices s s :=
  ⟨rfl,rfl,fun _ _ _ => rfl,⟨fun _ => rfl,fun _ => rfl,fun _ => rfl,fun _ => rfl⟩⟩

theorem SameGuest.symm (same : SameGuest devices s t) : SameGuest devices t s := by
  constructor
  case hart =>
    rw [same.hart]
    rfl
  case memoryMap => exact same.memoryMap.symm
  case ram =>
    intro i k inside
    rw [same.memoryMap] at inside
    exact (same.ram i k inside).symm
  case registers => exact same.registers.symm

theorem inRam_only (devices : Device → Bool) (map : MemoryMap) (i k : Nat) :
    inRam (map.map (MemoryRange.only devices)) i k = inRam map i k := by
  rw [inRam,inRam,List.getElem?_map]
  cases map[i]? <;> rfl

section Steps

variable {called devices : Device → Bool} {s t : State}

theorem SameGuest.twin (same : SameGuest devices s t) (called : Device → Bool)
    (clock : called .clint → t.vm.cycles = s.vm.cycles) :
    (Coupling.confined called devices s.memoryMap).Twin (confine called s) t := by
  refine ⟨?_,rfl,same.memoryMap,fun i k inside => ?_,same.registers,clock⟩
  · rw [same.hart]
    rfl
  · exact same.ram i k ((inRam_only called s.memoryMap i k).symm.trans inside)

theorem SameGuest.confined (same : SameGuest devices s t) (called : Device → Bool) :
    SameGuest devices (confine called s) (confine called t) := by
  constructor
  case hart =>
    rw [same.hart]
    rfl
  case memoryMap => exact congrArg (List.map (MemoryRange.only called)) same.memoryMap
  case ram =>
    intro i k inside
    exact same.ram i k ((inRam_only called s.memoryMap i k).symm.trans inside)
  case registers => exact same.registers

theorem confine_confine (devices : Device → Bool) (s : State) :
    confine devices (confine devices s) = confine devices s := by
  simp [confine,MemoryRange.only,Function.comp_def,Option.filter_filter]

variable [Platform]

/-- The step lemma. The other machine tracks one that calls back devices that agree. -/
theorem SameGuest.step (same : SameGuest devices s t) (within : ∀ device, called device → devices device)
    (clock : called .clint → t.vm.cycles = s.vm.cycles) (only : CallsOnly called s) :
    Tracks (InStep devices) (linuxStep s) (linuxStep t) := by
  intro u ran
  obtain ⟨w,confined⟩ := only
  -- both machines track the one without the other callbacks
  obtain ⟨u',ran',first,cycles⟩ :=
    ((SameGuest.refl devices s).twin called fun _ => rfl).linuxStep within w confined
  obtain ⟨v,returned,second,cycles'⟩ := (same.twin called clock).linuxStep within w confined
  obtain rfl := Except.ok.inj (ran.symm.trans ran')
  refine ⟨v,returned,⟨?_,?_,fun i k inside => ?_,?_⟩,cycles'.trans cycles.symm⟩
  · rw [second.hart,first.hart]
    rfl
  · exact second.right.trans first.right.symm
  · rw [first.right] at inside
    have held := (inRam_only called s.memoryMap i k).trans inside
    exact (second.ram i k held).trans (first.ram i k held).symm
  · exact first.devices.1.symm.trans second.devices.1

/-- Whether a step calls back a device is up to what both machines have in common. -/
theorem SameGuest.callsOnly (same : SameGuest devices s t)
    (within : ∀ device, called device → devices device)
    (clock : called .clint → t.vm.cycles = s.vm.cycles) (only : CallsOnly called s) :
    CallsOnly called t := by
  have again : CallsOnly called (confine called s) := by
    rw [CallsOnly,confine_confine]
    exact only
  obtain ⟨u,ran⟩ := only
  obtain ⟨v,ran',_⟩ := (same.confined called).step within clock again u ran
  exact ⟨v,ran'⟩

variable (devices s t) in
/-- As long as the steps of `s` call back only the given devices, those of `t` do the same. -/
def Continues : Prop :=
  ∀ steps, LinuxRun s steps → Every (fun a _ _ => CallsOnly devices a) s steps →
    ∃ steps', LinuxRun t steps' ∧ List.Forall₂ (fun x y => InStep devices x.2 y.2) steps steps'

theorem InStep.continues (inStep : InStep devices s t) : Continues devices s t := by
  intro steps run only
  refine track_run (fun a b inStep only => ?_) run only inStep
  exact inStep.guest.step (fun _ given => given) (fun _ => inStep.cycles) only

variable (devices s t) in
/-- The clocks of the two machines agree, or are not looked at before they are set again. -/
def ClockAgrees : Prop :=
  devices .clint → t.vm.cycles = s.vm.cycles ∨
    CallsOnly (fun device => devices device && device != .clint) s

/-- The run lemma. -/
theorem SameGuest.continues (same : SameGuest devices s t) (clock : ClockAgrees devices s t) :
    Continues devices s t := by
  intro steps run only
  cases run with
  | nil => exact ⟨[],.nil,.nil⟩
  | cons taken rest =>
    have first : Tracks (InStep devices) (linuxStep s) (linuxStep t) := by
      by_cases called : devices .clint = true
      · rcases clock called with cycles | unclocked
        · exact same.step (fun _ given => given) (fun _ => cycles) only.1
        · refine same.step (fun _ given => ?_) (fun given => ?_) unclocked
          · exact (Bool.and_eq_true_iff.mp given).1
          · exact absurd (Bool.and_eq_true_iff.mp given).2 (by decide)
      · exact same.step (fun _ given => given) (fun given => absurd given called) only.1
    obtain ⟨v,returned,inStep⟩ := first _ taken
    obtain ⟨steps',run',states⟩ := inStep.continues _ rest only.2
    exact ⟨((),v) :: steps',.cons returned run',.cons inStep states⟩

theorem ClockAgrees.symm (same : SameGuest devices s t) (clock : ClockAgrees devices s t) :
    ClockAgrees devices t s := by
  intro called
  rcases clock called with cycles | unclocked
  · exact .inl cycles.symm
  · refine .inr (same.callsOnly (fun _ given => (Bool.and_eq_true_iff.mp given).1) ?_ unclocked)
    intro given
    exact absurd (Bool.and_eq_true_iff.mp given).2 (by decide)

omit [Platform] in
theorem restore_sameGuest (sameMap : t.memoryMap = s.memoryMap)
    (registers : Agree devices s.vm s.uart t.vm t.uart) : SameGuest devices s (restore s t) := by
  refine ⟨rfl,sameMap,fun i k inside => ?_,registers⟩
  simp [restore,withRanges,sameMap,inside]

/-- A file saved from `s` and loaded into a machine with the same ranges brings back hart and RAM
and leaves the devices. What follows is the continuation of `s`, as long as the devices that are
called back have the registers they had in `s`. -/
theorem load_resumes (gap : Fin width → Byte) (s later : State)
    (sameMap : later.memoryMap = s.memoryMap) :
    ∃ restored, Codec.Reads (load width later) (save gap s) restored ∧ Restores s later restored ∧
      ∀ devices, Agree devices s.vm s.uart later.vm later.uart → ClockAgrees devices s later →
        Continues devices s restored ∧ Continues devices restored s := by
  refine ⟨restore s later,load_reads gap s later sameMap,restore_restores sameMap,?_⟩
  intro devices registers clock
  have same : SameGuest devices s (restore s later) := restore_sameGuest sameMap registers
  have again : ClockAgrees devices s (restore s later) := clock
  exact ⟨same.continues again,same.symm.continues (again.symm same)⟩

end Steps

/-- `lui x1, 0x2004`, after which the state is saved, `lw x3, 0(x1)`, `addi x2, x0, 5` and
`sw x2, 0(x1)`. -/
def timerBoot : State :=
  { initializeStateLinux linuxMemoryMap
      (fun buffer offset => if buffer = 1 ∧ 0x1000 ≤ offset ∧ offset < 0x1010
        then byteOf ([0x020040b7, 0x0000a183, 0x00500113, 0x0020a023].getD ((offset - 0x1000) / 4) 0)
          ((offset - 0x1000) % 4) else 0)
      ⟨0,0,0,0⟩ ⟨fun _ => 0, 0, []⟩ with pc := bootloaderAddress }

/-- The same machine later on. -/
def timerLater : State :=
  { timerBoot with
    pc := 0x1010
    vm := ⟨0,0,5,4⟩ }

theorem load_resumes_timerBoot :
    ∃ restored next resumed,
      Codec.Reads (load 12 timerLater) (save (fun _ : Fin 12 => 0) timerBoot) restored ∧
      Restores timerBoot timerLater restored ∧
      @LinuxRun clearingPlatform timerBoot [((),next)] ∧
      @LinuxRun clearingPlatform restored [((),resumed)] ∧ InStep (· != .clint) next resumed := by
  let _ : Platform := clearingPlatform
  obtain ⟨restored,reads,restores,continues⟩ :=
    load_resumes (fun _ : Fin 12 => 0) timerBoot timerLater rfl
  have registers : Agree (· != .clint) timerBoot.vm timerBoot.uart timerLater.vm timerLater.uart :=
    ⟨nofun,fun _ => rfl,fun _ => rfl,fun _ => rfl⟩
  obtain ⟨next,ran,_⟩ := exists_ok (x := linuxStep timerBoot) (fun _ => true) (by decide +kernel)
  obtain ⟨t,only,_⟩ := exists_ok (x := linuxStep (confine (· != .clint) timerBoot)) (fun _ => true)
    (by decide +kernel)
  obtain ⟨steps,run,states⟩ := (continues _ registers nofun).1 [((),next)] (.cons ran .nil)
    ⟨⟨t,only⟩,trivial⟩
  cases states with
  | cons inStep rest =>
    cases rest
    exact ⟨restored,next,_,reads,restores,.cons ran .nil,run,inStep⟩

/-- The comparison value that was written after the save is still there after the load, and the
next instruction of the guest reads it. -/
theorem load_keeps_timecmp :
    ∃ saved next next' later restored resumed,
      AtBoot timerBoot ∧ @LinuxRun clearingPlatform timerBoot [((),saved)] ∧
      @LinuxRun clearingPlatform saved [((),next),((),next'),((),later)] ∧
      Codec.Reads (load 12 later) (save (fun _ : Fin 12 => 0) saved) restored ∧
      restored.vm.timecmp ≠ saved.vm.timecmp ∧
      @linuxStep clearingPlatform restored = .ok resumed ∧ resumed.x 3 ≠ next.x 3 := by
  let _ : Platform := clearingPlatform
  obtain ⟨⟨saved,next,later,resumed⟩,ran,differs⟩ := exists_ok (x := do
      let saved ← linuxStep timerBoot
      let next ← linuxStep saved
      let later ← linuxStep next >>= linuxStep
      let resumed ← linuxStep (restore saved later)
      pure (saved,next,later,resumed))
    (fun (saved,next,later,resumed) => later.memoryMap == saved.memoryMap &&
      later.vm.timecmp != saved.vm.timecmp && resumed.x 3 != next.x 3)
    (by decide +kernel)
  simp only [Bool.and_eq_true,beq_iff_eq,bne_iff_ne] at differs
  obtain ⟨⟨sameMap,timecmp⟩,x⟩ := differs
  obtain ⟨_,first,ran⟩ := bind_eq_ok.mp ran
  obtain ⟨_,second,ran⟩ := bind_eq_ok.mp ran
  obtain ⟨_,both,ran⟩ := bind_eq_ok.mp ran
  obtain ⟨next',third,fourth⟩ := bind_eq_ok.mp both
  obtain ⟨_,fifth,same⟩ := bind_eq_ok.mp ran
  cases same
  exact ⟨saved,next,next',later,restore saved later,resumed,⟨_,rfl⟩,.cons first .nil,
    .cons second (.cons third (.cons fourth .nil)),load_reads _ _ _ sameMap,timecmp,fifth,x⟩

end Emuriscv
