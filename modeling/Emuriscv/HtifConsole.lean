import Emuriscv.DeviceHalves

/-! The console protocol of the HTIF. A command is put together in `tohost` from two writes,
and the second one interprets it; nothing of the command before it is left by then. -/
namespace Emuriscv

/-- A command as the guest sends it: the low half to offset 0, the high half to offset 4. -/
def deliver (s : State) (command : Quadword) : Except Stop State := do
  let s ← htifWrite s 0 (command.setWidth 32)
  htifWrite s 4 ((command >>> 32).setWidth 32)

def deliverAll (s : State) (commands : List Quadword) : Except Stop State :=
  commands.foldlM deliver s

def commandDevice (command : Quadword) : Byte := command.extractLsb' 56 8
def commandCode (command : Quadword) : Byte := command.extractLsb' 48 8

/-- Device 1, command 1: write the low byte to the console. -/
def IsPutchar (command : Quadword) : Prop := commandDevice command = 1 ∧ commandCode command = 1

instance (command : Quadword) : Decidable (IsPutchar command) := instDecidableAnd

/-- Device 1, command 0: ask for keyboard input. -/
def IsRequest (command : Quadword) : Prop := commandDevice command = 1 ∧ commandCode command = 0

instance (command : Quadword) : Decidable (IsRequest command) := instDecidableAnd

/-- The bytes that a list of commands writes to the console. -/
def written (commands : List Quadword) : List Byte :=
  (commands.filter fun command => IsPutchar command).map (·.setWidth 8)

/-- What a command does to the two registers and the console. -/
structure Handled (s t : State) (command : Quadword) : Prop where
  putchar : IsPutchar command → t.vm.htifTohost = 0 ∧
    t.vm.htifFromhost = 1#8 ++ 1#8 ++ 0#48 ∧ t.console = s.console ++ [command.setWidth 8]
  request : IsRequest command → t.vm.htifTohost = 0 ∧
    t.vm.htifFromhost = s.vm.htifFromhost ∧ t.console = s.console
  unsupported : ¬IsPutchar command → ¬IsRequest command → t.vm.htifTohost = command ∧
    t.vm.htifFromhost = s.vm.htifFromhost ∧ t.console = s.console

theorem assembled (command : Quadword) :
    setHighHalf ((command.setWidth 32).setWidth 64) ((command >>> 32).setWidth 32) = command := by
  apply BitVec.eq_of_getLsbD_eq
  intro i bound
  rw [setHighHalf_bit]
  by_cases low : i < 32
  · simp [low,bound]
  · have inner : i - 32 < 32 := by omega
    have back : 32 + (i - 32) = i := by omega
    simp [low,inner,back]

/-- The two bytes that `htif_handle_cmd` takes from the command. -/
theorem device_eq (command : Quadword) :
    (command >>> 56).setWidth 32 = (commandDevice command).setWidth 32 := by
  apply BitVec.eq_of_toNat_eq
  have bound := command.isLt
  simp [commandDevice,Nat.shiftRight_eq_div_pow]
  omega

theorem code_eq (command : Quadword) :
    (command >>> 48).setWidth 32 &&& 0xff = (commandCode command).setWidth 32 := by
  have low (word : Word) : (word &&& 0xff).toNat = word.toNat % 2 ^ 8 := by
    rw [BitVec.toNat_and]
    exact Nat.and_two_pow_sub_one_eq_mod _ 8
  apply BitVec.eq_of_toNat_eq
  rw [low]
  simp [commandCode,Nat.shiftRight_eq_div_pow]
  omega

theorem widened_eq_iff (byte value : Byte) :
    byte.setWidth 32 = (value.setWidth 32 : Word) ↔ byte = value := by
  constructor
  · intro same
    have narrow := congrArg (BitVec.setWidth 8) same
    simpa using narrow
  · rintro rfl
    rfl

/-- `htif_handle_cmd` on a complete command. -/
theorem htifHandleCmd_handled {s : State} (live : s.vm.htifTohost ≠ 1) :
    ∃ t, htifHandleCmd s = .ok t ∧ Handled s t s.vm.htifTohost := by
  have device : (s.vm.htifTohost >>> 56).setWidth 32 = (1 : Word) ↔
      commandDevice s.vm.htifTohost = 1 := by
    rw [device_eq]
    exact widened_eq_iff _ 1
  have code (value : Byte) : (s.vm.htifTohost >>> 48).setWidth 32 &&& 0xff = (value.setWidth 32 : Word) ↔
      commandCode s.vm.htifTohost = value := by
    rw [code_eq,widened_eq_iff]
  unfold htifHandleCmd
  dsimp only
  rw [if_neg live]
  by_cases putchar : IsPutchar s.vm.htifTohost
  · have test := And.intro (device.mpr putchar.1) ((code 1).mpr putchar.2)
    refine ⟨_, if_pos test, fun _ => ⟨rfl,?_,rfl⟩, ?_, fun other => absurd putchar other⟩
    · have one : (1 : Byte).setWidth 32 = (1 : Word) := rfl
      rw [test.1,test.2,one]
      rfl
    · intro request
      have both := putchar.2.symm.trans request.2
      contradiction
  · have fails : ¬((s.vm.htifTohost >>> 56).setWidth 32 = (1 : Word) ∧
        (s.vm.htifTohost >>> 48).setWidth 32 &&& 0xff = (1 : Word)) :=
      fun test => putchar ⟨device.mp test.1, (code 1).mp test.2⟩
    rw [if_neg fails]
    by_cases request : IsRequest s.vm.htifTohost
    · have test := And.intro (device.mpr request.1) ((code 0).mpr request.2)
      exact ⟨_, if_pos test, fun other => absurd other putchar, fun _ => ⟨rfl,rfl,rfl⟩,
        fun _ other => absurd request other⟩
    · have fails' : ¬((s.vm.htifTohost >>> 56).setWidth 32 = (1 : Word) ∧
          (s.vm.htifTohost >>> 48).setWidth 32 &&& 0xff = (0 : Word)) :=
        fun test => request ⟨device.mp test.1, (code 0).mp test.2⟩
      exact ⟨_, if_neg fails', fun other => absurd other putchar, fun other => absurd other request,
        fun _ _ => ⟨rfl,rfl,rfl⟩⟩

/-- The machine with a command in `tohost`. -/
def commanded (s : State) (command : Quadword) : State :=
  { s with vm := { s.vm with htifTohost := command } }

/-- The second write finds the command complete, whatever `tohost` held before. -/
theorem deliver_eq (s : State) (command : Quadword) :
    deliver s command = htifHandleCmd (commanded s command) := by
  have whole := assembled command
  rw [← setLowHalf_eq s.vm.htifTohost] at whole
  have second : deliver s command = htifHandleCmd (commanded s (setHighHalf
      (setLowHalf s.vm.htifTohost (command.setWidth 32)) ((command >>> 32).setWidth 32))) := rfl
  rw [second,whole]

/-- The step lemma. -/
theorem deliver_handled (s : State) {command : Quadword} (live : command ≠ 1) :
    ∃ t, deliver s command = .ok t ∧ Handled s t command := by
  rw [deliver_eq]
  obtain ⟨t,ran,handled⟩ := htifHandleCmd_handled (s := commanded s command) live
  exact ⟨t, ran, handled.putchar, handled.request, handled.unsupported⟩

theorem deliver_poweroff_iff (s : State) (command : Quadword) :
    deliver s command = .error (.exit exitPoweroff) ↔ command = 1 := by
  constructor
  · intro stopped
    by_contra live
    obtain ⟨t,ran,_⟩ := deliver_handled s live
    rw [ran] at stopped
    contradiction
  · rintro rfl
    rw [deliver_eq]
    unfold htifHandleCmd
    exact if_pos rfl

theorem Handled.console (handled : Handled s t command) : t.console = s.console ++ written [command] := by
  by_cases putchar : IsPutchar command
  · rw [(handled.putchar putchar).2.2]
    simp [written,putchar]
  · have none : written [command] = [] := by simp [written,putchar]
    rw [none,List.append_nil]
    by_cases request : IsRequest command
    · exact (handled.request request).2.2
    · exact (handled.unsupported putchar request).2.2

theorem written_append (first second : List Quadword) :
    written (first ++ second) = written first ++ written second := by
  simp [written]

/-- The run lemma. -/
theorem deliverAll_written (s : State) (commands : List Quadword)
    (live : ∀ command ∈ commands, command ≠ 1) :
    ∃ t, deliverAll s commands = .ok t ∧ t.console = s.console ++ written commands := by
  induction commands generalizing s with
  | nil => exact ⟨s, rfl, by simp [written]⟩
  | cons command rest ih =>
    obtain ⟨t,first,handled⟩ := deliver_handled s (live command (by simp))
    obtain ⟨u,ran,console⟩ := ih t fun other member => live other (by simp [member])
    refine ⟨u, ?_, ?_⟩
    · rw [deliverAll,List.foldlM_cons,first,ok_bind]
      exact ran
    · rw [console,handled.console,List.append_assoc,← written_append]
      rfl

theorem deliverAll_concat (ran : deliverAll s commands = .ok t) (command : Quadword) :
    deliverAll s (commands ++ [command]) = deliver t command := by
  rw [deliverAll] at ran
  rw [deliverAll,List.foldlM_append,ran,ok_bind,List.foldlM_cons]
  exact bind_pure _

/-- The console receives the characters of the commands in order, every command leaves the
registers as the protocol says, and no command but 1 powers the machine off. -/
theorem deliverAll_protocol (s : State) (commands : List Quadword)
    (live : ∀ command ∈ commands, command ≠ 1) :
    (∃ t, deliverAll s commands = .ok t ∧ t.console = s.console ++ written commands) ∧
    (∀ before command after, commands = before ++ command :: after →
      ∃ t u, deliverAll s before = .ok t ∧ deliverAll s (before ++ [command]) = .ok u ∧
        Handled t u command) ∧
    ∀ t command, deliver t command = .error (.exit exitPoweroff) ↔ command = 1 := by
  refine ⟨deliverAll_written s commands live, ?_, deliver_poweroff_iff⟩
  rintro before command after rfl
  obtain ⟨t,ran,_⟩ := deliverAll_written s before fun other member => live other (by simp [member])
  obtain ⟨u,last,handled⟩ := deliver_handled t (live command (by simp))
  exact ⟨t, u, ran, (deliverAll_concat ran command).trans last, handled⟩

/-- An unsupported command, the character `A`, and a request for input. -/
def consoleCommands : List Quadword := [0x02000000000000ff, 0x0101000000000041, 0x0100000000000000]

theorem deliverAll_protocol_consoleCommands :
    ∃ t, deliverAll (guest privM []) consoleCommands = .ok t ∧ t.console = [0x41] := by
  have live : ∀ command ∈ consoleCommands, command ≠ 1 := by simp [consoleCommands]
  have bytes : written consoleCommands = [0x41] := by decide
  obtain ⟨t,ran,console⟩ := (deliverAll_protocol (guest privM []) consoleCommands live).1
  rw [bytes] at console
  exact ⟨t,ran,console⟩

end Emuriscv
