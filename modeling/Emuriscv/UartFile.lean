import Emuriscv.LinuxRun
import Emuriscv.Served

/-! The registers of the UART under the loads and stores of the guest. The range is 256 bytes
long and `uart_reg` has seven words, so only the first 28 offsets have a register. -/
namespace Emuriscv

open LabelledRun

/-- The range that `initialize_riscv_machine` registers for the UART. -/
def uartRange : MemoryRange := ⟨uartBaseAddr,uartSize,false,some .uartRead,some .uartWrite⟩

namespace MemoryCall

def accessType : MemoryCall → AccessType
  | .readWord _ | .readHalfwordSigned _ | .readHalfwordUnsigned _ | .readByteSigned _
  | .readByteUnsigned _ => .load
  | .writeWord _ _ | .writeHalfword _ _ | .writeByte _ _ => .store

/-- The value that a write hands to a callback. -/
def written : MemoryCall → Option Word
  | .writeWord _ value => some value
  | .writeHalfword _ value => some (value.setWidth 32)
  | .writeByte _ value => some (value.setWidth 32)
  | _ => none

/-- What a read makes of the value that a callback returns. -/
def extend : MemoryCall → Word → Word
  | .readByteSigned _ => BitField.maskExtend 8
  | .readHalfwordSigned _ => BitField.maskExtend 16
  | _ => id

end MemoryCall

/-- The address of a call is translated to an offset in the UART range, in the state `t`. -/
structure ReachesUart (s : State) (call : MemoryCall) (t : State) (offset : Word) : Prop where
  resolves : ∃ range, Resolves s call.address call.accessType t range offset ∧
    range.entry = uartRange

/-- The register that an offset stands for. -/
def uartIndex (offset : Word) : Nat := (offset >>> 2).toNat

theorem uartIndex_lt_iff (offset : Word) : uartIndex offset < 7 ↔ offset.toNat < 28 := by
  rw [uartIndex,BitVec.toNat_ushiftRight,Nat.shiftRight_eq_div_pow]
  omega

section Uart

variable [Platform]

omit [Platform] in
theorem readCommon_uart {s : State} {range : RangePtr}
    (resolves : Resolves s address .load t range offset) (uart : range.entry = uartRange)
    (sizeLog2 : Nat) : readCommon s address sizeLog2 =
      uartRead t offset >>= fun value => .ok (value,t) := by
  rw [resolves.readCommon,uart]
  rfl

theorem writeCommon_uart {s : State} {range : RangePtr}
    (resolves : Resolves s address .store t range offset) (uart : range.entry = uartRange)
    (value : Word) (sizeLog2 : Nat) :
    writeCommon s address value sizeLog2 = uartWrite t offset value := by
  rw [resolves.writeCommon,uart]
  rfl

/-- Whatever its size, a call is one call of a callback. -/
theorem run_uart (reaches : ReachesUart s call t offset) :
    call.run s = match call.written with
      | some value => uartWrite t offset value >>= fun u => .ok (none,u)
      | none => uartRead t offset >>= fun value => .ok (some (call.extend value), t) := by
  obtain ⟨range,resolves,uart⟩ := reaches.resolves
  have read (load : call.accessType = .load) (sizeLog2 : Nat) :
      readCommon s call.address sizeLog2 = uartRead t offset >>= fun value => .ok (value,t) := by
    rw [load] at resolves
    exact readCommon_uart resolves uart sizeLog2
  have write (store : call.accessType = .store) (value : Word) (sizeLog2 : Nat) :
      writeCommon s call.address value sizeLog2 = uartWrite t offset value := by
    rw [store] at resolves
    exact writeCommon_uart resolves uart value sizeLog2
  simp only [MemoryCall.address] at read write
  cases call with
  | readWord a => simp [MemoryCall.run,MemoryCall.written,MemoryCall.extend,readWord,read rfl]
  | readHalfwordSigned a =>
    simp [MemoryCall.run,MemoryCall.written,MemoryCall.extend,readHalfwordSigned,read rfl]
    rfl
  | readHalfwordUnsigned a =>
    simp [MemoryCall.run,MemoryCall.written,MemoryCall.extend,readHalfwordUnsigned,read rfl]
  | readByteSigned a =>
    simp [MemoryCall.run,MemoryCall.written,MemoryCall.extend,readByteSigned,read rfl]
    rfl
  | readByteUnsigned a =>
    simp [MemoryCall.run,MemoryCall.written,MemoryCall.extend,readByteUnsigned,read rfl]
  | writeWord a value => simp [MemoryCall.run,MemoryCall.written,writeWord,write rfl]
  | writeHalfword a value => simp [MemoryCall.run,MemoryCall.written,writeHalfword,write rfl]
  | writeByte a value => simp [MemoryCall.run,MemoryCall.written,writeByte,write rfl]

omit [Platform] in
theorem ReachesUart.uart {s : State} (reaches : ReachesUart s call t offset) : t.uart = s.uart := by
  obtain ⟨_,resolves,_⟩ := reaches.resolves
  rw [resolves.ramOnly]

/-- A call that reaches the UART at an offset, and returns. -/
def UartStep (s : State) (access : MemoryCall × Word) (u : State) : Prop :=
  ∃ t value, ReachesUart s access.1 t access.2 ∧ access.1.run s = .ok (value,u)

/-- The value that an access stores in a register, if it does. -/
def storedIn (i : Fin 7) (access : MemoryCall × Word) : Option Word :=
  if uartIndex access.2 = i then access.1.written else none

/-- The value last written to a register in a sequence of accesses. -/
def lastStored (i : Fin 7) : List ((MemoryCall × Word) × State) → Option Word
  | [] => none
  | (access,_) :: rest => (lastStored i rest).or (storedIn i access)

omit [Platform] in
theorem uartWrite_reg {s : State} (wrote : uartWrite s offset value = .ok u) (i : Fin 7) :
    u.uart.reg i = if uartIndex offset = i then value else s.uart.reg i := by
  unfold uartWrite at wrote
  dsimp only at wrote
  split at wrote
  next inside =>
    have kept : u.uart.reg = Function.update s.uart.reg ⟨(offset >>> 2).toNat,inside⟩ value := by
      split at wrote
      next =>
        split at wrote <;> rw [← Except.ok.inj wrote]
      next => rw [← Except.ok.inj wrote]
    rw [kept,Function.update_apply,uartIndex]
    simp [Fin.ext_iff,eq_comm]
  next => contradiction

/-- One access changes a register exactly when it stores to it. -/
theorem UartStep.reg (step : UartStep s access u) (i : Fin 7) :
    u.uart.reg i = (storedIn i access).getD (s.uart.reg i) := by
  obtain ⟨t,value,reaches,ran⟩ := step
  rw [run_uart reaches] at ran
  rw [← reaches.uart,storedIn]
  cases written : access.1.written with
  | none =>
    rw [written] at ran
    obtain ⟨_,_,rest⟩ := bind_eq_ok.mp ran
    obtain ⟨_,rfl⟩ := Prod.mk.inj (Except.ok.inj rest)
    simp
  | some stored =>
    rw [written] at ran
    obtain ⟨v,wrote,rest⟩ := bind_eq_ok.mp ran
    obtain ⟨_,rfl⟩ := Prod.mk.inj (Except.ok.inj rest)
    rw [uartWrite_reg wrote i]
    split <;> simp

/-- A register holds what was last written to it. -/
theorem uart_reg_final (path : Path UartStep s steps) (i : Fin 7) :
    (final s steps).uart.reg i = (lastStored i steps).getD (s.uart.reg i) := by
  induction path with
  | nil => rfl
  | cons head _ ih =>
    rw [final,ih,head.reg i,lastStored]
    cases lastStored i _ <;> simp

/-- What is asked of an access that comes after a sequence of others: the index lies in the
array, a word read returns what was last written there (but for the transmit register), and an
access beside the registers leaves everything as the walk left it. -/
structure RegisterFile (s : State) (steps : List ((MemoryCall × Word) × State)) (call : MemoryCall)
    (t : State) (offset : Word) : Prop where
  index : uartIndex offset < 7
  readsBack : ∀ (i : Fin 7) address, call = .readWord address → uartIndex offset = i →
    i.val ≠ uartRegTxfifo →
    call.run (final s steps) = .ok (some ((lastStored i steps).getD (s.uart.reg i)), t)
  beside : ¬uartIndex offset < 7 → ∃ value, call.run (final s steps) = .ok (value,t)

omit [Platform] in
theorem uartRead_register {s : State} {i : Fin 7} (index : uartIndex offset = i)
    (register : i.val ≠ uartRegTxfifo) : uartRead s offset = .ok (s.uart.reg i) := by
  unfold uartIndex at index
  simp [uartRead,index,register]

/-- The accesses of the guest see a register file exactly within its 28 bytes. -/
theorem registerFile_iff (path : Path UartStep s steps)
    (reaches : ReachesUart (final s steps) call t offset) :
    RegisterFile s steps call t offset ↔ offset.toNat < 28 := by
  rw [← uartIndex_lt_iff]
  constructor
  · exact fun file => file.index
  · intro inside
    refine ⟨inside, ?_, fun outside => absurd inside outside⟩
    rintro i address rfl index register
    rw [run_uart reaches,← uart_reg_final path i,← reaches.uart]
    simp [MemoryCall.written,MemoryCall.extend,uartRead_register index register]

end Uart

/-- The machine that `run_linux` boots, with nothing loaded. -/
def uartMachine : State :=
  initializeStateLinux linuxMemoryMap (fun _ _ => 0) ⟨0,0,0,0⟩ ⟨fun _ => 0, 0, []⟩

theorem reachesUart_direct {s : State} (machine : s.privilege = privM)
    (map : s.memoryMap = linuxMemoryMap) (call : MemoryCall) (offset : Word)
    (address : call.address = uartBaseAddr + offset)
    (inside : getPhysMemRange linuxMemoryMap (uartBaseAddr + offset) = some ⟨4,uartRange⟩) :
    ReachesUart s call s offset := by
  refine ⟨⟨4,uartRange⟩, ⟨⟨translateOk,some call.address,s⟩, call.address, ?_, rfl, rfl, ?_, ?_⟩, rfl⟩
  · exact translateAddress_direct (fun walks => walks.1 machine) _ _
  · rw [map,address]
    exact inside
  · rw [address,BitVec.add_comm]
    exact (BitVec.add_sub_cancel offset uartBaseAddr).symm

/-- The interrupt enable register is written, and then read. -/
theorem registerFile_inside : ∃ u, @RegisterFile clearingPlatform uartMachine
    [((.writeWord 0x10000004 0x41, 4), u)] (.readWord 0x10000004) u 4 := by
  let _ : Platform := clearingPlatform
  have first : ReachesUart uartMachine (.writeWord 0x10000004 0x41) uartMachine 4 :=
    reachesUart_direct rfl rfl _ _ (by decide) (by decide)
  have wrote : ∃ u, uartWrite uartMachine 4 0x41 = .ok u ∧ u.privilege = privM ∧
      u.memoryMap = linuxMemoryMap := ⟨_,rfl,rfl,rfl⟩
  obtain ⟨u,stored,machine,map⟩ := wrote
  have step : UartStep uartMachine (.writeWord 0x10000004 0x41, 4) u := by
    refine ⟨uartMachine, none, first, ?_⟩
    rw [run_uart first]
    exact bind_eq_ok.mpr ⟨u,stored,rfl⟩
  have second : ReachesUart u (.readWord 0x10000004) u 4 :=
    reachesUart_direct machine map _ _ (by decide) (by decide)
  exact ⟨u, (registerFile_iff (.cons step .nil) second).mpr (by decide)⟩

/-- The word after the last register is in the range, and a store to it leaves the array. -/
theorem uart_store_leaves : ReachesUart uartMachine (.writeWord 0x1000001c 1) uartMachine 0x1c ∧
    @MemoryCall.run clearingPlatform uartMachine (.writeWord 0x1000001c 1) = .error .outOfBounds ∧
    ¬@RegisterFile clearingPlatform uartMachine [] (.writeWord 0x1000001c 1) uartMachine 0x1c := by
  let _ : Platform := clearingPlatform
  have reaches : ReachesUart uartMachine (.writeWord 0x1000001c 1) uartMachine 0x1c :=
    reachesUart_direct rfl rfl _ _ (by decide) (by decide)
  refine ⟨reaches, ?_, fun file => absurd file.index (by decide)⟩
  rw [run_uart reaches]
  rfl

end Emuriscv
