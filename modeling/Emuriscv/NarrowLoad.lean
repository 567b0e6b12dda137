import Emuriscv.LinuxRun
import Emuriscv.Served

/-! The byte and halfword loads. RAM hands them as many bytes as they ask for; a device answers
with a whole register, whatever the size of the access, and nothing narrows it afterwards. -/
namespace Emuriscv

inductive NarrowLoad where
  | lb
  | lbu
  | lh
  | lhu
  deriving DecidableEq, Repr

namespace NarrowLoad

def op : NarrowLoad → Op
  | lb => .lb
  | lbu => .lbu
  | lh => .lh
  | lhu => .lhu

def sizeLog2 : NarrowLoad → Nat
  | lb | lbu => sizeByte
  | lh | lhu => sizeHalf

def bits : NarrowLoad → Nat
  | lb | lbu => 8
  | lh | lhu => 16

def isSigned : NarrowLoad → Bool
  | lb | lh => true
  | lbu | lhu => false

def read : NarrowLoad → State → Word → Except Stop (Word × State)
  | lb => readByteSigned
  | lbu => readByteUnsigned
  | lh => readHalfwordSigned
  | lhu => readHalfwordUnsigned

/-- What the reader makes of the value that `read_common` returns. -/
def extend (load : NarrowLoad) (value : Word) : Word :=
  if load.isSigned then BitField.maskExtend load.bits value else value

/-- The value is as narrow as the load: below `2 ^ bits`, or its low bits sign-extended. -/
def Narrow (load : NarrowLoad) (value : Word) : Prop :=
  if load.isSigned then value = (value.setWidth load.bits).signExtend 32
  else value.toNat < 2 ^ load.bits

/-- The value that `read_common` returns is one that the load makes narrow. -/
def Fits (load : NarrowLoad) (value : Word) : Prop :=
  value.toNat < 2 ^ load.bits ∨ load.isSigned = true ∧ value.getLsbD (load.bits - 1) = true

theorem extend_narrow_iff (load : NarrowLoad) (value : Word) :
    load.Narrow (load.extend value) ↔ load.Fits value := by
  have positive : 0 < load.bits := by cases load <;> decide
  have inside : load.bits ≤ 32 := by cases load <;> decide
  unfold Narrow extend Fits
  cases load.isSigned with
  | true =>
    simp only [if_true,true_and]
    exact (BitField.maskExtend_iff positive inside value).trans or_comm
  | false => simp

theorem read_eq (load : NarrowLoad) (s : State) (address : Word) : load.read s address =
    readCommon s address load.sizeLog2 >>= fun (value, s) => pure (load.extend value, s) := by
  cases load with
  | lb => rfl
  | lh => rfl
  | lbu => exact (bind_pure _).symm
  | lhu => exact (bind_pure _).symm

theorem loadReader (load : NarrowLoad) : load.op.loadReader = some load.read := by
  cases load <;> rfl

theorem dataAccess (load : NarrowLoad) : load.op.dataAccess = some .load := by
  cases load <;> rfl

end NarrowLoad

/-- A device does not look at RAM. -/
theorem callRead_congr {s t : State} (vm : t.vm = s.vm) (uart : t.uart = s.uart)
    (f : Option DeviceReadFunc) (offset : Word) : callRead f t offset = callRead f s offset := by
  cases f with
  | none => rfl
  | some callback =>
    cases callback with
    | clintRead => simp only [callRead,clintRead,vm]
    | htifRead => simp only [callRead,htifRead,vm]
    | uartRead => simp only [callRead,uartRead,uart]

theorem readCommonRam_narrow {s : State} (load : NarrowLoad)
    (read : readCommonRam s ⟨some buffer,offset⟩ load.sizeLog2 = .ok value) :
    value.toNat < 2 ^ load.bits := by
  have size : load.sizeLog2 ≤ 2 := by cases load <;> decide
  have wide : load.bits = 8 * 2 ^ load.sizeLog2 := by cases load <;> rfl
  have inside := (readCommonRam_returns_iff s buffer offset size).mp ⟨value,read⟩
  obtain ⟨loaded,read',number⟩ := readCommonRam_flat s buffer offset size inside
  obtain rfl := Except.ok.inj (read.symm.trans read')
  rw [number]
  exact load_small _ _ wide

/-- The value that a load delivers, by what it is read from. -/
theorem NarrowLoad.read_narrow_iff {s : State} (load : NarrowLoad)
    (resolves : Resolves s address .load t range offset)
    (read : load.read s address = .ok (value,u)) :
    load.Narrow value ↔ range.entry.isRam = true ∨
      ∃ word, callRead range.entry.readFunc s offset = .ok word ∧ load.Fits word := by
  rw [load.read_eq,resolves.readCommon] at read
  obtain ⟨⟨raw,_⟩,first,rest⟩ := bind_eq_ok.mp read
  obtain ⟨raw',source,pair⟩ := bind_eq_ok.mp first
  obtain ⟨rfl,rfl⟩ := Prod.mk.inj (Except.ok.inj pair)
  obtain ⟨rfl,_⟩ := Prod.mk.inj (Except.ok.inj rest)
  rw [load.extend_narrow_iff]
  by_cases ram : range.entry.isRam = true
  · rw [if_pos ram] at source
    exact iff_of_true (Or.inl (readCommonRam_narrow load source)) (Or.inl ram)
  · rw [if_neg ram] at source
    have only := resolves.ramOnly
    have same : callRead range.entry.readFunc s offset = .ok raw' := by
      rw [← source]
      exact (callRead_congr (by rw [only]) (by rw [only]) _ _).symm
    constructor
    · exact fun fits => Or.inr ⟨raw',same,fits⟩
    · rintro (isRam | ⟨word,answer,fits⟩)
      · exact absurd isRam ram
      · obtain rfl := Except.ok.inj (same.symm.trans answer)
        exact fits

theorem Resolves.faultless {s : State} (resolves : Resolves s address accessType t range offset) :
    ¬PageFaults s address accessType := by
  intro faults
  have looked := resolves.looked
  rw [getMemoryTarget_fault faults] at looked
  exact absurd (congrArg Lookup.status (Except.ok.inj looked)) (show pageFault ≠ translateOk by decide)

/-- The load leaves a narrow value in its destination, if it has one. -/
def DeliversNarrow (load : NarrowLoad) (rd : RegisterIndex) (s : State) : Prop :=
  rd = 0 ∨ load.Narrow (s.x rd)

/-- A narrow load that does not trap delivers a narrow value exactly when it reads RAM, or a
device register whose value the load makes narrow. -/
theorem deliversNarrow_iff [Platform] {load : NarrowLoad} (quiet : Quiet s)
    (fetched : Fetches s f instruction load.op)
    (resolves : Resolves f (DataAccess.load.address f instruction) .load t range offset)
    (step : emulateOp s = .ok u) :
    DeliversNarrow load (getRd (deref f instruction)) u ↔
      getRd (deref f instruction) = 0 ∨ range.entry.isRam = true ∨
        ∃ word, callRead range.entry.readFunc s offset = .ok word ∧ load.Fits word := by
  have faultless : ¬DataFaults f instruction .load := resolves.faultless
  obtain ⟨value,g,read,x⟩ := emulateOp_loadWrites quiet step f instruction load.op load.read .load
    fetched load.loadReader load.dataAccess faultless
  have delivered := load.read_narrow_iff resolves read
  have same : callRead range.entry.readFunc f offset = callRead range.entry.readFunc s offset :=
    callRead_congr (by rw [fetched.frame]) (by rw [fetched.frame]) _ _
  rw [same] at delivered
  rw [DeliversNarrow,x]
  by_cases zero : getRd (deref f instruction) = 0
  · exact iff_of_true (Or.inl zero) (Or.inl zero)
  · have written : writeX s.x (getRd (deref f instruction)) value (getRd (deref f instruction)) =
        value := by
      rw [writeX,if_neg zero,Function.update_self]
    rw [written,delivered]

/-- `lbu x5, 0(x6)` on a machine with the CLINT, whose `timecmp` has some low half. -/
def timecmpMachine (low : Word) : State :=
  { guest privM [0x00034283] with
    memoryMap := [⟨0x80000000, 0x10000, true, none, none⟩,
      ⟨clintBaseAddr,clintSize,false,some .clintRead,some .clintWrite⟩]
    pc := 0x80000000
    x := fun r => if r = 6 then clintBaseAddr + sifiveTimecmpLow else 0
    vm := ⟨0, 0, low.setWidth 64, 0⟩ }

theorem deliversNarrow_small : ∃ u, @emulateOp clearingPlatform (timecmpMachine 0x12) = .ok u ∧
    DeliversNarrow .lbu 5 u := by
  let _ : Platform := clearingPlatform
  obtain ⟨u,step,_⟩ := exists_ok (x := emulateOp (timecmpMachine 0x12)) (fun _ => true)
    (by decide +kernel)
  have fetched : Fetches (timecmpMachine 0x12) { timecmpMachine 0x12 with pc := 0x80000004 } ⟨0,0⟩
      (NarrowLoad.op .lbu) :=
    fetches_direct (fun walks => walks.1 rfl) (by decide) (by decide)
  have resolves : Resolves { timecmpMachine 0x12 with pc := 0x80000004 } 0x02004000 .load
      { timecmpMachine 0x12 with pc := 0x80000004 }
      ⟨1,⟨clintBaseAddr,clintSize,false,some .clintRead,some .clintWrite⟩⟩ 0x4000 :=
    ⟨_, _, translateAddress_direct (fun walks => walks.1 rfl) _ _, rfl, rfl, by decide, by decide⟩
  have fits : NarrowLoad.Fits .lbu 0x12 := Or.inl (by decide)
  exact ⟨u, step, (deliversNarrow_iff ⟨rfl,rfl,rfl⟩ fetched resolves step).mpr
    (Or.inr (Or.inr ⟨0x12,rfl,fits⟩))⟩

/-- The byte load puts the low half of `timecmp` into its destination. -/
theorem lbu_wide : ∃ u, @emulateOp clearingPlatform (timecmpMachine 0x12345678) = .ok u ∧
    u.traps = [] ∧ u.x 5 = 0x12345678 ∧ ¬DeliversNarrow .lbu 5 u := by
  let _ : Platform := clearingPlatform
  obtain ⟨u,step,seen⟩ := exists_ok (x := emulateOp (timecmpMachine 0x12345678))
    (fun u => decide (u.traps = [] ∧ u.x 5 = 0x12345678)) (by decide +kernel)
  obtain ⟨traps,wide⟩ := of_decide_eq_true seen
  refine ⟨u,step,traps,wide,?_⟩
  rintro (impossible | narrow)
  · exact absurd impossible (by decide)
  · rw [wide] at narrow
    exact absurd narrow (show ¬(0x12345678 : Word).toNat < 2 ^ 8 by decide)

end Emuriscv
