import Emuriscv.Bytes
import Mathlib.Data.List.Induction

/-! The 64-bit device registers that a guest reaches in 32-bit halves: `timecmp` of the CLINT
and `fromhost` of the HTIF. A write to a low half clears the high one, since C complements the
mask in 32 bits. -/
namespace Emuriscv

inductive HalfRegister where
  | timecmp
  | fromhost
  deriving DecidableEq, Repr

inductive Half where
  | low
  | high
  deriving DecidableEq, Repr

def HalfRegister.readFunc : HalfRegister → DeviceReadFunc
  | .timecmp => .clintRead
  | .fromhost => .htifRead

def HalfRegister.writeFunc : HalfRegister → DeviceWriteFunc
  | .timecmp => .clintWrite
  | .fromhost => .htifWrite

def HalfRegister.offset : HalfRegister → Half → Word
  | .timecmp, .low => sifiveTimecmpLow
  | .timecmp, .high => sifiveTimecmpHigh
  | .fromhost, .low => 8
  | .fromhost, .high => 12

structure HalfWrite where
  register : HalfRegister
  half : Half
  value : Word
  deriving DecidableEq, Repr

def readHalf (s : State) (register : HalfRegister) (half : Half) : Except Stop Word :=
  callRead (some register.readFunc) s (register.offset half)

def writeHalf [Platform] (s : State) (write : HalfWrite) : Except Stop State :=
  callWrite (some write.register.writeFunc) s (write.register.offset write.half) write.value

def HalfRegister.field : HalfRegister → RiscVMachine → Quadword
  | .timecmp, vm => vm.timecmp
  | .fromhost, vm => vm.htifFromhost

def Half.get : Half → Quadword → Word
  | .low, field => field.setWidth 32
  | .high, field => (field >>> 32).setWidth 32

def Half.set : Half → Quadword → Word → Quadword
  | .low => setLowHalf
  | .high => setHighHalf

/-- The complement of the mask keeps nothing. -/
theorem setLowHalf_eq (field : Quadword) (value : Word) :
    setLowHalf field value = value.setWidth 64 := by
  have none : (~~~(0xffffffff : Word)).setWidth 64 = (0 : Quadword) := by decide
  rw [setLowHalf,none]
  simp

theorem lowMask_bit64 (i : Nat) : ((0xffffffff : Word).setWidth 64).getLsbD i = decide (i < 32) := by
  have mask : (0xffffffff : Word) = BitVec.allOnes 32 := rfl
  rw [mask,BitVec.getLsbD_setWidth,BitVec.getLsbD_allOnes]
  by_cases low : i < 32 <;> simp [low]
  omega

theorem setHighHalf_bit (field : Quadword) (value : Word) (i : Nat) :
    (setHighHalf field value).getLsbD i =
      if i < 32 then field.getLsbD i else value.getLsbD (i - 32) := by
  rw [setHighHalf,BitVec.getLsbD_or,BitVec.getLsbD_and,lowMask_bit64]
  by_cases low : i < 32
  · simp [low]
  · by_cases wide : i < 64
    · simp [low,wide]
    · have beyond : value.getLsbD (i - 32) = false := BitVec.getLsbD_of_ge _ _ (by omega)
      simp [low,wide,beyond]

theorem Half.get_set_low (half : Half) (field : Quadword) (value : Word) :
    half.get (Half.low.set field value) = if half = .low then value else 0 := by
  cases half <;> simp only [Half.get,Half.set,setLowHalf_eq] <;> apply BitVec.eq_of_getLsbD_eq
    <;> intro i bound <;> simp

theorem Half.get_set_high (half : Half) (field : Quadword) (value : Word) :
    half.get (Half.high.set field value) = if half = .high then value else half.get field := by
  cases half <;> apply BitVec.eq_of_getLsbD_eq <;> intro i bound
  · simp [Half.get,Half.set,setHighHalf_bit,bound]
  · simp [Half.get,Half.set,setHighHalf_bit,bound]

theorem readHalf_eq (s : State) (register : HalfRegister) (half : Half) :
    readHalf s register half = .ok (half.get (register.field s.vm)) := by
  cases register <;> cases half <;> rfl

theorem writeHalf_eq [Platform] (s : State) (write : HalfWrite) :
    ∃ t, writeHalf s write = .ok t ∧ ∀ register : HalfRegister, register.field t.vm =
      if register = write.register then write.half.set (register.field s.vm) write.value
      else register.field s.vm := by
  obtain ⟨written,half,value⟩ := write
  cases written <;> cases half <;> refine ⟨_,rfl,?_⟩ <;> intro register <;> cases register <;> rfl

def writeHalves [Platform] (s : State) (writes : List HalfWrite) : Except Stop State :=
  writes.foldlM writeHalf s

/-- Every half as a cell of its own: what was last written to it, or else its first value. -/
def lastWritten (first : HalfRegister → Half → Word) (writes : List HalfWrite) :
    HalfRegister → Half → Word :=
  writes.foldl (fun cells write register half =>
    if register = write.register ∧ half = write.half then write.value else cells register half) first

/-- The half that the last write to a register went to. -/
def lastHalf (writes : List HalfWrite) (register : HalfRegister) : Option Half :=
  writes.foldl (fun last write => if write.register = register then some write.half else last) none

def halves (s : State) (register : HalfRegister) (half : Half) : Word :=
  half.get (register.field s.vm)

theorem lastWritten_concat (first : HalfRegister → Half → Word) (writes : List HalfWrite)
    (write : HalfWrite) (register : HalfRegister) (half : Half) :
    lastWritten first (writes ++ [write]) register half =
      if register = write.register ∧ half = write.half then write.value
      else lastWritten first writes register half := by
  simp [lastWritten]

theorem lastHalf_concat (writes : List HalfWrite) (write : HalfWrite) (register : HalfRegister) :
    lastHalf (writes ++ [write]) register =
      if write.register = register then some write.half else lastHalf writes register := by
  simp [lastHalf]

/-- What the halves hold: a high half is lost when its register was last written low. -/
theorem writeHalves_holds [Platform] (s : State) (writes : List HalfWrite) :
    ∃ t, writeHalves s writes = .ok t ∧ ∀ register half, halves t register half =
      if half = .high ∧ lastHalf writes register = some .low then 0
      else lastWritten (halves s) writes register half := by
  induction writes using List.reverseRecOn with
  | nil => exact ⟨s, rfl, fun register half => by simp [lastHalf,lastWritten]⟩
  | append_singleton writes write ih =>
    obtain ⟨t,ran,holds⟩ := ih
    obtain ⟨u,wrote,field⟩ := writeHalf_eq t write
    refine ⟨u, ?_, ?_⟩
    · rw [writeHalves,List.foldlM_append]
      rw [writeHalves] at ran
      rw [ran,ok_bind]
      simp [wrote]
    · intro register half
      rw [lastWritten_concat,lastHalf_concat,halves,field]
      by_cases same : register = write.register
      · subst same
        have before := holds write.register half
        rw [halves] at before
        simp only [if_true,true_and]
        cases written : write.half with
        | low =>
          rw [Half.get_set_low]
          cases half <;> simp
        | high =>
          rw [Half.get_set_high]
          cases half
          · simpa using before
          · simp
      · have other : write.register ≠ register := Ne.symm same
        have before := holds register half
        rw [halves] at before
        simpa [same,other] using before

/-- The halves are kept apart if and only if no register is last written low over a high half
that was not zero. -/
theorem writeHalves_apart_iff [Platform] (s : State) (writes : List HalfWrite) :
    ∃ t, writeHalves s writes = .ok t ∧
      ((∀ register half, readHalf t register half = .ok (lastWritten (halves s) writes register half)) ↔
        ∀ register, lastHalf writes register = some .low →
          lastWritten (halves s) writes register .high = 0) := by
  obtain ⟨t,ran,holds⟩ := writeHalves_holds s writes
  have read (register : HalfRegister) (half : Half) :
      readHalf t register half = .ok (halves t register half) := readHalf_eq ..
  refine ⟨t, ran, ?_⟩
  simp only [read,Except.ok.injEq]
  constructor
  · intro apart register low
    have lost := holds register .high
    rw [if_pos ⟨rfl,low⟩,apart] at lost
    exact lost
  · intro kept register half
    rw [holds]
    split
    next lost =>
      obtain ⟨rfl,low⟩ := lost
      exact (kept register low).symm
    next => rfl

/-- `timecmp` is set to `2 ^ 32` by its high half and then by its low one. -/
def setTimecmp : List HalfWrite := [⟨.timecmp,.high,1⟩, ⟨.timecmp,.low,0⟩]

theorem setTimecmp_loses :
    ¬∀ (s : State) (writes : List HalfWrite), ∃ t, @writeHalves clearingPlatform s writes = .ok t ∧
      ∀ register half, readHalf t register half = .ok (lastWritten (halves s) writes register half) := by
  intro apart
  obtain ⟨t,ran,reads⟩ := apart (guest privM []) setTimecmp
  have high := reads .timecmp .high
  rw [← Except.ok.inj ran] at high
  revert high
  decide

end Emuriscv
