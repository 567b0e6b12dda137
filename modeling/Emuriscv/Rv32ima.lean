import Emuriscv.FlatMemory
import Emuriscv.Rv32i
import Emuriscv.Rv32m

/-! A hart of RV32IMA without traps, as the architecture describes it: what an instruction does to
the registers, the memory and the reservation, and where it does so without an exception. Which
words encode an instruction and which addresses are memory are parameters. -/
namespace Rv32ima

open Rv32i (Word Index rd rs1 rs2 iImm sImm write)

inductive Width where
  | byte
  | half
  | word
  deriving DecidableEq, Repr

def Width.bytes : Width → Nat
  | .byte => 1
  | .half => 2
  | .word => 4

/-- A loaded number as a register takes it. -/
def Width.extend (width : Width) (signed : Bool) (value : Nat) : Word :=
  let loaded := BitVec.ofNat (8 * width.bytes) value
  if signed then loaded.signExtend 32 else loaded.setWidth 32

inductive Amo where
  | add
  | and
  | or
  | xor
  | swap
  | min
  | max
  | minu
  | maxu
  deriving DecidableEq, Repr

def Amo.result : Amo → Word → Word → Word
  | .add, old, operand => old + operand
  | .and, old, operand => old &&& operand
  | .or, old, operand => old ||| operand
  | .xor, old, operand => old ^^^ operand
  | .swap, _, operand => operand
  | .min, old, operand => if old.toInt ≤ operand.toInt then old else operand
  | .max, old, operand => if operand.toInt ≤ old.toInt then old else operand
  | .minu, old, operand => if old.toNat ≤ operand.toNat then old else operand
  | .maxu, old, operand => if operand.toNat ≤ old.toNat then old else operand

/-- A shift by an immediate is the shift of the I-immediate, of which five bits count. -/
inductive Instruction where
  | computation (which : Rv32i.Computation)
  | transfer (which : Rv32i.Transfer)
  | jalr
  | multiply (which : Rv32m.Op)
  | load (width : Width) (signed : Bool)
  | store (width : Width)
  | amo (which : Amo)
  | loadReserved
  | storeConditional
  | fence
  deriving DecidableEq, Repr

structure Hart where
  pc : Word
  x : Index → Word
  memory : FlatMemory.Memory
  reservation : Option Word

/-- The address and the size of the access, if there is one. -/
def Instruction.access (instruction : Instruction) (x : Index → Word) (word : Word) :
    Option (Word × Nat) :=
  match instruction with
  | .load width _ => some (x (rs1 word) + iImm word, width.bytes)
  | .store width => some (x (rs1 word) + sImm word, width.bytes)
  | .amo _ | .loadReserved | .storeConditional => some (x (rs1 word), 4)
  | _ => none

def Instruction.atomic : Instruction → Bool
  | .amo _ | .loadReserved | .storeConditional => true
  | _ => false

namespace Hart

/-- The word at an address. -/
def wordAt (h : Hart) (address : Word) : Word := BitVec.ofNat 32 (FlatMemory.load h.memory address.toNat 4)

def put (h : Hart) (address : Word) (width : Width) (value : Word) : Hart :=
  { h with memory := FlatMemory.store h.memory address.toNat width.bytes value.toNat }

/-- To the next instruction, with a result in `rd`. -/
def next (h : Hart) (word value : Word) : Hart :=
  { h with pc := h.pc + 4, x := write h.x (rd word) value }

end Hart

/-- A conditional store that fails leaves memory alone, and every one uses the reservation up. -/
def Instruction.effect (instruction : Instruction) (h : Hart) (word : Word) : Hart :=
  let source := h.x (rs1 word)
  let operand := h.x (rs2 word)
  match instruction with
  | .computation which => h.next word (which.result h.x word)
  | .transfer which =>
    { h with pc := which.target h.x h.pc word, x := which.registers h.x h.pc word }
  | .jalr => { h.next word (h.pc + 4) with pc := Rv32i.jalrTarget h.x word }
  | .multiply which => h.next word (which.result source operand)
  | .load width signed =>
    h.next word (width.extend signed
      (FlatMemory.load h.memory (source + iImm word).toNat width.bytes))
  | .store width => { h.put (source + sImm word) width operand with pc := h.pc + 4 }
  | .amo which =>
    (h.put source .word (which.result (h.wordAt source) operand)).next word (h.wordAt source)
  | .loadReserved => { h.next word (h.wordAt source) with reservation := some source }
  | .storeConditional =>
    let done := if h.reservation = some source then (h.put source .word operand).next word 0
      else h.next word 1
    { done with reservation := none }
  | .fence => { h with pc := h.pc + 4 }

/-- The instruction raises no exception: its access is to memory, where an atomic is aligned, and
the next instruction has an aligned address. -/
structure Instruction.Completes (ram : Word → Nat → Prop) (instruction : Instruction) (h : Hart)
    (word : Word) : Prop where
  access : ∀ address width, instruction.access h.x word = some (address,width) → ram address width
  aligned : ∀ address width, instruction.access h.x word = some (address,width) →
    instruction.atomic = true → 4 ∣ address.toNat
  target : 4 ∣ (instruction.effect h word).pc.toNat

/-- One instruction, in the word that the hart finds at `pc`. -/
structure Step (encodes : Instruction → Word → Prop) (ram : Word → Nat → Prop) (h : Hart)
    (executed : Instruction × Word) (h' : Hart) : Prop where
  fetch : ram h.pc 4
  word : executed.2 = h.wordAt h.pc
  encoded : encodes executed.1 executed.2
  completes : executed.1.Completes ram h executed.2
  effect : h' = executed.1.effect h executed.2

/-- A device with registers of a word: what a load reads from an address, and what a store to it
leaves, if there is a register and the device goes on. -/
structure Device (δ : Type) where
  read : δ → Word → Option Word
  write : δ → Word → Word → Option δ

/-- One instruction of a hart that shares its bus with a device. -/
inductive BusStep {δ : Type} (encodes : Instruction → Word → Prop) (ram : Word → Nat → Prop)
    (device : Device δ) : Hart × δ → Instruction × Word → Hart × δ → Prop
  | memory {d : δ} (step : Step encodes ram h executed h') :
      BusStep encodes ram device (h,d) executed (h',d)
  | load {d : δ} (fetch : ram h.pc 4) (encoded : encodes (.load .word true) (h.wordAt h.pc))
      (reads : device.read d (h.x (rs1 (h.wordAt h.pc)) + iImm (h.wordAt h.pc)) = some value) :
      BusStep encodes ram device (h,d) (.load .word true, h.wordAt h.pc)
        (h.next (h.wordAt h.pc) value, d)
  | store {d d' : δ} (fetch : ram h.pc 4) (encoded : encodes (.store .word) (h.wordAt h.pc))
      (writes : device.write d (h.x (rs1 (h.wordAt h.pc)) + sImm (h.wordAt h.pc))
        (h.x (rs2 (h.wordAt h.pc))) = some d') :
      BusStep encodes ram device (h,d) (.store .word, h.wordAt h.pc) ({ h with pc := h.pc + 4 }, d')

end Rv32ima
