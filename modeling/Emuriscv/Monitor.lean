import Emuriscv.Footprint
import Emuriscv.Numeral

/-! The commands of `monitor.c` that only show something, without what they print. A command has
the tokens of its line behind its name for arguments. -/
namespace Emuriscv.Monitor

open Numeral

/-- `isspace` of the "C" locale. -/
def isSpace (c : Char) : Bool := c = ' ' || (9 ≤ c.toNat && c.toNat ≤ 13)

/-- An optional sign, and whether it is a minus. -/
def takeSign : Text → Bool × Text
  | '-' :: rest => (true,rest)
  | '+' :: rest => (false,rest)
  | text => (false,text)

/-- The value of the digits that the text begins with. -/
def leadingValue (base : Nat) (text : Text) : Nat :=
  (read base (text.takeWhile fun c => (digit c).any (· < base))).getD 0

/-- `0x`, if a digit follows. -/
def skipHexPrefix : Text → Text
  | '0' :: x :: c :: rest =>
    if (x = 'x' ∨ x = 'X') ∧ (digit c).isSome then c :: rest else '0' :: x :: c :: rest
  | text => text

/-- `strtoul(token, NULL, 16)`, with an `unsigned long` of 32 bits as both platforms of the
solution have it. -/
def strtoul (token : Text) : Word :=
  let (negative, text) := takeSign (token.dropWhile isSpace)
  let value := leadingValue 16 (skipHexPrefix text)
  if value < 2 ^ 32 then if negative then -BitVec.ofNat 32 value else BitVec.ofNat 32 value
  else BitVec.ofNat 32 (2 ^ 32 - 1)

/-- `atoi`, which stops at the ends of its range. -/
def atoi (token : Text) : BitVec 32 :=
  let (negative, text) := takeSign (token.dropWhile isSpace)
  let value := leadingValue 10 text
  if negative then BitVec.ofInt 32 (-(min value (2 ^ 31) : Nat))
  else BitVec.ofNat 32 (min value (2 ^ 31 - 1))

def regName : List String := [
  "zero", "ra", "sp", "gp", "tp", "t0", "t1", "t2", "s0", "s1", "a0", "a1", "a2", "a3", "a4", "a5",
  "a6", "a7", "s2", "s3", "s4", "s5", "s6", "s7", "s8", "s9", "s10", "s11", "t3", "t4", "t5", "t6"]

def findRegister (name : Text) : Option Nat :=
  (List.range 32).find? fun i =>
    'x' :: Nat.toDigits 10 i = name ∨ (regName.getD i "").toList = name

/-- An unknown register has the value 0. -/
def getRegisterValue (s : State) (name : Text) : Word :=
  if name = "pc".toList then s.pc
  else
    match findRegister name with
    | none => 0
    | some index => s.x (BitVec.ofNat 5 index)

def getAddress (token : Text) : Word := strtoul token

/-- `get_repeat`: the number behind the first argument. It passes through a `word`. -/
def getRepeat : List Text → Nat
  | _ :: count :: _ => (atoi count).toNat
  | _ => 1

/-- `rounds` iterations of a loop over the words below `bound`. The comparison is made in
`size_t`, so that the address, which is a `word`, may wrap and never reach the bound; then no
iteration after the first `2 ^ 30` is at a new address. -/
def dumpLoop (body : State → Word → Except Stop State) (bound : Nat) :
    Nat → State → Word → Except Stop State
  | 0, _, _ => throw .diverges
  | rounds + 1, s, address =>
    if address.toNat < bound then do
      let s ← body s address
      dumpLoop body bound rounds s (address + wordSize)
    else pure s

/-- `start_address + count * WORD_SIZE` in a `size_t` of `sizeBits` bits. -/
def dumpBound (sizeBits : Nat) (startAddress : Word) (count : Nat) : Nat :=
  (startAddress.toNat + count * 4) % 2 ^ sizeBits

/-- The body of the virtual dumps. A failed lookup is reported, and the word is read all the same. -/
def dumpOne (s : State) (address : Word) : Except Stop State := do
  let l ← getMemoryTarget s address .load
  let (_, s) ← readWord l.state address
  pure s

def dumpMemoryPhysical (sizeBits : Nat) (s : State) (startAddress : Word) (count : Nat) :
    Except Stop State :=
  dumpLoop (fun s address => do let _ ← readWordPhysical s address; pure s)
    (dumpBound sizeBits startAddress count) (2 ^ 30 + 1) s startAddress

def dumpMemoryVirtual (sizeBits : Nat) (s : State) (startAddress : Word) (count : Nat) :
    Except Stop State :=
  dumpLoop dumpOne (dumpBound sizeBits startAddress count) (2 ^ 30 + 1) s startAddress

def disassembleWord (sizeBits : Nat) (s : State) (startAddress : Word) (count : Nat) :
    Except Stop State :=
  dumpLoop dumpOne (dumpBound sizeBits startAddress count) (2 ^ 30 + 1) s startAddress

def dumpBacktrace (s : State) : Except Stop State :=
  (List.finRange pcHistoryDepth).foldlM (fun s i => dumpOne s (s.pcHistory i)) s

/-- `privilege_name` has four entries. -/
def dumpRegisters (s : State) : Except Stop State :=
  if s.privilege.toNat < 4 then pure s else throw .outOfBounds

structure Symbol where
  offset : Word
  name : String

/-- The last symbol before the first one behind the address, from a candidate on. -/
def getSymbolFrom (address : Word) (candidate : Symbol) : List Symbol → Symbol
  | [] => candidate
  | [_] => candidate
  | current :: rest =>
    if current.offset ≤ address then getSymbolFrom address current rest else candidate

def getSymbol (symbols : List Symbol) (address : Word) : Except Stop Symbol :=
  match symbols with
  | [] => throw .nullPointer
  | head :: rest => pure (getSymbolFrom address head (head :: rest))

inductive Inspector where
  | regs | reg | p | pp | x | xs | xp | d | dr | bt | sym
  deriving DecidableEq, Repr

structure Command where
  inspector : Inspector
  arguments : List Text

/-- The branch of `run_monitor_loop`. Only `xp` does not look whether it has an argument. -/
def Command.run (sizeBits : Nat) (symbols : List Symbol) (command : Command) (s : State) :
    Except Stop State :=
  match command.inspector, command.arguments with
  | .regs, _ => dumpRegisters s
  | .reg, _ => pure s
  | .p, name :: _ =>
    dumpMemoryVirtual sizeBits s (getRegisterValue s name) (getRepeat command.arguments)
  | .pp, name :: _ =>
    dumpMemoryPhysical sizeBits s (getRegisterValue s name) (getRepeat command.arguments)
  | .x, address :: _ =>
    dumpMemoryVirtual sizeBits s (getAddress address) (getRepeat command.arguments)
  | .xs, address :: _ => dumpStringVirtual s (getAddress address)
  | .xp, [] => throw .nullPointer
  | .xp, [address] => dumpMemoryPhysical sizeBits s (strtoul address) 1
  | .xp, address :: count :: _ =>
    -- `atoi` is converted to `size_t` at once
    dumpMemoryPhysical sizeBits s (strtoul address) ((atoi count).signExtend sizeBits).toNat
  | .d, address :: _ =>
    disassembleWord sizeBits s (getAddress address) (getRepeat command.arguments)
  | .dr, name :: _ =>
    disassembleWord sizeBits s (getRegisterValue s name) (getRepeat command.arguments)
  | .bt, _ => dumpBacktrace s
  | .sym, _ => do
    let _ ← getSymbol symbols s.pc
    pure s
  | _, [] => pure s

/-- A session of such commands. -/
def runMonitor (sizeBits : Nat) (symbols : List Symbol) (s : State) (commands : List Command) :
    Except Stop State :=
  commands.foldlM (fun s command => command.run sizeBits symbols s) s

end Emuriscv.Monitor
