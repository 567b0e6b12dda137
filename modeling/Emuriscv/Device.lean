import Emuriscv.State

/-! The three memory-mapped devices: the CLINT of `clint.c`, and the HTIF and UART of
`run_linux.c`. Offsets are relative to the range, as `get_memory_target_physical`
computes them from a null `phys_mem_ptr`. -/
namespace Emuriscv

/-- `clint_write` calls `reset_mip(MIP_MTIP)`, which no file of the repository defines.
It is given by what it makes of the hart's `mip`, the only word it may touch. -/
class Platform where
  resetMip : Word → Word → Word

def sifiveTimecmpLow : Word := 0x4000
def sifiveTimecmpHigh : Word := sifiveTimecmpLow + 4
def sifiveTimeLow : Word := 0xBFF8
def sifiveTimeHigh : Word := sifiveTimeLow + 4
def mipMtip : Word := (1 : Word) <<< 7

/-- A fake clock: the instructions emulated so far. -/
def rtcGetTime (vm : RiscVMachine) : Quadword := vm.cycles

def clintRead (s : State) (offset : Word) : Word :=
  if offset = sifiveTimeLow then (rtcGetTime s.vm).setWidth 32
  else if offset = sifiveTimeHigh then (rtcGetTime s.vm >>> 32).setWidth 32
  else if offset = sifiveTimecmpLow then s.vm.timecmp.setWidth 32
  else if offset = sifiveTimecmpHigh then (s.vm.timecmp >>> 32).setWidth 32
  else 0

/-- `(field & ~0xffffffff) | val`: the complement is a 32-bit zero before it is widened. -/
def setLowHalf (field : Quadword) (val : Word) : Quadword :=
  (field &&& (~~~(0xffffffff : Word)).setWidth 64) ||| val.setWidth 64

def setHighHalf (field : Quadword) (val : Word) : Quadword :=
  (field &&& (0xffffffff : Word).setWidth 64) ||| (val.setWidth 64 <<< 32)

def resetMip [Platform] (s : State) (mask : Word) : State :=
  writeCsr s csrMip (Platform.resetMip mask (readCsr s csrMip))

def clintWrite [Platform] (s : State) (offset val : Word) : State :=
  if offset = sifiveTimecmpLow then
    resetMip { s with vm := { s.vm with timecmp := setLowHalf s.vm.timecmp val } } mipMtip
  else if offset = sifiveTimecmpHigh then
    resetMip { s with vm := { s.vm with timecmp := setHighHalf s.vm.timecmp val } } mipMtip
  else s

def htifRead (s : State) (offset : Word) : Word :=
  if offset = 0 then s.vm.htifTohost.setWidth 32
  else if offset = 4 then (s.vm.htifTohost >>> 32).setWidth 32
  else if offset = 8 then s.vm.htifFromhost.setWidth 32
  else if offset = 12 then (s.vm.htifFromhost >>> 32).setWidth 32
  else 0

def consoleWrite (s : State) (byte : Byte) : State := { s with console := s.console ++ [byte] }

def htifHandleCmd (s : State) : Except Stop State :=
  let device : Word := (s.vm.htifTohost >>> 56).setWidth 32
  let cmd : Word := (s.vm.htifTohost >>> 48).setWidth 32 &&& 0xff
  if s.vm.htifTohost = 1 then throw (.exit exitPoweroff)
  else if device = 1 ∧ cmd = 1 then
    let s := consoleWrite s (s.vm.htifTohost.setWidth 8)
    pure { s with vm := { s.vm with
      htifTohost := 0
      htifFromhost := (device.setWidth 64 <<< 56) ||| (cmd.setWidth 64 <<< 48) } }
  else if device = 1 ∧ cmd = 0 then pure { s with vm := { s.vm with htifTohost := 0 } }
  else pure s

def htifWrite (s : State) (offset val : Word) : Except Stop State :=
  if offset = 0 then
    pure { s with vm := { s.vm with htifTohost := setLowHalf s.vm.htifTohost val } }
  else if offset = 4 then
    htifHandleCmd { s with vm := { s.vm with htifTohost := setHighHalf s.vm.htifTohost val } }
  else if offset = 8 then
    pure { s with vm := { s.vm with htifFromhost := setLowHalf s.vm.htifFromhost val } }
  else if offset = 12 then
    pure { s with vm := { s.vm with htifFromhost := setHighHalf s.vm.htifFromhost val } }
  else pure s

def uartRegTxfifo : Nat := 0

def uartRead (s : State) (offset : Word) : Except Stop Word :=
  let offsetWords := (offset >>> 2).toNat
  if offsetWords = uartRegTxfifo then pure 0
  else if h : offsetWords < 7 then pure (s.uart.reg ⟨offsetWords,h⟩)
  else throw .outOfBounds

def uartWrite (s : State) (offset val : Word) : Except Stop State :=
  let offsetWords := (offset >>> 2).toNat
  if h : offsetWords < 7 then
    let uart := { s.uart with reg := Function.update s.uart.reg ⟨offsetWords,h⟩ val }
    if offsetWords = uartRegTxfifo then
      if val ≠ 0 ∧ val ≠ 0x40 ∧ val ≠ 0x5e then
        pure { s with uart := { uart with sent := uart.sent ++ [val.setWidth 8] } }
      else pure { s with uart := { uart with skipped := uart.skipped + 1 } }
    else pure { s with uart := uart }
  else throw .outOfBounds

/-- The call `range->read_func(range->opaque, ptr, size_log2)`; no callback looks at the size. -/
def callRead (f : Option DeviceReadFunc) (s : State) (offset : Word) : Except Stop Word :=
  match f with
  | none => throw .nullPointer
  | some .clintRead => pure (clintRead s offset)
  | some .htifRead => pure (htifRead s offset)
  | some .uartRead => uartRead s offset

def callWrite [Platform] (f : Option DeviceWriteFunc) (s : State) (offset val : Word) :
    Except Stop State :=
  match f with
  | none => throw .nullPointer
  | some .clintWrite => pure (clintWrite s offset val)
  | some .htifWrite => htifWrite s offset val
  | some .uartWrite => uartWrite s offset val

end Emuriscv
