import Emuriscv.Sv32
import Emuriscv.BitField
import Emuriscv.Cpu
import Emuriscv.Translation
import Emuriscv.PageWalk
import Emuriscv.PageFlags
import Emuriscv.TrapEntry
import Emuriscv.LabelledRun
import Emuriscv.StatusView
import Emuriscv.Access
import Emuriscv.Execute
import Emuriscv.Step
import Emuriscv.PreciseTrap
import Emuriscv.TrapStep
import Emuriscv.AccessFault
import Emuriscv.StatusRun
import Emuriscv.Reset
import Emuriscv.Privilege
import Emuriscv.CsrAccess
import Emuriscv.Fields
import Emuriscv.IntegerStep
import Emuriscv.BareMemory
import Emuriscv.AtomicStep
import Emuriscv.Containment
import Emuriscv.ByteAccess
import Emuriscv.WideAccess
import Emuriscv.Straddle
import Emuriscv.DeviceHalves
import Emuriscv.HtifConsole
import Emuriscv.LinuxRun
import Emuriscv.TimeOrder
import Emuriscv.DecodeTable
import Emuriscv.LegalEncoding
import Emuriscv.Disassembler
import Emuriscv.DecodeAlike
import Emuriscv.Rereads
import Emuriscv.Attended
import Emuriscv.AttendedRun
import Emuriscv.ZeroRegister
import Emuriscv.WordBits
import Emuriscv.InstructionFields
import Emuriscv.FetchedWord
import Emuriscv.Reservation
import Emuriscv.HeldStep
import Emuriscv.Assembler
import Emuriscv.AssemblerText
import Emuriscv.Reassembly
import Emuriscv.FaithfulText
import Emuriscv.MultiplyStep
import Emuriscv.CsrExchange
import Emuriscv.BootHandoff
import Emuriscv.Footprint
import Emuriscv.EcallTrace
import Emuriscv.Inspection
import Emuriscv.Codec
import Emuriscv.Snapshot
import Emuriscv.DeviceTree
import Emuriscv.FlatTree
import Emuriscv.Fdt
import Emuriscv.FdtBlob
import Emuriscv.FdtOutput
import Emuriscv.Lockstep
import Emuriscv.Twin
import Emuriscv.TwinStep
import Emuriscv.SnapshotRun
import Emuriscv.TrapReturn
import Emuriscv.AccessBounds
import Emuriscv.RangeLookup
import Emuriscv.Registration
import Emuriscv.NarrowLoad
import Emuriscv.UartFile
import Emuriscv.BootTree
import Emuriscv.ImagePlacement
import Emuriscv.SnapshotFile
import Emuriscv.SymbolList
import Emuriscv.Immediate
import Emuriscv.FdtBuffers
import Emuriscv.MonitorLine
import Emuriscv.PcHistory
import Emuriscv.Sight
import Emuriscv.StringDump
import Emuriscv.WordDump
import Emuriscv.MonitorRound
import Emuriscv.Rv32ima
import Emuriscv.HartRefinement
import Emuriscv.PageIsolation
import Emuriscv.MachineTree
import Emuriscv.RunLinux
import Emuriscv.TestSuite
import Emuriscv.VirtualMemory
import Emuriscv.Terminal
import Emuriscv.Firmware
import Emuriscv.MonitorSession
import Emuriscv.PrivilegedHart
import Emuriscv.PrivilegedRun
import Emuriscv.CheckpointSession
