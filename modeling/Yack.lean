import Yack.ByteMemory
import Yack.Memop
import Yack.LinkRing
import Yack.MemoryLayout
import Yack.IntrusiveList
import Yack.KernelState
import Yack.PageAllocator
import Yack.PageQueue
import Yack.PageTables
import Yack.AddressSpaces
import Yack.KernelAddressSpace
import Yack.TextFormatter
import Yack.FormatText
import Yack.SerialPort
import Yack.VgaConsole
import Yack.TrapEntry
import Yack.InterruptAcknowledge
import Yack.SerialReentry
import Yack.AddressSpaceSwitch
import Yack.SegmentDescriptors
import Yack.SerialPolling
import Yack.PageRange
import Yack.PageExhaustion
import Yack.DecimalText
import Yack.FormatTermination
import Yack.MappedRange
import Yack.VgaAttributes
import Yack.Numerals
import Yack.SerialLine
import Yack.KernelLog
import Yack.SerialRegistry
import Yack.InterruptController
import Yack.MemoryManager
import Yack.InterruptService
import Yack.TrapService
import Yack.HigherHalf
import Yack.KernelOutput
import Yack.SegmentLoading
import Yack.ListOperations
import Yack.BootMemory
import Yack.BootLog
import Yack.KernelMain
import Yack.KernelLoop
import Yack.ChainSurgery
import Yack.HashLists
