import BlackPill.Runs
import BlackPill.TwoRuns
import BlackPill.CyclicBuffer
import BlackPill.ByteMemory
import BlackPill.Objects
import BlackPill.ShellApi
import BlackPill.UsbReceive
import BlackPill.UsbCount
import BlackPill.BerryLang
import BlackPill.BerryLifecycle
import BlackPill.MessageBuffer
import BlackPill.BerryLines
import BlackPill.ShellSession
import BlackPill.ShellTimer
import BlackPill.ShellExpiry
import BlackPill.ShellCommands
import BlackPill.ShellLed
import BlackPill.Interleaving
import BlackPill.UsbTransmit
import BlackPill.UsbInFlight
import BlackPill.UsbWriteResult
import BlackPill.HeapAllocator
import BlackPill.HeapBounds
import BlackPill.Tilings
import BlackPill.LinkedNodes
import BlackPill.Heap4
import BlackPill.Heap4Runs
import BlackPill.Heap4Stats
import BlackPill.HeapShared
import BlackPill.Heap4Links
import BlackPill.Heap4Blocks
import BlackPill.Heap4Calls
import BlackPill.KernelLists
import BlackPill.KernelListRuns
import BlackPill.Epochs
import BlackPill.Schedules
import BlackPill.KernelTimers
import BlackPill.KernelTimersCalls
import BlackPill.KernelTimersRuns
