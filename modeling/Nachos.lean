import Nachos.AbortedCalls
import Nachos.AbortedChanges
import Nachos.Assertions
import Nachos.BitMap
import Nachos.BitMapSet
import Nachos.BlockProgram
import Nachos.CallTrace
import Nachos.ConcurrentFiles
import Nachos.ConsoleInput
import Nachos.ConsoleIsolation
import Nachos.ConsoleOutput
import Nachos.ConsolePolling
import Nachos.ContextSwitch
import Nachos.Deadlock
import Nachos.DeadlockFree
import Nachos.Directory
import Nachos.DirectoryMap
import Nachos.DirectoryNames
import Nachos.DiskLatency
import Nachos.DiskProgram
import Nachos.Divide
import Nachos.Echo
import Nachos.EchoRun
import Nachos.FileAllocation
import Nachos.FileCopy
import Nachos.HostDisk
import Nachos.InterruptOrder
import Nachos.InterruptQueue
import Nachos.Kernel
import Nachos.KernelInvariant
import Nachos.KernelMode
import Nachos.KernelSteps
import Nachos.LastEvent
import Nachos.LinkedList
import Nachos.ListPointers
import Nachos.LoadDelay
import Nachos.LockValue
import Nachos.LockedDevice
import Nachos.MachineRun
import Nachos.Multiply
import Nachos.OpenFileBounds
import Nachos.OpenFileFrame
import Nachos.Overflow
import Nachos.PostDelivery
import Nachos.PostalNetwork
import Nachos.PreciseExceptions
import Nachos.ProgramLoading
import Nachos.Reboot
import Nachos.RegisterFrame
import Nachos.ScheduleOrder
import Nachos.SegmentBounds
import Nachos.SemaphoreInvariant
import Nachos.SharedDevice
import Nachos.StackLeak
import Nachos.Switch
import Nachos.SynchDisk
import Nachos.ThreadProgram
import Nachos.ThreadTable
import Nachos.TimeSlice
import Nachos.Timer
import Nachos.TranslationBuffer
import Nachos.UnalignedPairs
import Nachos.UninitData
import Nachos.UserFaults
import Nachos.UserStrings
import Nachos.UserThreadInvariant
import Nachos.VirtualMemory
import Nachos.X86
