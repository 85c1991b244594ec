import MulticoreRtos.Transition
import MulticoreRtos.DyadicTree
import MulticoreRtos.LinkedList
import MulticoreRtos.CyclicBuffer
import MulticoreRtos.Population
import MulticoreRtos.LockDiscipline
import MulticoreRtos.HeapRuns
import MulticoreRtos.HeapExact
import MulticoreRtos.SectionAtomicity
import MulticoreRtos.BinarySemaphore
import MulticoreRtos.CountingSemaphore
import MulticoreRtos.MpmcFifo
import MulticoreRtos.MpmcFifoBounds
import MulticoreRtos.MpmcFifoThreads
import MulticoreRtos.FifoPrograms
import MulticoreRtos.SpscFifo
import MulticoreRtos.UartReceive
import MulticoreRtos.RunQueue
import MulticoreRtos.Dispatch
import MulticoreRtos.Serialized
import MulticoreRtos.Ownership
import MulticoreRtos.Sections
import MulticoreRtos.SerializedCalls
import MulticoreRtos.SerializedRuns
import MulticoreRtos.SchedulerStats
import MulticoreRtos.PadChecksum
import MulticoreRtos.SleepQueue
import MulticoreRtos.SleepAlarm
import MulticoreRtos.PeriodicQueue
import MulticoreRtos.ContextSwitch
import MulticoreRtos.RepeatedSchedule
import MulticoreRtos.StackReuse
import MulticoreRtos.SpinlockNesting
import MulticoreRtos.LockOrder
import MulticoreRtos.SpinlockOrder
import MulticoreRtos.HeapStats
import MulticoreRtos.SemaphoreSafety
import MulticoreRtos.Rotation
import MulticoreRtos.RoundRobin
import MulticoreRtos.Roster
import MulticoreRtos.RosterMirror
import MulticoreRtos.RosterRuns
import MulticoreRtos.SignalPreemption
import MulticoreRtos.StableQueue
import MulticoreRtos.BlockedLists
import MulticoreRtos.SleepCoverage
import MulticoreRtos.PeriodicAlarm
import MulticoreRtos.HeapUndo
import MulticoreRtos.Creation
import MulticoreRtos.PeriodicRing
import MulticoreRtos.PeriodicRuns
import MulticoreRtos.PeriodicWrap
import MulticoreRtos.Thumb
import MulticoreRtos.PendSv
import MulticoreRtos.ThreadContexts
import MulticoreRtos.InitialFrame
import MulticoreRtos.SpscAllocation
import MulticoreRtos.FifoSizes
import MulticoreRtos.UartTransmit
import MulticoreRtos.UartOrder
import MulticoreRtos.UartProgress
import MulticoreRtos.UartMasked
import MulticoreRtos.LineInput
import MulticoreRtos.LineEcho
import MulticoreRtos.CString
import MulticoreRtos.Interpreter
import MulticoreRtos.CommandLine
import MulticoreRtos.CommandArguments
import MulticoreRtos.Decimal
import MulticoreRtos.Shell
import MulticoreRtos.ShellSession
import MulticoreRtos.Fnv
import MulticoreRtos.NearMisses
import MulticoreRtos.RawTime
import MulticoreRtos.IdleTime
import MulticoreRtos.HeapWalks
import MulticoreRtos.FirstFit
import MulticoreRtos.HeapRefinement
import MulticoreRtos.HeapPacking
import MulticoreRtos.HeapContents
import MulticoreRtos.CoreLaunch
import MulticoreRtos.CoreStart
