import Nachos.GuardedRuns
import Nachos.BitMap
import Nachos.PhysicalFrames
import Nachos.OpenFileTable
import Nachos.LockExclusion
import Nachos.SemaphoreCounting
import Nachos.ThreadLife
import Nachos.ConditionVariables
import Nachos.SynchList
import Nachos.DeviceCalls
import Nachos.SynchDisk
import Nachos.ProcessIds
import Nachos.LockOrder
import Nachos.JoinContract
import Nachos.PagingRefinement
import Nachos.FileHandles
import Nachos.ReplacementQueue
import Nachos.HeaderSectors
import Nachos.FailedOperations
import Nachos.ExtendingWrites
import Nachos.ThreadPrograms
import Nachos.FilePrograms
import Nachos.FreeMapProtocol
import Nachos.ConcurrentGrowth
import Nachos.UserCopies
import Nachos.UserStrings
import Nachos.FileDurability
import Nachos.Ownership
import Nachos.CStrings
import Nachos.FileSystem
import Nachos.NameSpace
import Nachos.SwapMap
import Nachos.InterruptQueue
import Nachos.MipsCorrectness
import Nachos.PageFaults
import Nachos.FreshMemory
import Nachos.SharedCounter
import Nachos.UserContexts
import Nachos.Packets
import Nachos.PostSending
import Nachos.PostDelivery
import Nachos.DirectoryMap
import Nachos.WhileLoops
import Nachos.LoaderTurns
import Nachos.LoaderConfinement
import Nachos.MemoryIsolation
import Nachos.SpaceCloning
import Nachos.InstructionSafety
import Nachos.LockedRoutines
import Nachos.ManagerCalls
import Nachos.ManagerContracts
import Nachos.ExecCalls
import Nachos.BitMapSets
import Nachos.LinkedChains
import Nachos.DiskLatency
import Nachos.ItemLists
import Nachos.CoffConversion
import Nachos.ConsoleInput
import Nachos.CodeContexts
import Nachos.InterruptLevels
import Nachos.ForkedSpaces
import Nachos.ProgramImages
import Nachos.ContextSwitch
import Nachos.SystemCalls
import Nachos.ReadyOrder
