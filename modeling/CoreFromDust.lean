import CoreFromDust.Lib.LittleEndian
import CoreFromDust.EasyFs.Block
import CoreFromDust.Lib.CellProg
import CoreFromDust.EasyFs.Layout
import CoreFromDust.EasyFs.Vfs
import CoreFromDust.EasyFs.Proofs.BitmapBits
import CoreFromDust.EasyFs.Proofs.BitmapAlloc
import CoreFromDust.EasyFs.Proofs.LayoutCodec
import CoreFromDust.EasyFs.Proofs.Slots
import CoreFromDust.EasyFs.Proofs.PointerTree
import CoreFromDust.EasyFs.Proofs.IncreaseSize
import CoreFromDust.EasyFs.Proofs.FileData
import CoreFromDust.EasyFs.Proofs.Geometry
import CoreFromDust.EasyFs.Proofs.Ownership
import CoreFromDust.EasyFs.Proofs.Growth
import CoreFromDust.EasyFs.Proofs.DataAlloc
import CoreFromDust.EasyFs.Proofs.InodeBody
import CoreFromDust.EasyFs.Proofs.FsState
import CoreFromDust.EasyFs.Proofs.Directory
import CoreFromDust.EasyFs.Proofs.DirCreate
import CoreFromDust.EasyFs.Proofs.CacheTransparent
import CoreFromDust.EasyFs.Proofs.FsCreate
import CoreFromDust.EasyFs.Proofs.Invariant
import CoreFromDust.EasyFs.Proofs.Calls
import CoreFromDust.EasyFs.Proofs.Names
import CoreFromDust.EasyFs.Proofs.Capacity
import CoreFromDust.EasyFs.FileContents
import CoreFromDust.EasyFs.BlockOwnership
import CoreFromDust.EasyFs.DirectoryNames
import CoreFromDust.EasyFs.Durability
import CoreFromDust.EasyFs.BitmapSet
import CoreFromDust.EasyFs.DataArea
import CoreFromDust.EasyFs.DiskPartition
import CoreFromDust.EasyFs.InodeGrowth
import CoreFromDust.Lib.LockDiscipline
import CoreFromDust.EasyFs.CacheLocks
import CoreFromDust.EasyFs.WriteLimits
import CoreFromDust.Os.Syscall
import CoreFromDust.Os.Proofs.Placement
import CoreFromDust.Os.Proofs.Moves
import CoreFromDust.Os.Proofs.Paths
import CoreFromDust.Os.Proofs.Scheduled
import CoreFromDust.Os.OnePlace
import CoreFromDust.Os.Proofs.References
import CoreFromDust.Os.WaitpidReferences
import CoreFromDust.Os.ExitCodes
import CoreFromDust.Os.Proofs.WaitHistory
import CoreFromDust.Os.ThreadCount
import CoreFromDust.Os.Proofs.Family
import CoreFromDust.Os.Proofs.Reports
import CoreFromDust.Os.ProcessTree
import CoreFromDust.Os.SyncCalls
import CoreFromDust.Os.Proofs.SyncEffects
import CoreFromDust.Os.DeadThreads
import CoreFromDust.Lib.Fifo
import CoreFromDust.Os.Proofs.Sparing
import CoreFromDust.Os.ReadyQueue
import CoreFromDust.Os.Killed
import CoreFromDust.Os.Switch
import CoreFromDust.Os.Flows
import CoreFromDust.Os.ThreadFlows
import CoreFromDust.Lib.LoggedRun
import CoreFromDust.Os.MutexOwners
import CoreFromDust.Os.BadHandles
import CoreFromDust.Lib.RiscV
import CoreFromDust.Os.Trap
import CoreFromDust.Os.TrapRoundTrip
import CoreFromDust.Os.SemaphoreCount
import CoreFromDust.Os.Proofs.CondvarEffects
import CoreFromDust.Os.CondvarWakeups
import CoreFromDust.Lib.Drain
import CoreFromDust.Os.TimerQueue
import CoreFromDust.Os.RecycledIds
import CoreFromDust.Lib.FreeStack
import CoreFromDust.Os.Mm.Address
import CoreFromDust.Os.Mm.FrameAllocator
import CoreFromDust.Os.Mm.FrameExclusivity
import CoreFromDust.Lib.LinkTree
import CoreFromDust.Os.Mm.PageTable
import CoreFromDust.Os.Mm.Proofs.TableTree
import CoreFromDust.Os.Mm.Proofs.FrameUse
import CoreFromDust.Os.Mm.Proofs.TableMaps
import CoreFromDust.Os.Mm.PartialMap
import CoreFromDust.Os.Mm.MemorySet
import CoreFromDust.Os.Mm.Proofs.SpaceWf
import CoreFromDust.Os.Mm.Proofs.SpacePages
import CoreFromDust.Os.Mm.Proofs.SpaceOps
import CoreFromDust.Os.Mm.Proofs.SpaceCopies
import CoreFromDust.Os.Mm.Proofs.SpaceFork
import CoreFromDust.Os.Mm.Spaces
import CoreFromDust.Os.Mm.SpaceConsistency
import CoreFromDust.Os.Mm.UserRes
import CoreFromDust.Os.Mm.UserBuffer
import CoreFromDust.Os.Mm.UserFrames
import CoreFromDust.Os.Mm.BufferEnds
import CoreFromDust.Os.Mm.UserBytes
import CoreFromDust.Os.Mm.Process
import CoreFromDust.Os.Mm.Proofs.UserWrites
import CoreFromDust.Os.Mm.UserRefs
import CoreFromDust.Os.Mm.UserStrings
import CoreFromDust.Os.Mm.Proofs.ProcessInv
import CoreFromDust.Os.Mm.Proofs.ProcessSteps
import CoreFromDust.Os.Mm.Proofs.ArgStack
import CoreFromDust.Os.Mm.Proofs.ExecSpace
import CoreFromDust.Os.Mm.ExecArgs
import CoreFromDust.Os.Mm.Proofs.TightTables
import CoreFromDust.Os.Mm.ExecStores
import CoreFromDust.Os.Mm.Proofs.EnoughFrames
import CoreFromDust.Os.Mm.ForkIsolation
import CoreFromDust.Os.Mm.Proofs.LoadedSegments
import CoreFromDust.Os.Mm.ElfImage
import CoreFromDust.Os.Mm.UserStackBase
import CoreFromDust.Os.Mm.StacksApart
import CoreFromDust.Os.Mm.Proofs.Evolution
import CoreFromDust.Os.Mm.Proofs.ThreadEvolution
import CoreFromDust.Os.Mm.Isolation
import CoreFromDust.Lib.Window
import CoreFromDust.Os.Fs.Pipe
import CoreFromDust.Os.Fs.Proofs.PipeBuffers
import CoreFromDust.Os.Fs.PipeFifo
import CoreFromDust.Os.Fs.Inode
import CoreFromDust.Os.Fs.SplitCalls
import CoreFromDust.Os.Fs.Stdio
import CoreFromDust.Os.Fs.FdTable
import CoreFromDust.Lib.Answers
import CoreFromDust.Os.Fs.OpenFiles
import CoreFromDust.Os.Fs.NamedFiles
import CoreFromDust.Os.Fs.FileCalls
import CoreFromDust.Fuse.Pack
import CoreFromDust.User.Shell
import CoreFromDust.User.CommandParsing
import CoreFromDust.User.Pipelines
import CoreFromDust.Lib.Interleaving
import CoreFromDust.Lib.Locks
import CoreFromDust.Lib.OrderedLocks
import CoreFromDust.User.CriticalSections
import CoreFromDust.User.MutualExclusion
import CoreFromDust.User.Philosophers
import CoreFromDust.User.SemaphoreTokens
import CoreFromDust.User.BoundedBuffer
import CoreFromDust.User.Barriers
