import CapstoneKernel.Lib.Execution
import CapstoneKernel.Lib.IntrusiveList
import CapstoneKernel.Lib.BuddyTiling
import CapstoneKernel.Mem.Buddy
import CapstoneKernel.Mem.BuddyInvariant
import CapstoneKernel.Mem.BuddySpec
import CapstoneKernel.Mem.BuddyRoutines
import CapstoneKernel.Mem.BuddyReserve
import CapstoneKernel.Mem.BuddyRuns
import CapstoneKernel.Mem.Reservation
import CapstoneKernel.Mem.Dynamic
import CapstoneKernel.Lib.LinkedChain
import CapstoneKernel.Mem.DynamicInvariant
import CapstoneKernel.Mem.DynamicScan
import CapstoneKernel.Mem.DynamicSpec
import CapstoneKernel.Mem.DynamicMalloc
import CapstoneKernel.Mem.DynamicFree
import CapstoneKernel.Mem.DynamicRuns
import CapstoneKernel.Mem.Exhaustion
import CapstoneKernel.Lib.RadixTable
import CapstoneKernel.VMem.PageTable
import CapstoneKernel.VMem.Process
import CapstoneKernel.VMem.References
import CapstoneKernel.VMem.Invariant
import CapstoneKernel.VMem.Steps
import CapstoneKernel.VMem.Runs
import CapstoneKernel.VMem.PageZero
import CapstoneKernel.VMem.Counts
import CapstoneKernel.VMem.Ownership
import CapstoneKernel.VMem.Isolation
import CapstoneKernel.VMem.Release
import CapstoneKernel.Lib.Places
import CapstoneKernel.Sched.Invariant
import CapstoneKernel.Sched.Dying
import CapstoneKernel.Sched.Steps
import CapstoneKernel.Sched.Queues
import CapstoneKernel.Sched.Wakeup
import CapstoneKernel.Sched.Lists
import CapstoneKernel.Irq.Machine
import CapstoneKernel.Irq.Transmit
import CapstoneKernel.Irq.Deferred
import CapstoneKernel.Irq.Nesting
import CapstoneKernel.Vfs.Tmpfs
import CapstoneKernel.Fat32.Volume
import CapstoneKernel.Fat32.Operations
import CapstoneKernel.Fat32.Chain
import CapstoneKernel.Fat32.Allocation
import CapstoneKernel.Fat32.Directory
import CapstoneKernel.Fat32.Writing
import CapstoneKernel.Fat32.Runs
import CapstoneKernel.Fat32.Loading
import CapstoneKernel.Fat32.LostClusters
import CapstoneKernel.Fat32.SectorClusters
import CapstoneKernel.Fat32.WriteBack
import CapstoneKernel.Fat32.Slots
import CapstoneKernel.Fat32.Content
import CapstoneKernel.Fat32.FreeSpace
import CapstoneKernel.Fat32.PlainFile
import CapstoneKernel.Vfs.CappedFile
import CapstoneKernel.Vfs.Descriptors
import CapstoneKernel.Vfs.Handles
import CapstoneKernel.Fat32.Walkers
import CapstoneKernel.Lib.Paths
import CapstoneKernel.Vfs.Invariant
import CapstoneKernel.Vfs.Siblings
import CapstoneKernel.Vfs.Lookup
import CapstoneKernel.Vfs.Mounts
import CapstoneKernel.Vfs.Failures
import CapstoneKernel.Vfs.Permissions
import CapstoneKernel.Fat32.Parsing
import CapstoneKernel.Fat32.StoredTree
import CapstoneKernel.Fat32.Mounting
import CapstoneKernel.Fat32.FlatDirectory
import CapstoneKernel.Mem.BuddyBlocks
import CapstoneKernel.Mem.Leaks
import CapstoneKernel.Mem.Requests
import CapstoneKernel.Mem.SimpleMalloc
import CapstoneKernel.Lib.TableWalk
import CapstoneKernel.VMem.TableWords
import CapstoneKernel.VMem.FillRange
import CapstoneKernel.VMem.TableContents
import CapstoneKernel.Irq.RingBuf
import CapstoneKernel.Irq.RingUsers
import CapstoneKernel.Irq.UartWaiters
import CapstoneKernel.Sched.Signals
import CapstoneKernel.Fat32.Syncing
import CapstoneKernel.Fat32.Entries
import CapstoneKernel.Fat32.FirstSector
import CapstoneKernel.Fat32.Persistence
import CapstoneKernel.Fat32.ShortNames
import CapstoneKernel.Fat32.OwnEntry
import CapstoneKernel.Irq.LineEditing
import CapstoneKernel.Irq.OrderedInsertion
import CapstoneKernel.Vfs.Resolution
import CapstoneKernel.Vfs.Tokenizer
import CapstoneKernel.Sched.Creation
import CapstoneKernel.Sched.Killing
import CapstoneKernel.Lib.ByteWords
import CapstoneKernel.Sched.ForkStack
import CapstoneKernel.VMem.ReplaceEntry
import CapstoneKernel.Lib.TableCopy
import CapstoneKernel.VMem.ForkTables
import CapstoneKernel.VMem.ForkSpace
import CapstoneKernel.VMem.FillFrame
import CapstoneKernel.VMem.LazyRegions
import CapstoneKernel.VMem.Regions
import CapstoneKernel.Lib.ByteFields
import CapstoneKernel.Boot.DeviceTree
import CapstoneKernel.Boot.TreeLookup
import CapstoneKernel.Boot.Transfer
