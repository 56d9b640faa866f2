import JeoKernel.Exec.Pipe
import JeoKernel.Exec.PageFault
import JeoKernel.Memory.VPage
import JeoKernel.Memory.VPAllocatorRuns
import JeoKernel.Concurrency.MutexWait
import JeoKernel.Concurrency.SemaphoreWait
import JeoKernel.Tasks.Reaper
import JeoKernel.Tasks.Join
import JeoKernel.Exec.Fork
import JeoKernel.Kfs.Resolve
import JeoKernel.Concurrency.WeakPtr
import JeoKernel.Ext2.BitmapWrites
import JeoKernel.Ext2.DirtyPages
import JeoKernel.Ext2.Counters
import JeoKernel.Exec.Signals
import JeoKernel.Exec.RSeq
import JeoKernel.Memory.PhysPages
import JeoKernel.Memory.Heap
import JeoKernel.Containers.Vector
import JeoKernel.Containers.StringTexts
import JeoKernel.Exec.PselectRuns
import JeoKernel.Exec.VectoredBounds
import JeoKernel.Blockdev.FilePage
import JeoKernel.Blockdev.OffsetBlockdev
import JeoKernel.Exec.ChildExits
import JeoKernel.Exec.MapSnapshots
import JeoKernel.Exec.Futex
import JeoKernel.Exec.ClearRange
import JeoKernel.Exec.ReadOnly
import JeoKernel.Sha2.Sha256
import JeoKernel.Dtb.Regions
import JeoKernel.Exec.FreeAreas
import JeoKernel.Exec.ProcessTables
import JeoKernel.Memory.VPAllocatorPage
import JeoKernel.Tasks.Sleep
import JeoKernel.Containers.StringCompare
import JeoKernel.Tasks.Choice
import JeoKernel.Exec.DeferredWork
import JeoKernel.Tasks.Nanotime
import JeoKernel.Blockdev.Crc32
import JeoKernel.Strings.Strtok
