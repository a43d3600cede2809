import OsCodes.Lib.Bytes
import OsCodes.Lib.Lts
import OsCodes.SimpleFS.Disk
import OsCodes.SimpleFS.Ops
import OsCodes.SimpleFS.Ops1
import OsCodes.SimpleFS.Spec
import OsCodes.SimpleFS.Layout
import OsCodes.Lib.Ownership
import OsCodes.SimpleFS.Metadata
import OsCodes.SimpleFS.Allocation
import OsCodes.SimpleFS.Write
import OsCodes.SimpleFS.Read
import OsCodes.SimpleFS.Effect
import OsCodes.SimpleFS.Content
import OsCodes.SimpleFS.History
import OsCodes.SimpleFS.Ownership
import OsCodes.SimpleFS.Frame
import OsCodes.SimpleFS.Isolation
import OsCodes.SimpleFS.WriteFail
import OsCodes.SimpleFS.NameField
import OsCodes.SimpleFS.Equivalence
import OsCodes.SimpleFS.Refinement
import OsCodes.SimpleFS.SeekBounds
import OsCodes.Lib.Extent
import OsCodes.SimpleFS.Written
import OsCodes.SimpleFS.SizeLaw
import OsCodes.SimpleFS.Overwrite
import OsCodes.SimpleFS.RoundTrip
import OsCodes.Lib.FirstFit
import OsCodes.Lib.Tiling
import OsCodes.Malloc.Live
import OsCodes.Malloc.Alloc
import OsCodes.Malloc.AllocLaw
import OsCodes.Malloc.AllocBounds
import OsCodes.Malloc.AllocOwner
import OsCodes.Malloc.Ealloc
import OsCodes.Malloc.EallocSearch
import OsCodes.Malloc.EallocBook
import OsCodes.Malloc.EallocApart
import OsCodes.Malloc.EallocZero
import OsCodes.Malloc.EallocGrowth
import OsCodes.Malloc.EallocFail
import OsCodes.Malloc.EallocExhaust
import OsCodes.Lib.Monitor
import OsCodes.Sync.Rwlock
import OsCodes.Sync.RwlockSteps
import OsCodes.Sync.ReaderPref
import OsCodes.Sync.WriterPref
import OsCodes.Sync.MasterWorker
import OsCodes.Sync.MasterWorkerLaw
import OsCodes.Sync.Zemaphore
import OsCodes.Sync.Toggle
import OsCodes.Lib.Returns
import OsCodes.Lib.Refcount
import OsCodes.Xv6.Kalloc
import OsCodes.Xv6.Vm
import OsCodes.Xv6.PageTable
import OsCodes.Xv6.Resize
import OsCodes.Xv6.Copy
import OsCodes.Xv6.UserMem
import OsCodes.Xv6.Proc
import OsCodes.Xv6.ForkLaw
import OsCodes.Xv6.Spare
import OsCodes.Xv6.CowFork
import OsCodes.Xv6.Ptable
import OsCodes.Xv6.Sched
import OsCodes.Xv6.Starve
import OsCodes.Xv6.Welcome
import OsCodes.Xv6.WelcomeImage
import OsCodes.Xv6.ProcInfo
import OsCodes.Xv6.MaxPid
import OsCodes.Lib.Children
import OsCodes.Shell.Sequence
import OsCodes.Shell.Jobs
import OsCodes.Shell.Foreground
import OsCodes.Lib.Ledger
import OsCodes.Lib.Segments
import OsCodes.Xv6.Alloc
import OsCodes.Xv6.Paging
import OsCodes.Xv6.PagingLaw
import OsCodes.Xv6.Cost
import OsCodes.Xv6.CopyLaw
import OsCodes.Xv6.Counts
import OsCodes.Xv6.Perms
import OsCodes.Xv6.Pipe
import OsCodes.Xv6.PipeLaw
import OsCodes.Xv6.PipeRun
import OsCodes.Xv6.Sleep
import OsCodes.Xv6.SleepLaw
import OsCodes.Xv6.Sleeplock
import OsCodes.Xv6.Grep
import OsCodes.Xv6.CowFault
import OsCodes.Xv6.Fork
import OsCodes.Xv6.ForkUndo
import OsCodes.Xv6.Lazy
import OsCodes.Xv6.LazyLaw
import OsCodes.Xv6.LazyRun
import OsCodes.Xv6.LazySize
import OsCodes.Xv6.LazyBelow
import OsCodes.Xv6.LazyFork
import OsCodes.Xv6.LazyPerms
import OsCodes.Xv6.LazyFault
import OsCodes.Xv6.LazyPages
import OsCodes.Xv6.LazyAccounts
import OsCodes.Xv6.ProcInfoWrite
import OsCodes.Lib.Block
import OsCodes.Lib.Ring
import OsCodes.Lib.RingBuffer
import OsCodes.Lib.Budget
import OsCodes.Lib.Fifo
import OsCodes.Lib.Mailbox
import OsCodes.Ipc.Ring
import OsCodes.Ipc.RingLaw
import OsCodes.Ipc.RingRun
import OsCodes.Ipc.Chat
import OsCodes.Ipc.ChatLaw
import OsCodes.Ipc.ChatRun
import OsCodes.Shell.Tokenize
import OsCodes.Shell.Splitter
import OsCodes.Shell.Balance
import OsCodes.Ipc.Socket
import OsCodes.Xv6.Log
import OsCodes.Xv6.LogRoom
import OsCodes.Xv6.LogRun
import OsCodes.Xv6.LogCrash
import OsCodes.Xv6.Bio
import OsCodes.Xv6.BioLaw
import OsCodes.Xv6.BioCache
import OsCodes.Lib.Bitmap
import OsCodes.Lib.Struct
import OsCodes.Xv6.Inode
import OsCodes.Xv6.InodeDisk
import OsCodes.Xv6.InodeBlocks
import OsCodes.Xv6.InodeData
import OsCodes.Xv6.InodeTrunc
import OsCodes.Xv6.InodeFile
import OsCodes.Xv6.InodeCount
import OsCodes.Xv6.InodeRun
import OsCodes.Xv6.Dirent
import OsCodes.Xv6.Directory
