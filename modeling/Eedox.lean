import Eedox.Library.Runs
import Eedox.Util
import Eedox.ReaderWriterLock
import Eedox.LockWaiters
import Eedox.Semaphore
import Eedox.SemaphoreOrder
import Eedox.BallocDurability
import Eedox.Pipe
import Eedox.Library.Tally
import Eedox.PipeStream
import Eedox.TaskTable
import Eedox.TaskWait
import Eedox.WaitWakeup
import Eedox.Library.Bytes
import Eedox.Pathbuf
import Eedox.Ata
import Eedox.DiskInterrupts
import Eedox.Fs.Childtable
import Eedox.Fs.Inode
import Eedox.Fs.Node
import Eedox.Fs.Bookkept
import Eedox.Fs.Write
import Eedox.Fs.ReadWrite
import Eedox.Fs.Layout
import Eedox.Fs.LayoutSteps
import Eedox.Fs.Walk
import Eedox.Fs.FailingOpen
import Eedox.Fs.Unlink
import Eedox.Library.RefCount
import Eedox.Fs.References
import Eedox.Descriptor
import Eedox.Mq
import Eedox.Syscall
import Eedox.WorkingDirectory
import Eedox.Endpoints
import Eedox.EndOfFile
import Eedox.ExecArguments
import Eedox.Scheduler
import Eedox.RunQueue
import Eedox.FsCalls
import Eedox.CachedPaths
import Eedox.LockBalance
import Eedox.Library.Words
import Eedox.Library.Blocks
import Eedox.KernelHeap
import Eedox.HeapTiling
import Eedox.HeapSteps
import Eedox.HeapWatch
import Eedox.HeapCalls
import Eedox.HeapRuns
import Eedox.Image.Writer
import Eedox.Image.Placement
import Eedox.Image.Contents
import Eedox.Image.Agreement
import Eedox.Image.Scanner
import Eedox.Bitset
import Eedox.Paging
import Eedox.AddressSpaces
import Eedox.AddressRuns
import Eedox.Prog
import Eedox.ProgKernel
import Eedox.HeapIndex
import Eedox.Library.Ordered
import Eedox.HeapOrder
import Eedox.HeapAligned
import Eedox.MqNames
import Eedox.AccessRights
import Eedox.Library.Assoc
import Eedox.Fs.TableBuffer
import Eedox.Fs.RootRestart
import Eedox.Library.Moves
import Eedox.PathAlgebra
import Eedox.Kstring
import Eedox.PathPrint
import Eedox.FrameBitmap
import Eedox.Library.ArrayHeap
import Eedox.DescriptorMemory
import Eedox.Stdin
import Eedox.TerminalInput
import Eedox.ArgsVector
import Eedox.DirectoryListing
import Eedox.ProgSegments
import Eedox.WaitPid
import Eedox.TaskTableSafety
import Eedox.ProgBreak
import Eedox.Fs.Lookup
import Eedox.InodeReferences
import Eedox.Fs.TableBounds
import Eedox.WatcherRuns
import Eedox.HeapJudge
import Eedox.TerminalScreen
import Eedox.PrintfChunks
import Eedox.Library.MaximalRuns
import Eedox.Llist
import Eedox.ParseInput
import Eedox.Services
import Eedox.Trace
import Eedox.SymbolLookup
import Eedox.FileReads
import Eedox.UserHeapAgree
import Eedox.UserMalloc
import Eedox.OverlapCopy
import Eedox.Decimal
import Eedox.Library.Cells
import Eedox.Kqueue
import Eedox.Library.Refinement
import Eedox.Vec
import Eedox.KstringWords
import Eedox.Fs.FilesOpen
import Eedox.Image.Mounted
import Eedox.FileSessions
import Eedox.BoundedWaiting
import Eedox.TerminalWindow
import Eedox.FilePrograms
import Eedox.UpcService
import Eedox.Library.Ia32
import Eedox.Interrupts
