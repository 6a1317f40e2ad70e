import Xv6.Lib.Control
import Xv6.Lib.Run
import Xv6.Lib.Tally
import Xv6.Kernel
import Xv6.AddressSpace
import Xv6.CryptProofs
import Xv6.Plain
import Xv6.Growth
import Xv6.System
import Xv6.Files
import Xv6.Ownership
import Xv6.Steps
import Xv6.Strings
import Xv6.ExecProofs
import Xv6.Transparency
import Xv6.Solo
import Xv6.PageOwnership
import Xv6.Capacity
import Xv6.Decryption
import Xv6.Tlb
import Xv6.Outcome
import Xv6.Clock
import Xv6.WorkingSet
import Xv6.Lib.Words
import Xv6.Lib.Writes
import Xv6.Log
import Xv6.CrashAtomicity
import Xv6.LogProtocol
import Xv6.LogRoom
import Xv6.Console
import Xv6.Stops
import Xv6.Boot
import Xv6.Mapping
import Xv6.Shape
import Xv6.Calm
import Xv6.FirstProcess
import Xv6.Lib.Threads
import Xv6.Calls
import Xv6.FileRefs
import Xv6.FileSharing
import Xv6.OpenFiles
import Xv6.Bio
import Xv6.BufferCache
import Xv6.Lib.Monitor
import Xv6.Lib.Circular
import Xv6.Pipes
import Xv6.PipeProofs
import Xv6.SleepLocks
import Xv6.DiskQueue
import Xv6.DiskOrder
import Xv6.ConsoleInput
import Xv6.ProcTable
import Xv6.ProcTree
import Xv6.ProcLife
import Xv6.CpuProofs
import Xv6.CpuSafety
import Xv6.Lib.Extents
import Xv6.Umalloc
import Xv6.UmallocProofs
import Xv6.UmallocSafety
import Xv6.UmallocRun
import Xv6.UmallocSizes
import Xv6.GrownPages
import Xv6.RangeEncryption
import Xv6.SecondChance
import Xv6.ExecImage
import Xv6.ClockTables
import Xv6.GetPgTable
import Xv6.EntryWrites
import Xv6.PageListing
import Xv6.WsetListing
import Xv6.Sh.Grammar
import Xv6.Sh.Tokens
import Xv6.Sh.Parsing
import Xv6.Sh.Printing
import Xv6.Sh.Acceptance
import Xv6.SpaceCopy
import Xv6.ElfLoading
import Xv6.ArgumentStack
import Xv6.EntryBounds
import Xv6.ExecStack
import Xv6.FailedExec
import Xv6.RawMemory
import Xv6.NullEntries
import Xv6.NullReads
import Xv6.StrayCopies
import Xv6.Memmove
import Xv6.Grep
import Xv6.MpTable
import Xv6.Fs.FileWrite
