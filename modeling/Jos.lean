import Jos.Grants
import Jos.Privilege
import Jos.RefCounts
import Jos.KernelLock
import Jos.Changes
import Jos.Windows
import Jos.StaleEntries
import Jos.ClosedPipe
import Jos.ExceptionStack
import Jos.PageFaultUpcall
import Jos.FaultDelivery
import Jos.OpenFiles
import Jos.FileRequests
import Jos.FileKeeps
import Jos.FileTree
import Jos.NetworkCard
import Jos.TransmitRing
import Jos.RingGeometry
import Jos.ReceiveRing
import Jos.PipeBytes
import Jos.NetServer
import Jos.InputPath
import Jos.PageInsertion
import Jos.HeapReclaim
import Jos.FormatAgreement
import Jos.EnvIds
import Jos.RoundRobin
import Jos.FailedCalls
import Jos.FileCopies
import Jos.OpenIds
import Jos.KernLayout
import Jos.Dup
import Jos.ProgramHeaders
import Jos.SpawnLeaks
import Jos.InitStack
import Jos.WalkPath
import Jos.BlockPages
import Jos.CacheCoherence
import Jos.DoubleFree
import Jos.FreePages
import Jos.FreeListOrder
import Jos.Ticks
import Jos.UserReads
import Jos.UserRanges
import Jos.PacketSend
import Jos.StabSearch
import Jos.MpConfig
import Jos.MmioRegions
import Jos.PipePositions
import Jos.BootLoader
import Jos.IpcPerms
import Jos.IpcErrors
import Jos.IpcOrder
import Jos.SysArch
import Jos.NetTimer
import Jos.Printfmt
import Jos.ShellTokens
import Jos.Shell
import Jos.HttpRequest
import Jos.HttpReply
import Jos.PipeCreation
import Jos.UserThreads
import Jos.UserThreadRuns
import Jos.Mailbox
import Jos.ConsoleInput
import Jos.ConsoleScreen
import Jos.Readline
import Jos.StringOps
import Jos.Args
import Jos.BlockBitmap
import Jos.Formats
import Jos.Strtol
import Jos.Snprintf
import Jos.Printers
import Jos.ForkedHeap
import Jos.Dereferences
import Jos.DirSearches
import Jos.FileRuns
import Jos.Lib.Sieve
import Jos.Primes
import Jos.ChksumAlgorithms
import Jos.ContextSwitches
import Jos.FileNames
import Jos.LockPaths
