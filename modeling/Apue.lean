import Apue.Machine
import Apue.ByteFile
import Apue.UringCopy
import Apue.UringCopyInv
import Apue.OrdSet
import Apue.TimerService
import Apue.Timers
import Apue.TimersRefine
import Apue.TimersArmed
import Apue.TimersCount
import Apue.Foo
import Apue.FooInv
import Apue.ByteCodec
import Apue.FdTable
import Apue.FileIO
import Apue.FooMem
import Apue.FooSafe
import Apue.FooCalls
import Apue.FooDeadlock
import Apue.FooWorkload
import Apue.IStream
import Apue.OpenRequest
import Apue.RequestText
import Apue.Handshake
import Apue.PipeSync
import Apue.RecordLock
import Apue.LockFile
import Apue.IoRing
import Apue.MsgQueue
import Apue.MsgQueueInv
import Apue.OpenDaemon
import Apue.OpenDaemonConns
import Apue.OpenDaemonInv
import Apue.OpenDaemonSafe
import Apue.OpenDaemonAccepts
import Apue.Coprocess
import Apue.CpHoles
import Apue.FileTree
import Apue.FooStep
import Apue.KWayMerge
import Apue.MqRelay
import Apue.ParallelSort
import Apue.PlainCopy
import Apue.PtrChain
import Apue.SharedCounter
import Apue.SignalSync
import Apue.Threads
import Apue.TimersOverlap
import Apue.TreeWalk
import Apue.FormatMessage
import Apue.UnixSocket
import Apue.UnixSocketFraming
import Apue.UringShortReads
import Apue.CpHolesErrors
import Apue.FileTreeWalk
import Apue.ForkJoin
import Apue.SortBarrier
import Apue.TimeSpec
import Apue.TreeWalkCounts
import Apue.UnixSocketReceive
import Apue.UringBound
import Apue.TransferLoop
import Apue.ByteStream
import Apue.AdderFilter
import Apue.UptimeServers
import Apue.LockWait
import Apue.FileDeadlock
import Apue.ForeverLock
import Apue.RwLock
import Apue.DequeRwlock
import Apue.JobQueue
import Apue.RaceOutput
import Apue.SortRun
import Apue.SigwaitThread
import Apue.RetryTimeout
import Apue.CustomSleep
import Apue.SocketSetup
import Apue.Daemonize
import Apue.FdFork
import Apue.MergedRequests
import Apue.DaemonConf
import Apue.Shell
import Apue.MmapCopy
