import Minions.Logic.Program
import Minions.Logic.System
import Minions.Logic.RelyGuarantee
import Minions.Logic.Soundness
import Minions.Logic.Alone
import Minions.Logic.Linearizability
import Minions.Logic.Protocol
import Minions.Logic.Completion
import Minions.Logic.Events
import Minions.Data.Bytes
import Minions.Data.Decimal
import Minions.Data.Tiling
import Minions.Data.LinkedList
import Minions.Data.DoublyLinked
import Minions.Data.Ring
import Minions.Data.Staging
import Minions.Data.Tally
import Minions.Db.Kernel
import Minions.Db.Library
import Minions.Db.Layout
import Minions.Db.Updates
import Minions.Db.Codec
import Minions.Db.Bindings
import Minions.Db.Ownership
import Minions.Db.Confinement
import Minions.Db.Moves
import Minions.Db.Rules
import Minions.Db.Fields
import Minions.Db.Appends
import Minions.Db.Knowledge
import Minions.Db.Search
import Minions.Db.FreeList
import Minions.Db.Delete
import Minions.Db.Insert
import Minions.Db.Operations
import Minions.Db.Scan
import Minions.Db.Representation
import Minions.Db.Clients
import Minions.Db.LockOrder
import Minions.Db.Deadlock
import Minions.Db.Linearizable
import Minions.Printer.Requests
import Minions.Printer.JobList
import Minions.Printer.Queue
import Minions.Printer.Workers
import Minions.Printer.Counter
import Minions.Printer.Connection
import Minions.Printer.Daemon
import Minions.Printer.Threads
import Minions.Printer.Reading
import Minions.Printer.Receive
import Minions.Printer.Spooling
import Minions.Printer.SpoolRules
import Minions.Printer.Spoolers
import Minions.Printer.Rebuilding
import Minions.Printer.Histories
import Minions.Printer.Restart
import Minions.Db.Sessions
import Minions.Advio.Rot13
import Minions.Opend.Clients
import Minions.Opend.PollLoop
import Minions.Opend.Attribution
import Minions.Opend.SelectLoop
import Minions.Unp.ThreadPool
import Minions.Unp.DescriptorPool
import Minions.Unp.WebClient
import Minions.Unp.ReliableEcho
import Minions.Unp.StrCli
import Minions.Unp.SignalEcho
import Minions.Unp.SignalOverflow
import Minions.Threads.Mutex2
import Minions.Threads.Reliance
import Minions.Threads.Locking
import Minions.Threads.Counting
import Minions.Threads.Chaining
import Minions.Threads.Refcount
import Minions.Unp.Icmpd
import Minions.Unp.UdpFile
import Minions.Data.Orbit
import Minions.Db.Direct
import Minions.Db.ChainWalk
import Minions.Db.Reading
import Minions.Db.Accounts
import Minions.Db.Readback
import Minions.Db.MovedScan
import Minions.Db.Writing
import Minions.Db.Storing
import Minions.Db.Appending
import Minions.Db.Opening
import Minions.Db.Failures
import Minions.Unp.WebThreads
import Minions.Unp.Web02
import Minions.Unp.Web03
import Minions.Unp.Deadlock
import Minions.Db.ScanEnd
import Minions.Printer.JobFile
import Minions.Printer.Status
import Minions.Printer.Arrived
import Minions.Printer.StatusReturns
import Minions.Printer.Headers
import Minions.Logic.Answers
import Minions.Exercises.MemStream
import Minions.Exercises.UpdateStream
import Minions.Exercises.WriteOnlyStream
import Minions.Data.CInt
import Minions.Data.StringBuffer
import Minions.Filedir.Ftw8
import Minions.Data.BreadthFirst
import Minions.Termios.Ttyname
import Minions.Termios.DevDirs
import Minions.Termios.Searchdir
import Minions.Termios.NameSearch
import Minions.Data.Merging
import Minions.Threads.Barrier
import Minions.Ipc1.Popen
import Minions.Data.Deliveries
import Minions.Unp.Readline
import Minions.Unp.ReadlineCalls
import Minions.Unp.ReadlineFds
import Minions.Data.Query
import Minions.Unp.IcmpReads
import Minions.Unp.Rtaddrs
import Minions.Unp.GetIfiInfo
import Minions.Data.ByteOrder
import Minions.Data.OnesComplement
import Minions.Unp.GaPort
import Minions.Unp.GaLists
import Minions.Unp.GaServ
import Minions.Unp.GetAddrInfo
import Minions.Unp.GaLedger
import Minions.Unp.GaLookup
import Minions.Unp.InCksum
import Minions.Unp.PrintSadb
import Minions.Unp.PollServer
import Minions.Python.Udpping
import Minions.Data.FileTree
import Minions.Data.Words
import Minions.Bash.Shell
import Minions.Bash.Projgen
import Minions.Objc.Mvi
import Minions.Db.IndexCodec
import Minions.Threads.RwlockQueue
import Minions.Logic.Transfers
import Minions.Advio.FullCount
import Minions.Printer.TimedReads
import Minions.Printer.Submit
import Minions.Data.Hex
import Minions.Unp.InetPton
import Minions.Unp.InetGrammar
import Minions.Data.Runs
import Minions.Unp.InetNtop
import Minions.Unp.GetNameInfo
import Minions.Unp.InetAton
import Minions.Unp.SelectServer
import Minions.Unp.TwoThreads
import Minions.Unp.CounterThreads
import Minions.Unp.CounterMutex
import Minions.Unp.BoundedBuffer
import Minions.Unp.Bcast
import Minions.Unp.BcastLoops
import Minions.Unp.BcastReplies
import Minions.Unp.SigChld
import Minions.Threads.Condvar
