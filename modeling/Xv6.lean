import Xv6.Lib.Run
import Xv6.Lib.Success
import Xv6.Lib.Blocks
import Xv6.Lib.Census
import Xv6.Lib.Ring
import Xv6.Lib.Tally
import Xv6.Lib.Holders
import Xv6.Lib.Holes
import Xv6.Lib.Prog
import Xv6.Lib.Radix
import Xv6.Lib.Parts
import Xv6.Param
import Xv6.Log.Redo
import Xv6.Log.Crash
import Xv6.Log.Protocol
import Xv6.Log.GroupCommit
import Xv6.Log.Capacity
import Xv6.Proc.Table
import Xv6.Proc.Waitpid
import Xv6.Proc.Loops
import Xv6.Proc.Killed
import Xv6.Proc.Lifecycle
import Xv6.Proc.Coherent
import Xv6.Proc.Family
import Xv6.Proc.Alert
import Xv6.Proc.Reap
import Xv6.Proc.Sched
import Xv6.Proc.OneCpu
import Xv6.Sem.Model
import Xv6.Sem.System
import Xv6.Sem.Tokens
import Xv6.Sem.Queue
import Xv6.Sem.Isolation
import Xv6.Syscall.Args
import Xv6.Mem.Pte
import Xv6.Mem.Phys
import Xv6.Mem.Walk
import Xv6.Mem.Map
import Xv6.Mem.Free
import Xv6.Mem.Space
import Xv6.Mem.Copy
import Xv6.Mem.Exec
import Xv6.Shm.Table
import Xv6.Shm.Users
import Xv6.Mem.Task
import Xv6.Mem.System
import Xv6.Mem.Files
import Xv6.Mem.Owners
import Xv6.Mem.Isolation
import Xv6.Mem.Leaks
import Xv6.Mem.Luck
import Xv6.Mem.Sharing
import Xv6.Disk.Requests
import Xv6.Lib.Window
import Xv6.Disk.Commit
import Xv6.Disk.Cache
import Xv6.Disk.Transparent
import Xv6.Fs.Disk
import Xv6.Fs.Inode
import Xv6.Fs.Calls
import Xv6.Fs.Files
import Xv6.Fs.FileCalls
import Xv6.Fs.Image
import Xv6.Fs.Blocks
import Xv6.Fs.Content
import Xv6.Fs.Bytes
import Xv6.Fs.Written
import Xv6.Fs.Dirents
import Xv6.Fs.View
import Xv6.Fs.Refs
import Xv6.Fs.Names
import Xv6.Fs.Moves
import Xv6.Fs.Link
import Xv6.Fs.Unlink
import Xv6.Fs.Create
import Xv6.Fs.Points
import Xv6.Fs.Steps
import Xv6.Fs.SysCalls
import Xv6.Fs.Handlers
import Xv6.Fs.Runs
import Xv6.Fs.WellFormed
import Xv6.Pipe.Fifo
import Xv6.Pipe.Wakeups
import Xv6.Console.Line
import Xv6.Proc.Pids
import Xv6.Proc.Kill
import Xv6.Signal.Handlers
import Xv6.Signal.Sigint
import Xv6.Proc.Sysinfo
import Xv6.Lib.Ledger
import Xv6.Fs.Tree
import Xv6.Fs.Rooted
import Xv6.Fs.LinkCount
import Xv6.Fs.Reach
import Xv6.Fs.Wrap
import Xv6.Fs.Layout
import Xv6.Fs.Crash
import Xv6.Proc.Fork
import Xv6.Mem.Args
import Xv6.Proc.Exec
import Xv6.Pipe.Account
import Xv6.Fs.Write
import Xv6.Lib.Mirror
import Xv6.Fs.Logged
import Xv6.Fs.Torn
import Xv6.Fs.Shared
import Xv6.Mem.Break
import Xv6.Mem.Strings
import Xv6.Sem.Order
import Xv6.Sem.Failures
import Xv6.Fs.Paths
import Xv6.Fs.DirMap
import Xv6.User.Malloc
import Xv6.User.Arena
import Xv6.User.Exclusive
import Xv6.User.Grammar
import Xv6.User.Complete
import Xv6.User.Words
import Xv6.User.Match
import Xv6.Printf.Numbers
import Xv6.Lib.Monitor
import Xv6.Lock.Sleeplock
import Xv6.Lock.Spinlock
import Xv6.Uart.Transmit
