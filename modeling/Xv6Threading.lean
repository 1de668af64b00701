import Xv6Threading.Mutex.Wakeup
import Xv6Threading.Proc.Kill
import Xv6Threading.Sync.Ticket
import Xv6Threading.Sync.Barrier
import Xv6Threading.Sync.Sleeplock
import Xv6Threading.Thread.Lifetime
import Xv6Threading.Vm.Conserve
import Xv6Threading.Log.Space
import Xv6Threading.Bio.Coherence
import Xv6Threading.Sysfile.Balance
import Xv6Threading.Sysfile.Relock
import Xv6Threading.Fs.Counts
import Xv6Threading.Fs.Dangling
import Xv6Threading.Heap.Stacks
import Xv6Threading.Io.Pipe
import Xv6Threading.Io.Console
import Xv6Threading.Io.Ide
import Xv6Threading.Sync.Interrupts
import Xv6Threading.Mkfs.Agree
import Xv6Threading.Sh.Correct
import Xv6Threading.Proc.Random
import Xv6Threading.Proc.Pids
import Xv6Threading.Proc.Joins
import Xv6Threading.Proc.Tickets
import Xv6Threading.Mutex.Names
import Xv6Threading.Thread.Stack
import Xv6Threading.Vm.Copy
import Xv6Threading.Vm.Copyout
import Xv6Threading.Vm.Exec
import Xv6Threading.Grep.Match
import Xv6Threading.Syscall.Args
import Xv6Threading.Sysfile.Reserve
import Xv6Threading.Sysfile.Filewrite
import Xv6Threading.Fs.Paths
import Xv6Threading.Ulib.Memmove
import Xv6Threading.Mp.Init
import Xv6Threading.Heap.Sbrk
import Xv6Threading.Fs.Full
