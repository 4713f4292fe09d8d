import Xv6.Lib.Transition
import Xv6.Lib.Ring
import Xv6.Lib.Hoare
import Xv6.Lib.Bitmap
import Xv6.Lib.Ownership
import Xv6.Lib.Linked
import Xv6.Lib.Interleave
import Xv6.Lib.Total
import Xv6.Proc.Sleep
import Xv6.Lib.Guarded
import Xv6.Proc.Sleeplock
import Xv6.Proc.Spinlock
import Xv6.Proc.Sched
import Xv6.Proc.Switch
import Xv6.Proc.Wakeup
import Xv6.Proc.Killed
import Xv6.Proc.Wait
import Xv6.Proc.Kill
import Xv6.Proc.Exit
import Xv6.Proc.Reap
import Xv6.Pipe.Core
import Xv6.Pipe.Steps
import Xv6.Pipe.Fifo
import Xv6.Pipe.Wakeup
import Xv6.Pipe.Messages
import Xv6.Virtio.Core
import Xv6.Virtio.Descs
import Xv6.Virtio.Requests
import Xv6.Virtio.Protocol
import Xv6.Virtio.Returns
import Xv6.Console.Core
import Xv6.Console.Line
import Xv6.Console.Reads
import Xv6.Console.Losses
import Xv6.Grep.Match
import Xv6.Grep.Input
import Xv6.Grep.Wc
import Xv6.Shell.Runcmd
import Xv6.Text.Memmove
import Xv6.Text.Printint
import Xv6.Text.Atoi
import Xv6.Threads.Safety
import Xv6.Threads.Dispatch
import Xv6.Threads.Entry
import Xv6.Primes.Output
import Xv6.Log.Atomic
import Xv6.Log.Reservation
import Xv6.Log.Sync
import Xv6.Bio.Core
import Xv6.Bio.Cache
import Xv6.Bio.Uses
import Xv6.Bio.Transparent
import Xv6.Bio.Room
import Xv6.Find.Sound
import Xv6.Find.Descriptors
import Xv6.Find.Terminates
import Xv6.Fs.Disk
import Xv6.Fs.Inode
import Xv6.Fs.Dir
import Xv6.Fs.Syscall
import Xv6.Fs.Refs
import Xv6.Fs.Alloc
import Xv6.Fs.Files
import Xv6.Fs.Content
import Xv6.Fs.Table
import Xv6.Fs.Entries
import Xv6.Fs.Calls
import Xv6.Fs.Format
import Xv6.Fs.Refinement
import Xv6.Fs.Ownership
import Xv6.Fs.Reclaim
import Xv6.Mkfs.Core
import Xv6.Mkfs.Append
import Xv6.Mkfs.Image
import Xv6.Mkfs.Files
import Xv6.Mkfs.Lookup
import Xv6.OpenFile.Read
import Xv6.Names.Core
import Xv6.Names.Calls
import Xv6.Names.Share
import Xv6.Names.Counts
import Xv6.Names.Acts
import Xv6.Names.FileActs
import Xv6.Names.PipeActs
import Xv6.Names.ForkActs
import Xv6.Names.Walk
import Xv6.Names.Files
import Xv6.Names.Shared
import Xv6.Lib.Radix
import Xv6.Vm.Core
import Xv6.Vm.Tables
import Xv6.Vm.Ranges
import Xv6.Vm.Space
import Xv6.Vm.Faults
import Xv6.Vm.Demand
import Xv6.Vm.Copy
import Xv6.Vm.CopyIn
import Xv6.Vm.Fork
import Xv6.Vm.Exec
