import Xv6.Lib.Disk
import Xv6.Lib.Word
import Xv6.Lib.Tally
import Xv6.Lib.DList
import Xv6.Lib.Ring
import Xv6.Lib.Bits
import Xv6.Lib.Radix
import Xv6.Lib.Span
import Xv6.Lib.Outcome
import Xv6.Lib.Circle
import Xv6.Lib.Words
import Xv6.Lib.Move
import Xv6.Lib.Trace
import Xv6.Lib.Jump
import Xv6.Param
import Xv6.Log.Basic
import Xv6.Log.Recovery
import Xv6.Log.Op
import Xv6.Bio
import Xv6.Log.Pin
import Xv6.Pipe
import Xv6.Console
import Xv6.Uart
import Xv6.Proc.Basic
import Xv6.Proc.Sched
import Xv6.Proc.Tree
import Xv6.Vm.Pte
import Xv6.Vm.Walk
import Xv6.Vm.Map
import Xv6.Vm.Free
import Xv6.Vm.Refine
import Xv6.Vm.Copy
import Xv6.Vm.Uvm
import Xv6.Vm.Confine
import Xv6.Vm.Grow
import Xv6.Vm.Sbrk
import Xv6.Vm.Fork
import Xv6.Vm.Image
import Xv6.Vm.ProcTable
import Xv6.Fs.Layout
import Xv6.Fs.Inode
import Xv6.Fs.Dir
import Xv6.Fs.Mkfs
import Xv6.Fs.Bmap
import Xv6.Fs.Content
import Xv6.Fs.Itable
import Xv6.Fs.File
import Xv6.Fs.Sysfile
import Xv6.Fs.Open
import Xv6.Fs.ReadWrite
import Xv6.Virtio
import Xv6.User.Umalloc
import Xv6.User.Freelist
import Xv6.User.Alloc
import Xv6.Exec
import Xv6.Exec.Atomic
import Xv6.Exec.Commit
import Xv6.Proc.Alloc
import Xv6.Proc.Memory
import Xv6.User.Printf
import Xv6.User.Grep
import Xv6.SysExec
import Xv6.User.Sh.Syntax
import Xv6.User.Sh.Scan
import Xv6.User.Sh.Parse
import Xv6.User.Sh.Loops
import Xv6.User.Sh.Descent
import Xv6.User.Sh.Parsecmd
import Xv6.Memmove
import Xv6.User.Wc
import Xv6.Spinlock
import Xv6.Exec.Commit
import Xv6.Proc.Alloc
import Xv6.Proc.Memory
