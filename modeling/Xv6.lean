import Xv6.Lib.Run
import Xv6.Lib.Tiling
import Xv6.Lib.Bytes
import Xv6.Lib.Writes
import Xv6.Lib.Sat
import Xv6.Lib.Count
import Xv6.Lib.Ring
import Xv6.Sched.Proc
import Xv6.Sched.Tickets
import Xv6.Sched.Lottery
import Xv6.Sched.LotteryRun
import Xv6.Sched.Chance
import Xv6.Sched.TicketTotal
import Xv6.Sched.Stride
import Xv6.Sched.Kill
import Xv6.Sched.StrideRun
import Xv6.Sched.Smp
import Xv6.Sched.Sleep
import Xv6.Sched.Intr
import Xv6.Log.Redo
import Xv6.Log.Crash
import Xv6.Log.CrashRun
import Xv6.Log.Group
import Xv6.Log.Space
import Xv6.Fs.TreeRun
import Xv6.Fs.Budget
import Xv6.Fs.CallRun
import Xv6.Fs.SharedOffset
import Xv6.Fs.FileBytes
import Xv6.Fs.Recycle
import Xv6.Bio.Commit
import Xv6.Ipc.Pipe
import Xv6.Dev.ConsoleRun
import Xv6.User.ShellSpec
import Xv6.User.UmallocRun
import Xv6.Dev.VirtioRun
import Xv6.Mkfs.ReadBack
import Xv6.Fs.ShortWrite
import Xv6.Ipc.ReadFault
import Xv6.Fs.OpenFail
import Xv6.Fs.PathFold
import Xv6.Fs.DirMap
import Xv6.Lib.Radix
import Xv6.Vm.Meaning
import Xv6.Sched.Random
import Xv6.Vm.Copy
import Xv6.User.Memmove
import Xv6.User.GrepFilter
import Xv6.Fs.Bitmap
import Xv6.Vm.Sbrk
import Xv6.User.UmallocSize
import Xv6.Trap.Trampoline
import Xv6.Vm.Fork
