import Xv6.Dev.Console
import Xv6.Dev.Ide
import Xv6.Exec.Args
import Xv6.Exec.Atomic
import Xv6.Exec.Commit
import Xv6.Exec.Crowd
import Xv6.Exec.Load
import Xv6.Exec.Model
import Xv6.Exec.Phases
import Xv6.Exec.Program
import Xv6.Exec.Renew
import Xv6.Exec.Runs
import Xv6.Exec.Safe
import Xv6.Exec.Stack
import Xv6.Exec.Start
import Xv6.Fs.BlockOps
import Xv6.Fs.Blocks
import Xv6.Fs.Bmap
import Xv6.Fs.ByteFile
import Xv6.Fs.Calls
import Xv6.Fs.Contents
import Xv6.Fs.Dir
import Xv6.Fs.DirMap
import Xv6.Fs.DirRun
import Xv6.Fs.DirSlots
import Xv6.Fs.Exact
import Xv6.Fs.Inode
import Xv6.Fs.Path
import Xv6.Fs.Refs
import Xv6.Fs.Resolve
import Xv6.Fs.Write
import Xv6.Ipc.Pipe
import Xv6.Ipc.PipeFifo
import Xv6.Ipc.PipeSleep
import Xv6.Ipc.UserBuffer
import Xv6.Lib.Bytes
import Xv6.Lib.CString
import Xv6.Lib.Compact
import Xv6.Lib.Count
import Xv6.Lib.Crash
import Xv6.Lib.Decimal
import Xv6.Lib.Footprint
import Xv6.Lib.Interval
import Xv6.Lib.Load
import Xv6.Lib.Move
import Xv6.Lib.Ring
import Xv6.Lib.Run
import Xv6.Lib.SlotMap
import Xv6.Lib.Word
import Xv6.Lib.Wp
import Xv6.Log.Atomic
import Xv6.Log.Commit
import Xv6.Log.Group
import Xv6.Log.GroupInv
import Xv6.Log.OneTransaction
import Xv6.Log.Room
import Xv6.Log.Wedge
import Xv6.Mkfs.Agree
import Xv6.Mkfs.Append
import Xv6.Mkfs.Build
import Xv6.Mkfs.Holes
import Xv6.Mkfs.Image
import Xv6.Mkfs.Mount
import Xv6.Param
import Xv6.Proc.Exit
import Xv6.Proc.Flat
import Xv6.Proc.Fork
import Xv6.Proc.ForkAtomic
import Xv6.Proc.Frames
import Xv6.Proc.Grow
import Xv6.Proc.Invisible
import Xv6.Proc.Machine
import Xv6.Proc.Ops
import Xv6.Proc.Sbrk
import Xv6.Proc.Shrink
import Xv6.Proc.Start
import Xv6.Proc.Syscall
import Xv6.Proc.Tables
import Xv6.Proc.User
import Xv6.Sched.Kill
import Xv6.Sched.NoLostWakeup
import Xv6.Sched.Reap
import Xv6.Sched.Sleep
import Xv6.Sched.Table
import Xv6.Sched.TableInv
import Xv6.Swap.Agree
import Xv6.Swap.Compact
import Xv6.Swap.Counter
import Xv6.Swap.Effect
import Xv6.Swap.Fifo
import Xv6.Swap.File
import Xv6.Swap.Init
import Xv6.Swap.Io
import Xv6.Swap.Link
import Xv6.Swap.Move
import Xv6.Swap.Name
import Xv6.Swap.Nfu
import Xv6.Swap.Offsets
import Xv6.Swap.Pack
import Xv6.Swap.Recover
import Xv6.Swap.Resident
import Xv6.Swap.Restore
import Xv6.Swap.Table
import Xv6.User.Atoi
import Xv6.User.Grep
import Xv6.User.Match
import Xv6.User.Memmove
import Xv6.User.Shell.Grammar
import Xv6.User.Shell.Parse
import Xv6.User.Shell.Terminate
import Xv6.User.Shell.Token
import Xv6.User.Umalloc.Free
import Xv6.User.Umalloc.Malloc
import Xv6.User.Umalloc.Model
import Xv6.User.Umalloc.Runs
import Xv6.User.Umalloc.Wrap
import Xv6.Vm.Alloc
import Xv6.Vm.Copy
import Xv6.Vm.Dealloc
import Xv6.Vm.FiniteMap
import Xv6.Vm.Inv
import Xv6.Vm.Kalloc
import Xv6.Vm.Kinit
import Xv6.Vm.Need
import Xv6.Vm.Own
import Xv6.Vm.PageTable
import Xv6.Vm.Setup
import Xv6.Vm.Skip
import Xv6.Vm.Small
import Xv6.Vm.Spare
import Xv6.Vm.State
import Xv6.Vm.Total
import Xv6.Vm.Uvm
import Xv6.Vm.View
import Xv6.Vm.Walk
