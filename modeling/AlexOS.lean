import AlexOS.Loader.Exhausted
import AlexOS.Mm.Bitmap
import AlexOS.Mm.Canonical
import AlexOS.Mm.Fork
import AlexOS.Mm.HeapRun
import AlexOS.Mm.KernelSpace
import AlexOS.Mm.Ledger
import AlexOS.Mm.PageMap
import AlexOS.Mm.RegionUndo
import AlexOS.Mm.Superpages
import AlexOS.Mm.Sv39
import AlexOS.Mm.Undisturbed
import AlexOS.Sync.Blocking
import AlexOS.Sync.Spin
import AlexOS.Sync.WaitPid
import AlexOS.Syscall.ArgStack
import AlexOS.Syscall.Dispatch
import AlexOS.Syscall.Failed
import AlexOS.Syscall.Readers
import AlexOS.Syscall.Reap
import AlexOS.Syscall.UserCopy
import AlexOS.Syscall.UserRead
import AlexOS.Task.Agreement
import AlexOS.Task.Fresh
import AlexOS.Task.Heap
import AlexOS.Task.LifetimeSafety
import AlexOS.Task.OneHart
import AlexOS.Task.Sbrk
import AlexOS.Task.SwitchContext
import AlexOS.Trap.Interrupted
import AlexOS.Trap.Switch
import AlexOS.Trap.UserTasks
import AlexOS.User.Command
