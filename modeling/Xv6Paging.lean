import Xv6Paging.Paging.BounceBuffer
import Xv6Paging.Paging.ForkCopy
import Xv6Paging.Paging.LostFrames
import Xv6Paging.Paging.Aging
import Xv6Paging.Paging.AqAdvance
import Xv6Paging.Paging.PlainScan
import Xv6Paging.Paging.ExecStack
import Xv6Paging.Paging.KernelAccess
import Xv6Paging.Paging.AccessRights
import Xv6Paging.Paging.ForkSwapFile
import Xv6Paging.Paging.ForkQueue
import Xv6Paging.FileSystem.LogAtomic
import Xv6Paging.FileSystem.BufferCoherence
import Xv6Paging.FileSystem.InodeReferences
import Xv6Paging.FileSystem.WriteBudget
import Xv6Paging.FileSystem.SwapNames
import Xv6Paging.FileSystem.ByteArrays
import Xv6Paging.FileSystem.MkfsConsistent
import Xv6Paging.Kernel.Kalloc
import Xv6Paging.Kernel.SleepWakeup
import Xv6Paging.Kernel.Mp
import Xv6Paging.Kernel.Memmove
import Xv6Paging.Process.Kill
import Xv6Paging.Process.SwapFiles
import Xv6Paging.Io.Pipe
import Xv6Paging.Io.Console
import Xv6Paging.Io.OpenFiles
import Xv6Paging.User.HeapSizes
import Xv6Paging.User.ShellStrings
import Xv6Paging.User.GrepMatch
import Xv6Paging.User.GrepLines
