import Valkyrie.Mm.Buddy.Coalesce
import Valkyrie.Mm.Slob.Recycle
import Valkyrie.Mm.Router
import Valkyrie.Mm.Kmalloc
import Valkyrie.Mm.VirtualMemoryMap.Unmapped
import Valkyrie.Proc.MutexDepth
import Valkyrie.Proc.RoundRobin
import Valkyrie.Proc.TaskStates
import Valkyrie.Proc.ExitStatus
import Valkyrie.Proc.Signals
import Valkyrie.Fs.VirtualFileSystem.Write
import Valkyrie.Fs.VirtualFileSystem.Open
import Valkyrie.Fs.VirtualFileSystem.Resolve
import Valkyrie.Fs.VirtualFileSystem.TmpTree
import Valkyrie.Kernel.Permissions
import Valkyrie.Kernel.Syscall
import Valkyrie.Proc.LoadElf
import Valkyrie.Proc.AnonymousMmap
import Valkyrie.Proc.ArgumentStores
import Valkyrie.Proc.ForkFailure
import Valkyrie.Fs.Fat32.Filename
import Valkyrie.Usr.Shell
import Valkyrie.Fs.Fat32.ShortName
import Valkyrie.Fs.VirtualFileSystem.Leak
import Valkyrie.Fs.Fat32.Traverse
import Valkyrie.Fs.Fat32.Basis
import Valkyrie.Fs.CPIOArchive
import Valkyrie.Lib.String
import Valkyrie.Lib.List
import Valkyrie.Kernel.TimerMultiplexer
import Valkyrie.Kernel.TaskletScheduler
import Valkyrie.Dev.DiskPartition
