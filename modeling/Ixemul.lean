import Ixemul.Malloc.Sound
import Ixemul.Mmap
import Ixemul.StackExtend.Frames
import Ixemul.Stream.Refine
import Ixemul.Stream.Lock
import Ixemul.Unp.Asleep
import Ixemul.Unp.Names
import Ixemul.Unp.Shutdown
import Ixemul.Unp.Backlog
import Ixemul.Unp.Release
import Ixemul.Select.Timeout
import Ixemul.Select.Wake
import Ixemul.Descrip.Bounds
import Ixemul.Select.Outputs
import Ixemul.Select.Bounds
import Ixemul.Select.Sigio
import Ixemul.Lseek.Contract
import Ixemul.Proc.Death
import Ixemul.Proc.Selector
import Ixemul.Proc.Session
import Ixemul.Proc.Rusage
import Ixemul.KernSig.Pfind
import Ixemul.KernSig.Group
import Ixemul.KernSig.Suspend
import Ixemul.FileLock
import Ixemul.Ipc.SemValue
import Ixemul.Ipc.SemPoolCalls
import Ixemul.Ipc.SemCount
import Ixemul.Ipc.MsgSafe
import Ixemul.Ipc.MsgIncarnation
import Ixemul.Ipc.Ident
import Ixemul.Ipc.ShmId
import Ixemul.Path.RoundTrip
import Ixemul.Path.Readlink
import Ixemul.Path.Buffer
import Ixemul.Dir.RoundTrip
import Ixemul.Unlink
import Ixemul.Cli.RoundTrip
import Ixemul.Cli.LineBuffer
import Ixemul.Glob.NoCheck
import Ixemul.Userdb.Enumerate
import Ixemul.Blacklist
import Ixemul.FileDate
import Ixemul.Tty
