import Kairax.Mem.PmmHistory
import Kairax.Mem.KheapHistory
import Kairax.Paging.Huge
import Kairax.Proc.UserRegion
import Kairax.Proc.ForkMemory
import Kairax.Proc.FileFault
import Kairax.Proc.Descriptors
import Kairax.Paging.Destroy
import Kairax.Ext2.ReadBounds
import Kairax.Ipc.NamedPipe
import Kairax.Ipc.LocalStream
import Kairax.Net.TcpStream
import Kairax.Net.TcpAccept
import Kairax.Net.TcpPorts
import Kairax.Net.Frame
import Kairax.Net.Udp
import Kairax.Proc.Sigreturn
import Kairax.Proc.Signal
import Kairax.Proc.Scheduler
import Kairax.Proc.Poll
import Kairax.Proc.Timer
import Kairax.Proc.FutexSteps
import Kairax.Proc.ProcessHistory
import Kairax.Mod.Relocation
import Kairax.Proc.ElfSegments
import Kairax.Proc.Execve
import Kairax.Acpi.Namespace
import Kairax.Fat.Inode
import Kairax.Libc.Stdio
import Kairax.Libc.Search
import Kairax.Dynloader.Loader
import Kairax.Tmpfs.Pages
import Kairax.Ext2.Scan
import Kairax.Ext2.WriteErrors
import Kairax.Net.SynCookie
import Kairax.Libc.Strtok
