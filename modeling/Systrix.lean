import Systrix.Ipc.Lifetime
import Systrix.Proc.CallLaws
import Systrix.Vfs.PipeEnds
import Systrix.Vfs.PipeLifetime
import Systrix.Vfs.InodeLifetime
import Systrix.Vfs.Syscalls
import Systrix.Net.SocketBuffer
import Systrix.User.MutexWaiters
import Systrix.Swap.RoundTrip
import Systrix.Jfs.Namespace
import Systrix.Heap.TableRun
import Systrix.Elf.Image
import Systrix.Html.RoundTrip
import Systrix.Vmm.UserRegions
import Systrix.Proc.FutexWakes
import Systrix.HeapEnhanced.SlabRun
import Systrix.Vmm.Vmalloc
import Systrix.Jfs.JournalRun
import Systrix.Net.Accept
import Systrix.Net.AcceptQueue
import Systrix.Proc.Recycling
import Systrix.Console.LineEditor
import Systrix.Libc.SortMemory
import Systrix.Console.Scrollback
import Systrix.Libc.Bitmap
import Systrix.Libc.PathMeaning
import Systrix.Libc.PathParts
import Systrix.Libc.NumberRoundTrip
import Systrix.Libc.StrBuf
import Systrix.Libc.Arithmetic
import Systrix.Libc.SplitJoin
import Systrix.Libc.Senc
import Systrix.Html.CssRoundTrip
import Systrix.User.ReadStreamLaws
import Systrix.User.PrintfLaws
import Systrix.Tls.Reading
import Systrix.Image.QoiRoundTrip
import Systrix.Inflate.Truncation
import Systrix.Tls.Sha256
import Systrix.Image.Scale
import Systrix.Vfs.MountLookup
import Systrix.Fat.Patching
import Systrix.Fat.Deletion
import Systrix.Vfs.Readdir
import Systrix.Tls.HandshakeBounds
import Systrix.Tls.RsaKey
import Systrix.Vmm.FrameOwners
import Systrix.Input.Rings
import Systrix.Proc.RoundRobin
import Systrix.Heap.AllocationSize
import Systrix.Net.DnsReply
import Systrix.Vmm.Protection
import Systrix.Vmm.VmaInsertion
import Systrix.Image.PngBounds
import Systrix.Jfs.Contents
import Systrix.Pmm.Partition
