import Procore.Debug.Kdebug
import Procore.Driver.Clock
import Procore.Fs.Dispatch
import Procore.Fs.FileCalls
import Procore.Fs.OpenCreate
import Procore.Fs.PairCalls
import Procore.Fs.PathBuffer
import Procore.Fs.PipeWait
import Procore.Fs.ReadCalls
import Procore.Fs.Stdin
import Procore.Mm.DefaultPmm
import Procore.Mm.Isolation
import Procore.Mm.Kmalloc
import Procore.Mm.MmLock
import Procore.Mm.RangeCalls
import Procore.Net.Backlog
import Procore.Net.Poll
import Procore.Net.Arp
import Procore.Net.Output
import Procore.Net.StreamCalls
import Procore.Process.ChildWait
import Procore.Process.Deliver
import Procore.Process.ExecStack
import Procore.Process.GetPid
import Procore.Process.LoadImage
import Procore.Process.SleepSignals
import Procore.Schedule.Placement
import Procore.Schedule.Timer
import Procore.Sfs.OpenFile
import Procore.Sfs.Mksfs
import Procore.Sfs.SizeBlocks
import Procore.Smp.TlbShootdown
import Procore.Sync.Futex
import Procore.Sync.Wakers
