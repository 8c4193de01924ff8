import HobbyOS.AcceptQueue
import HobbyOS.ArpResolve
import HobbyOS.BlockCache
import HobbyOS.BlockMap
import HobbyOS.DemandPaging
import HobbyOS.DescriptorIdentity
import HobbyOS.DeviceMapping
import HobbyOS.Directory
import HobbyOS.ElfLayout
import HobbyOS.EpollWatch
import HobbyOS.ExecCred
import HobbyOS.HeapRequests
import HobbyOS.JournalCrash
import HobbyOS.KernelFault
import HobbyOS.KillSignal
import HobbyOS.MetadataFlush
import HobbyOS.PipeStream
import HobbyOS.ProcfsRead
import HobbyOS.RangePrecision
import HobbyOS.Readiness
import HobbyOS.RoundRobin
import HobbyOS.SeekSafety
import HobbyOS.Sleepers
import HobbyOS.SlotConservation
import HobbyOS.SocketRefs
import HobbyOS.TcpFin
import HobbyOS.TcpSequence
import HobbyOS.TcpTimer
import HobbyOS.Teardown
import HobbyOS.TtyLines
import HobbyOS.UdpRoundTrip
import HobbyOS.Lifecycle
