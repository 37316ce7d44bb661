import Aosl.RbRun
import Aosl.TimerLife
import Aosl.TimerFire
import Aosl.MpqRun
import Aosl.MpqpRun
import Aosl.IofdEvents
import Aosl.IofdArm
import Aosl.IofdCalls
import Aosl.MarshalTrip
import Aosl.MarshalFini
import Aosl.MpqId
import Aosl.RefobjBarrier
import Aosl.RefobjFree
import Aosl.MpqDoneRun
import Aosl.MpqKick
import Aosl.MpqBound
import Aosl.ListenRun
import Aosl.ConnectRun
import Aosl.MpqpTailRun
import Aosl.FileObjRun
import Aosl.StreamRun
import Aosl.WQueueRun
import Aosl.OnQRun
import Aosl.FdCallRun
import Aosl.RwlockRun
import Aosl.CondRun
import Aosl.TlsRun
import Aosl.MainQ
import Aosl.Route
import Aosl.KRwlock
import Aosl.PoolTable
import Aosl.MpqRelease
import Aosl.MpqWait
import Aosl.MpqCount
import Aosl.TimerDue
import Aosl.TimerCallback
import Aosl.WriterPath
import Aosl.StreamEof
import Aosl.RtDumpRun
import Aosl.MarshalArrays
import Aosl.MarshalSegs
import Aosl.MarshalStr
import Aosl.PsbWindow
import Aosl.PsbOwner
import Aosl.DynArray
import Aosl.ByteOrder
import Aosl.Codec
import Aosl.CodecArrays
import Aosl.CodecDepth
import Aosl.CodecReport
import Aosl.CodecGarbage
import Aosl.RefNodeRun
import Aosl.InetPrint
import Aosl.IpConnect
import Aosl.StaticLock
import Aosl.RbIter
import Aosl.MmRun
import Aosl.RefCleanup
import Aosl.DynRun
import Aosl.Netifs
import Aosl.RbIface
import Aosl.Ipv6Type
import Aosl.KEvent
import Aosl.MpWait
import Aosl.LinkMsg
import Aosl.SkAddrText
import Aosl.MpqDonePlain
import Aosl.Dns
import Aosl.DnsRun
