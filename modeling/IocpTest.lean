import IocpTest.NetService.Packets
import IocpTest.NetService.Acknowledgement
import IocpTest.NetService.Numbering
import IocpTest.NetService.Wedge
import IocpTest.NetService.Handover
import IocpTest.NetService.WorkingSocket
import IocpTest.NetService.Orphans
import IocpTest.NetService.Codec
import IocpTest.NetService.Cumulative
import IocpTest.NetService.Truncation
import IocpTest.NetService.Padding
import IocpTest.NetService.Limits
import IocpTest.NetService.Requests
import IocpTest.NetService.Outstanding
import IocpTest.NetService.Recovery
import IocpTest.NetService.Bodies
import IocpTest.ThreadPool.Workers
import IocpTest.ThreadPool.Capacity
import IocpTest.ThreadPool.Init
import IocpTest.ThreadPool.SchedulingPass
import IocpTest.ThreadPool.Spacing
import IocpTest.ThreadPool.Sections
import IocpTest.ThreadPool.Rounds
import IocpTest.TestClient.Records
import IocpTest.TestClient.Receives
import IocpTest.IOCPHelper.ShutDown
import IocpTest.CLog.PendingWrites
import IocpTest.CLog.Append
import IocpTest.CLog.Chunks
import IocpTest.CLog.Shuffle
import IocpTest.NetService.Contents
