import SkynetServer.Timer.Clock
import SkynetServer.Service.QueueSafety
import SkynetServer.Account.Generator
import SkynetServer.Account.Store
import SkynetServer.Node.GateAddress
import SkynetServer.Watchdog.Clients
import SkynetServer.SocketServer.Datagrams
import SkynetServer.Harbor.LinkState
import SkynetServer.Seri.RoundTrip
import SkynetServer.Sproto.RoundTrip
import SkynetServer.Sproto.Pointers
import SkynetServer.Cluster.Dispatch
import SkynetServer.Cluster.Responses
import SkynetServer.Coroutine.QueueOrder
import SkynetServer.SocketChannel.Delivery
import SkynetServer.ServiceMgr.Unique
import SkynetServer.Master.Agreement
import SkynetServer.Multicast.Subscription
import SkynetServer.Multicast.Deliveries
import SkynetServer.Datacenter.Waiting
import SkynetServer.Gate.Framing
import SkynetServer.Harbor.Closed
import SkynetServer.Send.Owner
import SkynetServer.MsgServer.Once
import SkynetServer.Mq.Fifo
import SkynetServer.Service.Batch
import SkynetServer.Handle.LiveNames
import SkynetServer.SocketServer.Reservations
import SkynetServer.SocketServer.Flush
import SkynetServer.SocketServer.SendLists
import SkynetServer.Stm.Safety
import SkynetServer.Harbor.ShortFrames
import SkynetServer.Gate.Limit
import SkynetServer.Gate.HashChains
import SkynetServer.Sproto.PackRoundTrip
import SkynetServer.SocketBuffer.Refinement
import SkynetServer.Crypt.DesIndices
import SkynetServer.Crypt.KeyExchange
import SkynetServer.Crypt.Hex
import SkynetServer.Crypt.Base64
import SkynetServer.Node.Balance
import SkynetServer.Account.Token
import SkynetServer.Stdex.Serialize
import SkynetServer.Redis.Compose
import SkynetServer.Coroutine.Failures
import SkynetServer.Dns.Pointers
import SkynetServer.Gateserver.Clients
import SkynetServer.Bson.RoundTrip
import SkynetServer.Bson.Assign
import SkynetServer.Gate.ByteQueues
import SkynetServer.Sproto.SizedIntegers
import SkynetServer.Sproto.HeaderRecords
import SkynetServer.Sharedata.Access
import SkynetServer.Locks.RwLock
import SkynetServer.Gateserver.DispatchQueue
import SkynetServer.Datasheet.RoundTrip
