import SkynetGame.Proofs.Delivery
import SkynetGame.Proofs.Watchdog
import SkynetGame.Proofs.Agent
import SkynetGame.Proofs.SqlUtil
import SkynetGame.Proofs.CacheUtil
import SkynetGame.Proofs.ClusterMgr
import SkynetGame.Proofs.Handle
import SkynetGame.Proofs.Handshake
import SkynetGame.Proofs.Logout
import SkynetGame.Proofs.CallerCount
import SkynetGame.Proofs.Calls
import SkynetGame.Proofs.Naps
import SkynetGame.Proofs.GracefulClose
import SkynetGame.Proofs.LogService
import SkynetGame.Proofs.LkClusterd
import SkynetGame.Proofs.Clusterd
import SkynetGame.Proofs.HarborWire
import SkynetGame.Proofs.HarborNames
import SkynetGame.Proofs.Cmaster
import SkynetGame.Proofs.Send
import SkynetGame.Proofs.DataCenter
import SkynetGame.Proofs.MulticastDelivery
import SkynetGame.Proofs.ServiceMgr
import SkynetGame.Proofs.LuaUnpack
import SkynetGame.Proofs.SocketApi
import SkynetGame.Proofs.SkynetQueue
import SkynetGame.Proofs.Launcher
import SkynetGame.Proofs.SessionChannel
import SkynetGame.Proofs.OrderChannel
import SkynetGame.Proofs.LoginClient
import SkynetGame.Proofs.Sharedatad
import SkynetGame.Proofs.TimerOrder
import SkynetGame.Proofs.HandleName
import SkynetGame.Proofs.SocketIds
import SkynetGame.Proofs.Uncomplete
import SkynetGame.Proofs.FrameLimit
import SkynetGame.Proofs.HarborMemory
import SkynetGame.Proofs.Hashid
import SkynetGame.Proofs.ClientCount
import SkynetGame.Proofs.MsgCache
import SkynetGame.Proofs.Hex
import SkynetGame.Proofs.PowMod
import SkynetGame.Proofs.MongoReply
import SkynetGame.Proofs.SprotoBounds
import SkynetGame.Proofs.LuaSeriRead
import SkynetGame.Proofs.Bson
import SkynetGame.Proofs.UserName
import SkynetGame.Proofs.Redis
import SkynetGame.Proofs.Dns
import SkynetGame.Proofs.DnsCache
import SkynetGame.Proofs.HttpLimit
import SkynetGame.Proofs.Stm
import SkynetGame.Proofs.MulticastPackage
import SkynetGame.Proofs.SharedataCore
import SkynetGame.Proofs.SprotoEncode
import SkynetGame.Proofs.Form
import SkynetGame.Proofs.MongoAuth
import SkynetGame.Proofs.SkynetUtil
import SkynetGame.Proofs.Serialize
import SkynetGame.Proofs.ClusterCfgMgr
import SkynetGame.Proofs.Backlog
import SkynetGame.Proofs.LkCluster
import SkynetGame.Proofs.HarborQueue
import SkynetGame.Proofs.SocketLock
import SkynetGame.Proofs.PackBound
import SkynetGame.Proofs.Corelib
import SkynetGame.Proofs.RwLock
import SkynetGame.Proofs.Sha1
