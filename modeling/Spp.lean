import Spp.Lib.Run
import Spp.Lib.Format
import Spp.Shm.MQ
import Spp.Shm.Fifo
import Spp.Shm.Spsc
import Spp.Shm.SemLock
import Spp.Hash.Refine
import Spp.Hash.Keys
import Spp.Hash.Attach
import Spp.Hash.Access
import Spp.Hash.Rejected
import Spp.Hash.Room
import Spp.Hash.Split
import Spp.Sock.ByteFifo
import Spp.Sock.Flush
import Spp.Sock.Wire
import Spp.Sock.RecvPack
import Spp.Sock.Announce
import Spp.Sock.Output
import Spp.Sock.Deadline
import Spp.Proxy.Splitting
import Spp.Proxy.Once
import Spp.Pool.Stub
import Spp.Proto.Responses
import Spp.Proto.Cipher
import Spp.Proto.CookieBounds
import Spp.Proto.Builders
import Spp.Proto.Accepted
import Spp.Proto.Trailing
import Spp.Proto.QueryRsp
import Spp.Proto.CommCookie
import Spp.Proto.ComboRsp
import Spp.Proto.AppCombo
import Spp.Worker.Disconn
import Spp.Worker.SendTo
import Spp.Worker.Route
import Spp.Ctrl.Forks
import Spp.Ctrl.Trim
import Spp.Ctrl.Heartbeat
import Spp.Proto.Decodable
import Spp.Shm.LoadAgree
import Spp.Shm.LoadBounds
import Spp.Shm.CyclicQueue
import Spp.Shm.Drain
import Spp.Shm.MsgTimeout
import Spp.Shm.Expire
import Spp.Shm.Clock
import Spp.Update.Reload
import Spp.Update.Receive
import Spp.Stat.Once
import Spp.Stat.Extremes
import Spp.Stat.Found
import Spp.Stat.Full
import Spp.Stat.Report
import Spp.Util.Base64String
import Spp.Util.Tea
import Spp.Shm.NodeQueue
import Spp.Lib.Printf
import Spp.Log.Format
import Spp.Log.Rotate
import Spp.Proxy.LocalCopy
import Spp.Util.Md5Object
import Spp.Proxy.Service
import Spp.Ctrl.ProcTable
import Spp.Xml.Reader
import Spp.Xml.Overflow
import Spp.Ctrl.Monitor
