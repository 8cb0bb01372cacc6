import TrafficServer.Cache.KeyChain
import TrafficServer.Cache.RamCacheInv
import TrafficServer.Cache.OpenDirRun
import TrafficServer.EventSystem.IOBufferStream
import TrafficServer.Hdrs.MIMEScannerChunks
import TrafficServer.Hdrs.MIMECookedRun
import TrafficServer.Hdrs.URLDigest
import TrafficServer.Http2.ChunkedDelivery
import TrafficServer.EventSystem.PriorityEventQueueRun
import TrafficServer.Hdrs.MIMEDateText
import TrafficServer.Http2.MergeHeaders
import TrafficServer.Proxy.ControlMatcher
import TrafficServer.Cache.SyncFailure
import TrafficServer.Cache.AggFailure
import TrafficServer.HostDB.Expiry
import TrafficServer.HostDB.MultiCache
import TrafficServer.HostDB.RoundRobin
import TrafficServer.Logging.LogObjectRun
import TrafficServer.Http2.HttpSessionPool
import TrafficServer.Http2.RemapFilters
import TrafficServer.Cache.FragTable
import TrafficServer.EventSystem.IOBufferBlocks
import TrafficServer.Cache.Probe
import TrafficServer.Cache.Recover
import TrafficServer.EventSystem.RemoveAppend
import TrafficServer.Cache.PartHash
import TrafficServer.Cache.PartInit
import TrafficServer.Hdrs.HdrMarshal
import TrafficServer.Hdrs.URLParse
import TrafficServer.Proxy.RangeParse
