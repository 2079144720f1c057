import Helens.HttpSession
import Helens.IOManagerTable
import Helens.SchedulerTimers
import Helens.RockStreamOutcomes
import Helens.NSDomainOrder
import Helens.HttpConnectionPool
import Helens.Hook
import Helens.ServiceDiscovery
import Helens.ByteArrayFile
import Helens.WebSocketResend
import Helens.WebSocketBounds
import Helens.ZlibStream
import Helens.TimerExpiry
import Helens.Timeouts
import Helens.BitmapIterators
import Helens.BitmapCounts
import Helens.BitmapStreams
import Helens.HashMapCalls
import Helens.AsyncSocketStream
import Helens.HashLoops
import Helens.HashMultimapValues
import Helens.HashBaskets
import Helens.TimedCacheDeadlines
import Helens.Array
import Helens.NameServerIds
import Helens.HolderStatsWindow
import Helens.WeightLoadBalance
import Helens.LogYaml
import Helens.MySQLManager
import Helens.Util
import Helens.AddressText
import Helens.FoxRedis
import Helens.HttpConnection
import Helens.HttpDump
import Helens.LogFormatter
import Helens.Smtp
import Helens.StringDict
