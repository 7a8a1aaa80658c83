import Iceberg.Client.FileNames
import Iceberg.Client.Hash
import Iceberg.Client.Hosts
import Iceberg.Client.IcebergClient
import Iceberg.Lib.BlockHash
import Iceberg.Lib.Decimal
import Iceberg.Lib.Framing
import Iceberg.Lib.Paths
import Iceberg.Lib.Percent
import Iceberg.Lib.RedBlack
import Iceberg.Lib.Ring
import Iceberg.Lib.Simulation
import Iceberg.Lib.SortedChain
import Iceberg.Lib.Strides
import Iceberg.Lib.Triple
import Iceberg.Nginx.Confined
import Iceberg.Nginx.Conhash
import Iceberg.Nginx.ConhashLookup
import Iceberg.Nginx.ConhashRing
import Iceberg.Nginx.ConhashRuns
import Iceberg.Nginx.ConsistentHashing
import Iceberg.Nginx.GetHost
import Iceberg.Nginx.Hash
import Iceberg.Nginx.Md5
import Iceberg.Nginx.PathBuffers
import Iceberg.Nginx.Rbtree
import Iceberg.Nginx.RbtreeDelete
import Iceberg.Nginx.RbtreeInsert
import Iceberg.Nginx.RbtreeQueries
import Iceberg.Nginx.RbtreeRuns
import Iceberg.Nginx.RbtreeShape
import Iceberg.Nginx.Slots
import Iceberg.Nginx.Storing
import Iceberg.Nginx.WriteData
import Iceberg.Proxy.Accesses
import Iceberg.Proxy.AnswerStream
import Iceberg.Proxy.Basic
import Iceberg.Proxy.BehindFailure
import Iceberg.Proxy.Bookkeeping
import Iceberg.Proxy.Boundaries
import Iceberg.Proxy.BoundedQueue
import Iceberg.Proxy.Capture
import Iceberg.Proxy.CarryOver
import Iceberg.Proxy.CirQueue
import Iceberg.Proxy.CutReplies
import Iceberg.Proxy.Descriptors
import Iceberg.Proxy.EndOfFile
import Iceberg.Proxy.EventLoop
import Iceberg.Proxy.Handover
import Iceberg.Proxy.HashObjects
import Iceberg.Proxy.HashTable
import Iceberg.Proxy.InTime
import Iceberg.Proxy.Inside
import Iceberg.Proxy.Io
import Iceberg.Proxy.IoLemmas
import Iceberg.Proxy.Lines
import Iceberg.Proxy.LruedQuery
import Iceberg.Proxy.Masks
import Iceberg.Proxy.Md5
import Iceberg.Proxy.Md5Lemmas
import Iceberg.Proxy.OneAnswer
import Iceberg.Proxy.Pairing
import Iceberg.Proxy.Parser
import Iceberg.Proxy.ParserLemmas
import Iceberg.Proxy.Payload
import Iceberg.Proxy.QueryLine
import Iceberg.Proxy.ReadHandler
import Iceberg.Proxy.Relay
import Iceberg.Proxy.ReplyBounds
import Iceberg.Proxy.ReplyReads
import Iceberg.Proxy.Reset
import Iceberg.Proxy.Scanner
import Iceberg.Proxy.Sds
import Iceberg.Proxy.Store
import Iceberg.Proxy.Sweep
import Iceberg.Proxy.SyncHeader
import Iceberg.Proxy.SyncRounds
import Iceberg.Proxy.Transfer
import Iceberg.Proxy.Turns
import Iceberg.Proxy.Upkeep
import Iceberg.Proxy.World
import Iceberg.Spec.Resp
import Iceberg.Spec.Rfc1321
