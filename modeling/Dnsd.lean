import Dnsd.Base.LastWrite
import Dnsd.Cache.Log
import Dnsd.Proto.MessageCodec
import Dnsd.Proto.ParseSafety
import Dnsd.Cache.Compaction
import Dnsd.Api.Reload
import Dnsd.Base.Chain
import Dnsd.Cache.Coherence
import Dnsd.Cache.CompactFailures
import Dnsd.Cache.Crash
import Dnsd.Cache.Deletes
import Dnsd.Cache.L1Runs
import Dnsd.Cache.L2Runs
import Dnsd.Cache.RedisRuns
import Dnsd.Cache.RedisServed
import Dnsd.Cache.DeadSpace
import Dnsd.Cache.RespSafety
import Dnsd.Cache.Staleness
import Dnsd.Proto.EcsCodec
import Dnsd.Proto.Compression
import Dnsd.Proto.DistinctNames
import Dnsd.Proto.EncodeSafety
import Dnsd.Proto.ParseSizes
import Dnsd.Proto.RdataWindow
import Dnsd.Proto.Masking
import Dnsd.Proto.MessageWindow
import Dnsd.Resolve.Acceptance
import Dnsd.Resolve.BlockOrder
import Dnsd.Resolve.CacheKey
import Dnsd.Resolve.Chasing
import Dnsd.Resolve.Lifetime
import Dnsd.Resolve.Limiter
import Dnsd.Resolve.NameLimit
import Dnsd.Resolve.Nat64
import Dnsd.Resolve.Nesting
import Dnsd.Resolve.NoData
import Dnsd.Resolve.Orphans
import Dnsd.Resolve.QqwrySearch
import Dnsd.Resolve.QueryLog
import Dnsd.Resolve.Relay
import Dnsd.Resolve.Replies
import Dnsd.Resolve.Snapshot
import Dnsd.Resolve.Verification
import Dnsd.Resolve.ZoneDenial
import Dnsd.Resolve.ZoneWildcards
import Dnsd.Resolve.ZoneSelection
import Dnsd.Server.Udp
import Dnsd.Resolve.ZoneAnswers
import Dnsd.Server.PercentDecode
import Dnsd.Server.Tcp
import Dnsd.Store.Audit
import Dnsd.Store.QueryLogBatches
import Dnsd.Store.QueryLogTable
import Dnsd.Store.AuditEvidence
import Dnsd.Server.Doh
import Dnsd.Server.Workers
import Dnsd.Cache.RedisWire
import Dnsd.Startup
import Dnsd.Api.Acknowledged
import Dnsd.Api.Accounting
import Dnsd.Resolve.MapApi
import Dnsd.Base.Descent
import Dnsd.Resolve.Hierarchy
import Dnsd.Resolve.TreeReplies
