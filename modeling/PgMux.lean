import PgMux.AstTables
import PgMux.AuditShutdown
import PgMux.BalancerCalls
import PgMux.BalancerFairness
import PgMux.BalancerLedger
import PgMux.BatchBytes
import PgMux.BatchRouting
import PgMux.Broadcast
import PgMux.CacheKeys
import PgMux.CacheRace
import PgMux.CachedErrors
import PgMux.CachedReads
import PgMux.Cancel
import PgMux.CausalReads
import PgMux.ClientAddress
import PgMux.ConfigPools
import PgMux.Connections
import PgMux.CopyBoth
import PgMux.DataApiEnds
import PgMux.DataApiReads
import PgMux.Deadlocks
import PgMux.ExtendedCache
import PgMux.FastPath
import PgMux.HalfOpen
import PgMux.JsonRows
import PgMux.LimitReload
import PgMux.LiteralValues
import PgMux.LsnText
import PgMux.MirrorFilter
import PgMux.Multiplex
import PgMux.NumericText
import PgMux.OpenTransactions
import PgMux.PoolLeaks
import PgMux.PoolWakeups
import PgMux.PreparedReads
import PgMux.RateLimiting
import PgMux.ReadyCount
import PgMux.ReadyStatus
import PgMux.SampleWindows
import PgMux.ScannerLabels
import PgMux.SessionState
import PgMux.SessionWords
import PgMux.StatementNames
import PgMux.Substitution
import PgMux.Transparency
import PgMux.TxPaths
import PgMux.WebhookDedup
import PgMux.WriteTables
