import SteleDb.Lib.Calendar
import SteleDb.Storage.TierRun
import SteleDb.Storage.CrashRuns
import SteleDb.Storage.GroupAbort
import SteleDb.Storage.GroupCommit
import SteleDb.Storage.GroupWrites
import SteleDb.Storage.IndexRun
import SteleDb.Storage.LogHoles
import SteleDb.Storage.ManifestLog
import SteleDb.Storage.SegmentStats
import SteleDb.Storage.WalLog
import SteleDb.Session.Conflict
import SteleDb.Session.CatalogTimeline
import SteleDb.Session.CatalogReplay
import SteleDb.Session.CatalogRoundTrip
import SteleDb.Session.TamperEvidence
import SteleDb.Txn.Isolation
import SteleDb.Session.TemporalJoin
import SteleDb.Session.Savepoints
import SteleDb.Session.RecreatedRoles
import SteleDb.Session.Incarnations
import SteleDb.Sql.AsOf
import SteleDb.Exec.Operator
import SteleDb.Exec.Shape
import SteleDb.Exec.RowPayload
import SteleDb.Wire.Principals
import SteleDb.Wire.Blocks
import SteleDb.Wire.Portals
import SteleDb.Wire.Authentication
import SteleDb.Wire.BinaryFormat
import SteleDb.Wire.TextFormat
import SteleDb.Session.PresentReads
import SteleDb.Common.HashKey
import SteleDb.Storage.BloomCodec
import SteleDb.Storage.DeltaScans
import SteleDb.Storage.WalReplay
import SteleDb.Storage.ValidSummary
import SteleDb.Storage.WriterRebuild
import SteleDb.Storage.HistoryTiers
import SteleDb.Session.DroppedEra
import SteleDb.Common.Base64
import SteleDb.Storage.Crc32c
import SteleDb.Storage.SegmentDamage
import SteleDb.Session.Decorrelation
import SteleDb.Storage.SegmentPruning
