import SkipPlatform.SortedTreeChecks
import SkipPlatform.StoreSubscriptionRuns
import SkipPlatform.StoreScheduleRuns
import SkipPlatform.StoreTransaction
import SkipPlatform.RuntimeResources
import SkipPlatform.StoreParallelAgreement
import SkipPlatform.SqlCompoundAlgebra
import SkipPlatform.SqlAggregatesUpdate
import SkipPlatform.SqlOuterJoin
import SkipPlatform.SqlSchema
import SkipPlatform.SqlTransactionRuns
import SkipPlatform.MuxedSocketActive
import SkipPlatform.SqlDirectRows
import SkipPlatform.SqlOverrideRows
import SkipPlatform.SqlExprLogic
import SkipPlatform.SqlExprPruning
import SkipPlatform.SqlPrivacyReads
import SkipPlatform.SqlReplaceRuns
import SkipPlatform.FieldLayoutGroups
import SkipPlatform.DMapQueries
import SkipPlatform.DMapBalance
import SkipPlatform.FixedDirLayouts
import SkipPlatform.EagerDirChunkRanges
import SkipPlatform.StoreWrite
import SkipPlatform.EagerFilterRuns
import SkipPlatform.RuntimeCollections
import SkipPlatform.StoreDepsReplace
import SkipPlatform.LazyRuns
import SkipPlatform.VectorSort
import SkipPlatform.RadixTreeRuns
import SkipPlatform.RadixTreeValues
import SkipPlatform.JsonLossless
import SkipPlatform.DominatorRuns
import SkipPlatform.DeadCodeExact
import SkipPlatform.FixedDirSearch
import SkipPlatform.Ksuid
import SkipPlatform.Base64
import SkipPlatform.SemverOrder
import SkipPlatform.SkCalendar
