import TableRange.BuildMemory
import TableRange.CacheCoherence
import TableRange.CachedCalls
import TableRange.CachedPlans
import TableRange.Classification
import TableRange.EnumLabels
import TableRange.ExtentQuery
import TableRange.Extents
import TableRange.KeptExact
import TableRange.NoFalseNegatives
import TableRange.NoLostWidening
import TableRange.PageSpace
import TableRange.Planning
import TableRange.Progress
import TableRange.Prune.Clauses
import TableRange.Prune.Exact
import TableRange.Rebuild
import TableRange.Recovery
import TableRange.RepeatedColumns
import TableRange.ScopedIo
import TableRange.Storage.Accepted
import TableRange.StoredText
