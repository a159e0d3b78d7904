import Zsim.HitOrigins
import Zsim.MESIRuns
import Zsim.MESIRaceRuns
import Zsim.PartitionTables
import Zsim.IdealLRUPartRuns
import Zsim.WeavePhases
import Zsim.MemTimingRuns
import Zsim.MemPowerReports
import Zsim.ActWindowOrder
import Zsim.DDRClocks
import Zsim.DDRBankLists
import Zsim.MemAddressFields
import Zsim.DDRDeliveryRuns
import Zsim.RepeatedCandidates
import Zsim.HistoryEvictions
import Zsim.FastForward
import Zsim.ProcessCounts
import Zsim.ProcessCleanup
import Zsim.FastForwardPoints
import Zsim.TreeLRU
import Zsim.NRU
import Zsim.LFU
import Zsim.UMonChains
import Zsim.VantageSetpoints
import Zsim.VantageTransients
import Zsim.UnhaltedCycles
import Zsim.SlabRuns
import Zsim.IssueRuns
import Zsim.OOOCoreAccesses
import Zsim.EventTicks
import Zsim.CacheMSHRs
import Zsim.H3Hash
import Zsim.SHA1Hash
import Zsim.TimeoutPatches
import Zsim.SleepPatches
import Zsim.MemWriteBuffer
import Zsim.StreamPrefetches
import Zsim.BarrierLeaves
import Zsim.IntrusiveListRuns
import Zsim.HistoryQueues
import Zsim.ZCacheBuffers
import Zsim.SortTrace
import Zsim.StatRecords
import Zsim.RangeMasks
import Zsim.TraceReplays
import Zsim.OpenLooks
import Zsim.CacheEventLatencies
