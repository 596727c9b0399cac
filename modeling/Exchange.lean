import Exchange.Types
import Exchange.Lib.Loop
import Exchange.Lib.Linked
import Exchange.Lib.DenseMap
import Exchange.Lib.Priority
import Exchange.Lib.Layout
import Exchange.Lib.Wrapping
import Exchange.Lib.RoundRobin
import Exchange.SlabPool
import Exchange.Bitmap
import Exchange.PriceLevel
import Exchange.LadderSide
import Exchange.OrderBook
import Exchange.LevelQueues
import Exchange.BookInvariant
import Exchange.Consistency
import Exchange.MatchingEngine
import Exchange.Reference
import Exchange.Sweep
import Exchange.BookView
import Exchange.LevelWalk
import Exchange.Submission
import Exchange.Refinement
import Exchange.RiskEngine
import Exchange.Codec
import Exchange.Stream
import Exchange.Publisher
import Exchange.Depth
import Exchange.ReplayEngine
import Exchange.Requests
import Exchange.Feed
import Exchange.Gate
import Exchange.Position
import Exchange.FillOrKill
import Exchange.Ledger
import Exchange.Rejection
import Exchange.Uncrossed
import Exchange.Replacement
import Exchange.Accounts
import Exchange.Marks
import Exchange.Publication
import Exchange.Reports
import Exchange.Remainders
import Exchange.Leaves
import Exchange.Sequencing
import Exchange.Session
import Exchange.LateJoiner
import Exchange.RingBuffer
import Exchange.BestPrices
import Exchange.MatchLoop
import Exchange.SweepShape
import Exchange.Splitting
import Exchange.Relabelling
import Exchange.Mirror
import Exchange.Disguise
import Exchange.Anonymity
import Exchange.Atomicity
import Exchange.Undo
import Exchange.Traversal
import Exchange.SnapshotDepth
import Exchange.SnapshotRetry
import Exchange.Canonical
import Exchange.EnumBytes
import Exchange.Overflow
import Exchange.Aggregates
import Exchange.Histogram
import Exchange.Quantile
import Exchange.SlabPoolRuns
import Exchange.CheckedBitmap
import Exchange.PriceIndexVariants
import Exchange.RingMonitor
import Exchange.MarketMaker
import Exchange.QuoteTracking
import Exchange.Inventory
import Exchange.Ownership
import Exchange.FanInSequencer
import Exchange.MpscRingBuffer
import Exchange.Lib.Allocation
import Exchange.Audit
import Exchange.BestExecution
import Exchange.QueueEquivalence
import Exchange.QueuePriority
import Exchange.FanInThreads
import Exchange.MpscProgress
import Exchange.Volume
import Exchange.SyntheticSession
import Exchange.Venues
import Exchange.Arbitrage
import Exchange.MarketMaking
import Exchange.Lib.FloatingPoint
import Exchange.VolumeCurve
import Exchange.Vwap
import Exchange.CutFeed
import Exchange.WindDown
import Exchange.Pipeline
import Exchange.Lib.ReleaseAcquire
import Exchange.RingMemory
import Exchange.SharedRing
import Exchange.SharedFanIn
