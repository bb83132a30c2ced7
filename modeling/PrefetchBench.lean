import PrefetchBench.Analysis.Parser
import PrefetchBench.Analysis.Printer
import PrefetchBench.Analysis.Progress
import PrefetchBench.Analysis.RoundTrip
import PrefetchBench.Analysis.Table
import PrefetchBench.BTree.Agreement
import PrefetchBench.BTree.BulkLoad
import PrefetchBench.BTree.FindGroup
import PrefetchBench.BTree.FindSpp
import PrefetchBench.BTree.Height
import PrefetchBench.BTree.History
import PrefetchBench.BTree.Insert
import PrefetchBench.BTree.Inserted
import PrefetchBench.BTree.Interleaved
import PrefetchBench.BTree.Invariant
import PrefetchBench.BTree.Keyed
import PrefetchBench.BTree.Leaves
import PrefetchBench.BTree.Loaded
import PrefetchBench.BTree.Lockstep
import PrefetchBench.BTree.Lookup
import PrefetchBench.BTree.Profiler
import PrefetchBench.BTree.Siblings
import PrefetchBench.BTree.Simd
import PrefetchBench.BTree.Smallest
import PrefetchBench.BTree.Splits
import PrefetchBench.BTree.Stages
import PrefetchBench.BTree.Store
import PrefetchBench.BTree.Tree
import PrefetchBench.Batch.Countdown
import PrefetchBench.Batch.Lanes
import PrefetchBench.Batch.Ledger
import PrefetchBench.Batch.Output
import PrefetchBench.Batch.Pipeline
import PrefetchBench.Batch.Pool
import PrefetchBench.Batch.Ring
import PrefetchBench.Batch.Stages
import PrefetchBench.Corridor.Chains
import PrefetchBench.Corridor.Greedy
import PrefetchBench.Corridor.Lines
import PrefetchBench.LIPP.Arithmetic
import PrefetchBench.LIPP.Bulk
import PrefetchBench.LIPP.Constructor
import PrefetchBench.LIPP.Exact
import PrefetchBench.LIPP.Grouping
import PrefetchBench.LIPP.Holds
import PrefetchBench.LIPP.Index
import PrefetchBench.LIPP.Load
import PrefetchBench.LIPP.Owned
import PrefetchBench.LIPP.Reload
import PrefetchBench.LIPP.Strategies
import PrefetchBench.LIPP.Wrapper
import PrefetchBench.Memory.Bitmap
import PrefetchBench.Memory.Heap
import PrefetchBench.Memory.Rows
import PrefetchBench.Ordered.Entries
import PrefetchBench.Ordered.Parts
import PrefetchBench.PGM.Accepting
import PrefetchBench.PGM.Accuracy
import PrefetchBench.PGM.AddPoint
import PrefetchBench.PGM.Answers
import PrefetchBench.PGM.Documented
import PrefetchBench.PGM.Failure
import PrefetchBench.PGM.Height
import PrefetchBench.PGM.Hulls
import PrefetchBench.PGM.Index
import PrefetchBench.PGM.Knots
import PrefetchBench.PGM.Levels
import PrefetchBench.PGM.Navigation
import PrefetchBench.PGM.Pieces
import PrefetchBench.PGM.PiecewiseLinear
import PrefetchBench.PGM.Reload
import PrefetchBench.PGM.Safety
import PrefetchBench.PGM.Segmentation
import PrefetchBench.PGM.Storeys
import PrefetchBench.PGM.Strategies
import PrefetchBench.PGM.Tower
import PrefetchBench.PGM.Unsorted
import PrefetchBench.Prog.Arrays
import PrefetchBench.Prog.Basic
import PrefetchBench.Prog.Iterations
import PrefetchBench.Prog.Throwing
import PrefetchBench.RS.Builder
import PrefetchBench.RS.Built
import PrefetchBench.RS.FirstCopy
import PrefetchBench.RS.Greedy
import PrefetchBench.RS.Guarantee
import PrefetchBench.RS.Queries
import PrefetchBench.RS.RadixTable
import PrefetchBench.RS.Segment
import PrefetchBench.RS.Spline
import PrefetchBench.RS.Strategies
import PrefetchBench.RS.Termination
import PrefetchBench.RS.Window
import PrefetchBench.Search.Bisect
import PrefetchBench.Search.FixedSteps
import PrefetchBench.Search.KeyArray
import PrefetchBench.Search.Ranges
import PrefetchBench.Search.Steps
import PrefetchBench.Text.Decimal
import PrefetchBench.Text.Regex
import PrefetchBench.Text.Strings
import PrefetchBench.Windowed.Interleaved
import PrefetchBench.Windowed.Lockstep
