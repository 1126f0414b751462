import Cdoc.Foundation.Bytes
import Cdoc.Foundation.OrderedCode
import Cdoc.Foundation.Checked
import Cdoc.Foundation.SortedMap
import Cdoc.Foundation.Overlay
import Cdoc.Foundation.PrefixRange
import Cdoc.Foundation.BinarySearch
import Cdoc.Foundation.File
import Cdoc.Foundation.Checksum
import Cdoc.Foundation.Directory
import Cdoc.Foundation.Combination
import Cdoc.Foundation.Transitions
import Cdoc.Foundation.Causality
import Cdoc.Foundation.Utf8
import Cdoc.Foundation.Descent
import Cdoc.Foundation.Progress
import Cdoc.Foundation.Callback
import Cdoc.Foundation.TextOrder
import Cdoc.Foundation.Calendar
import Cdoc.Hlc
import Cdoc.HlcThreads
import Cdoc.HlcClock
import Cdoc.HlcLinearized
import Cdoc.HlcNetwork
import Cdoc.Wal
import Cdoc.WalFormat
import Cdoc.WalLaw
import Cdoc.WalFrames
import Cdoc.WalScan
import Cdoc.WalHeader
import Cdoc.Sst.Memtable
import Cdoc.Sst.Write
import Cdoc.Sst.Read
import Cdoc.Sst.Index
import Cdoc.Sst.Layout
import Cdoc.Sst.Table
import Cdoc.Sst.Size
import Cdoc.Sst.RoundTrip
import Cdoc.Sst.Damaged
import Cdoc.Transaction
import Cdoc.Db
import Cdoc.Layers
import Cdoc.Steps
import Cdoc.Accounting
import Cdoc.Snapshot
import Cdoc.Opening
import Cdoc.Isolation
import Cdoc.Client
import Cdoc.Completion
import Cdoc.Holding
import Cdoc.Persistence
import Cdoc.Crash
import Cdoc.Restart
import Cdoc.Recency
import Cdoc.FileNames
import Cdoc.Residue
import Cdoc.Succession
import Cdoc.Faults
import Cdoc.Limits
import Cdoc.Retention
import Cdoc.VarInt
import Cdoc.Path.Lseq
import Cdoc.Path.LseqSegments
import Cdoc.Path.LseqOrder
import Cdoc.Path.LseqConcurrent
import Cdoc.Path.LseqGrowth
import Cdoc.Path.LseqSingle
import Cdoc.Path.Format
import Cdoc.Path.RoundTrip
import Cdoc.Path.KeyOrder
import Cdoc.Path.Limit
import Cdoc.Path.WideSegments
import Cdoc.Path.LseqAppend
import Cdoc.Path.Reading
import Cdoc.Path.WriteBack
import Cdoc.Path.Lww
import Cdoc.Subtree
import Cdoc.Query.Parse
import Cdoc.Query.Grammar
import Cdoc.Query.Tokens
import Cdoc.Query.Correctness
import Cdoc.Query.Progress
import Cdoc.Query.Safety
import Cdoc.Query.Renderable
import Cdoc.Query.Macro
import Cdoc.Mutation
import Cdoc.Flattening
import Cdoc.Leaves
import Cdoc.Refusal
import Cdoc.Document
import Cdoc.DocumentStore
import Cdoc.Session
import Cdoc.Sequences
import Cdoc.Integrity
import Cdoc.Siblings
import Cdoc.MutationMacro
import Cdoc.SequenceRoom
import Cdoc.Positions
import Cdoc.Traversal
