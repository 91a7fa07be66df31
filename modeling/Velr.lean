import Velr.Common.Bytes
import Velr.Common.Prog
import Velr.Common.Packing
import Velr.PageWriter.Varint
import Velr.Common.Concurrency
import Velr.Common.Utf8
import Velr.Record.RoundTrip
import Velr.Inflate.Transparent
import Velr.Publish.Import
import Velr.PageWriter.Page
import Velr.PageWriter.Writer
import Velr.Format.BTree
import Velr.Format.Image
import Velr.PageWriter.Dynamic
import Velr.PageWriter.Tree
import Velr.Format.Freelist
import Velr.PageWriter.Finish
import Velr.Session.Machine
import Velr.Session.Standing
import Velr.Session.Poison
import Velr.Session.Run
import Velr.Csv.RoundTrip
import Velr.Import.Progress
import Velr.Common.Groups
import Velr.IndexStats.Statistics
import Velr.Common.FirstDifference
import Velr.Record.Specialised
import Velr.Import.Files
import Velr.Validation.ForeignKeys
import Velr.Common.BitFields
import Velr.Sort.Spool
import Velr.Sort.Key
import Velr.Common.Radix
import Velr.Common.Merge
import Velr.Common.Slices
import Velr.Sort.Runs
import Velr.Sort.PagePlan
import Velr.Sort.Tuples
import Velr.Sort.IntegerIndex
import Velr.Sort.Sorted
import Velr.IndexStats.Witnesses
import Velr.Sort.Direct
import Velr.Sort.Histograms
import Velr.TextIndex.Spool
import Velr.TextIndex.Key
import Velr.TextIndex.Sorted
import Velr.Sort.Workers
import Velr.Sort.Budgets
import Velr.Body.Spool
import Velr.Body.Primary
import Velr.Import.Arena
import Velr.Common.Reading
import Velr.Body.Buffered
import Velr.Sort.Encoded
import Velr.Validation.PageReader
import Velr.Validation.Pointers
import Velr.Common.Whitespace
import Velr.Import.ArgumentFile
import Velr.Common.StrSlice
import Velr.Query.Scanners
import Velr.Query.Statements
import Velr.Common.Tables
import Velr.Import.LabelGroups
import Velr.Common.JsonString
import Velr.Output.Encodings
import Velr.Common.Bitmaps
import Velr.Common.FirstWins
import Velr.IdMap.Page
import Velr.IdMap.Directory
import Velr.IdMap.Radix
import Velr.Sort.RunFiles
import Velr.IdMap.Map
import Velr.IdMap.Exact
import Velr.IdMap.Sealing
import Velr.IdMap.Accounts
import Velr.Native.Shapes
import Velr.Native.Import
import Velr.Native.Storage
import Velr.Native.Steps
import Velr.Native.Filed
import Velr.Native.Known
import Velr.Native.Lookup
import Velr.Native.Rows
import Velr.Native.Runs
import Velr.Native.Endpoints
import Velr.Native.Integrity
import Velr.Native.Actual
import Velr.Common.Grouping
import Velr.Native.Aggregates
import Velr.Import.Header
import Velr.Import.Values
import Velr.Import.Panics
import Velr.Common.Marks
import Velr.Common.Collecting
import Velr.Validation.Ownership
import Velr.Validation.Partition
import Velr.Common.Streams
import Velr.Csv.Preflight
import Velr.Import.Discovery
import Velr.Common.WorkerPool
import Velr.Validation.Workers
import Velr.Session.Places
import Velr.Session.Conserved
