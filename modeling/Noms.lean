import Noms.Lib.BigEndian
import Noms.Lib.Buffer
import Noms.Lib.Search
import Noms.Nbs.Table
import Noms.Nbs.TableWriter
import Noms.Nbs.TableReader
import Noms.Lib.Fields
import Noms.Nbs.TableLayout
import Noms.Nbs.IndexLookup
import Noms.Nbs.TableRoundTrip
import Noms.Lib.ByteOrder
import Noms.Types.Value
import Noms.Types.ValueOrder
import Noms.Lib.AssocList
import Noms.Nbs.MemTable
import Noms.Nbs.TableQueries
import Noms.Nbs.TableSet
import Noms.Nbs.Store
import Noms.Nbs.BatchLookup
import Noms.Nbs.Compaction
import Noms.Nbs.StoreSpec
import Noms.Nbs.Visibility
import Noms.Nbs.SourceLayers
import Noms.Nbs.StoreRuns
import Noms.Lib.SortedMap
import Noms.Types.OpCache
import Noms.Types.GraphBuilder
import Noms.Types.GraphStack
import Noms.Types.GraphTree
import Noms.Types.GraphSpec
import Noms.Lib.Lcs
import Noms.Types.EditDistance
import Noms.Types.EditDistanceTable
import Noms.Types.EditDistanceSpec
import Noms.Nbs.Manifest
import Noms.Nbs.ManifestRuns
import Noms.Merge.ThreeWayList
import Noms.Types.RollingValueHasher
import Noms.Merge.ThreeWay
import Noms.Types.OrderedDiff
import Noms.Diff.Patch
import Noms.Datas.Commit
import Noms.Types.RefHeap
import Noms.Datas.Pull
import Noms.Lib.ContentStore
import Noms.Types.ValueStore
import Noms.Types.ValueStoreRuns
import Noms.Lib.Loop
import Noms.Types.NumberUtil
import Noms.Types.Path
import Noms.Lib.Scatter
import Noms.Nbs.LocatedRecords
import Noms.Nbs.ReadPlanning
import Noms.Nbs.BatchedReads
import Noms.Datas.CommonAncestor
import Noms.Lib.Drain
import Noms.Cmd.CommitIterator
import Noms.Lib.LastOfRuns
import Noms.Types.BuildData
import Noms.Lib.Least
import Noms.Types.SetIterator
import Noms.Types.SetIteratorSpec
import Noms.Types.OpCacheCompare
import Noms.Types.MapCursor
import Noms.Lib.Lru
import Noms.Util.SizeCache
import Noms.Lib.Digits
import Noms.Hash.Base32
import Noms.Nomdex.QueryRange
import Noms.Lib.Fuel
import Noms.Types.Type
import Noms.Types.AssertType
import Noms.Types.Struct
import Noms.Nbs.S3Upload
import Noms.Lib.Schedule
import Noms.Lib.MinQueue
import Noms.Lib.ListSlots
import Noms.Util.OrderedParallel
import Noms.Lib.LastIndex
import Noms.Spec.Spec
import Noms.Lib.FirstOccurrences
import Noms.Types.UnionType
import Noms.Csv.Schema
import Noms.Types.CursorPosition
import Noms.Types.CursorSeek
import Noms.Lib.CommonPrefix
import Noms.Types.FastForward
import Noms.Types.DiffLeftRight
import Noms.Types.DiffTopDown
import Noms.Merge.ThreeWayOrdered
