import SwiftMerge.Lib.BinarySearch
import SwiftMerge.Lib.Bytes
import SwiftMerge.Lib.Failure
import SwiftMerge.Lib.Journal
import SwiftMerge.Lib.Program
import SwiftMerge.Lib.Run
import SwiftMerge.Lib.Overlay
import SwiftMerge.Lib.Dated
import SwiftMerge.Lib.Total
import SwiftMerge.Lib.Blocks
import SwiftMerge.Lib.WorkList
import SwiftMerge.Disk
import SwiftMerge.Lsm.Bloom
import SwiftMerge.Lsm.FileName
import SwiftMerge.Lsm.SsTable
import SwiftMerge.Lsm.Reader
import SwiftMerge.Lsm.Proof.BloomProof
import SwiftMerge.Lsm.Proof.TableProof
import SwiftMerge.Lsm.Proof.SectionGrammar
import SwiftMerge.Lsm.Proof.IndexProof
import SwiftMerge.Lsm.Proof.ReaderProof
import SwiftMerge.Lsm.Proof.LevelProof
import SwiftMerge.Lsm.Proof.FirstAnswer
import SwiftMerge.Lsm.Proof.AnyOrder
import SwiftMerge.Lsm.Proof.TableViews
import SwiftMerge.Lsm.Proof.SearchReads
import SwiftMerge.Memtable.Entry
import SwiftMerge.Memtable.Wal
import SwiftMerge.Memtable.Memtable
import SwiftMerge.Memtable.Proof.EntryCodec
import SwiftMerge.Memtable.Proof.Replay
import SwiftMerge.Memtable.Proof.Writes
import SwiftMerge.Memtable.Runs
import SwiftMerge.Memtable.Tracked
import SwiftMerge.Memtable.Proof.FlushTable
import SwiftMerge.Memtable.Proof.TableFormat
import SwiftMerge.Memtable.Proof.TableReads
import SwiftMerge.Memtable.Proof.LevelReads
import SwiftMerge.Memtable.Proof.Accounting
import SwiftMerge.Memtable.Proof.GrowingLog
import SwiftMerge.Memtable.Proof.LogMirror
import SwiftMerge.Memtable.Proof.FailedWrites
import SwiftMerge.Memtable.Proof.TableSearch
import SwiftMerge.Memtable.Proof.ReplayPanics
import SwiftMerge.Memtable.Proof.ReplaySize
import SwiftMerge.Memtable.Proof.Accepted
import SwiftMerge.Compaction.Unit
import SwiftMerge.Compaction.Proof.Join
import SwiftMerge.Compaction.Coordinator
import SwiftMerge.Compaction.Runs
import SwiftMerge.Compaction.Proof.LevelTables
import SwiftMerge.Compaction.TableStore
import SwiftMerge.Compaction.Proof.Frame
import SwiftMerge.Compaction.Proof.Partition
import SwiftMerge.Compaction.Proof.Unit
import SwiftMerge.Compaction.Proof.Cycle
import SwiftMerge.Compaction.Proof.Success
import SwiftMerge.Compaction.Proof.FailingUnit
import SwiftMerge.Compaction.Proof.OutputTables
import SwiftMerge.Compaction.Proof.UnitsEnd
import SwiftMerge.Compaction.Proof.LandedTables
import SwiftMerge.Compaction.Proof.Promotion
import SwiftMerge.Compaction.Proof.Draining
import SwiftMerge.Compaction.Proof.StoreProof
import SwiftMerge.Compaction.Proof.Recency
import SwiftMerge.Compaction.Proof.NewestFirst
import SwiftMerge.Compaction.Proof.Neighbours
import SwiftMerge.Compaction.Proof.HalfDone
import SwiftMerge.Compaction.Proof.SectionReads
import SwiftMerge.Compaction.Proof.Rebuild
import SwiftMerge.Service
import SwiftMerge.Db.Server
import SwiftMerge.Db.Visibility
import SwiftMerge.Db.ReadPaths
import SwiftMerge.Db.FlushCrash
import SwiftMerge.Db.Recovery
import SwiftMerge.Db.Sessions
import SwiftMerge.Db.Encoding
import SwiftMerge.Db.Batch
import SwiftMerge.Lib.Latest
import SwiftMerge.Lsm.Proof.ArrayReads
import SwiftMerge.Compaction.Proof.StoreReads
import SwiftMerge.Compaction.Proof.Origins
import SwiftMerge.Db.System
import SwiftMerge.Db.SplitGet
import SwiftMerge.Db.Range
import SwiftMerge.Db.Snapshot
import SwiftMerge.Db.Requests
import SwiftMerge.Compaction.Monitor
import SwiftMerge.Compaction.Proof.MonitorProof
import SwiftMerge.Compaction.Proof.BusyStore
import SwiftMerge.Db.Busy
import SwiftMerge.Db.BusyReads
