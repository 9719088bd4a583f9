import CachyDb.Cache.Lfu
import CachyDb.Cache.Refinement
import CachyDb.Database.Bulk
import CachyDb.Database.Continuity
import CachyDb.Database.Durability
import CachyDb.Database.Facade
import CachyDb.Database.Failures
import CachyDb.Database.Lasting
import CachyDb.Database.Lifetimes
import CachyDb.Database.Maintenance
import CachyDb.Database.PageFit
import CachyDb.Database.PageRuns
import CachyDb.Database.Processes
import CachyDb.Database.Provenance
import CachyDb.Database.Recovery
import CachyDb.Database.Reopening
import CachyDb.Database.Replay
import CachyDb.Database.Restarts
import CachyDb.Garbage.Compactor
import CachyDb.Garbage.LiveData
import CachyDb.Index.BTree
import CachyDb.Index.Calls
import CachyDb.Index.Insertion
import CachyDb.Index.Occupancy
import CachyDb.Index.Refinement
import CachyDb.Lib.Bytes
import CachyDb.Lib.Chronicle
import CachyDb.Lib.Crc32
import CachyDb.Lib.File
import CachyDb.Lib.FileSystem
import CachyDb.Lib.Grouping
import CachyDb.Lib.Handles
import CachyDb.Lib.Memo
import CachyDb.Lib.Simulation
import CachyDb.Lib.Slice
import CachyDb.Lib.Transition
import CachyDb.Logger.Rotation
import CachyDb.Pager.Accepted
import CachyDb.Pager.Changes
import CachyDb.Pager.Codec
import CachyDb.Pager.Object
import CachyDb.Pager.Page
import CachyDb.Pager.Space
import CachyDb.Pager.Steps
import CachyDb.Pager.Torn
import CachyDb.Pager.Traces
import CachyDb.Record.Damage
import CachyDb.Record.Format
import CachyDb.Storage.Backpressure
import CachyDb.Storage.Calls
import CachyDb.Storage.Capacity
import CachyDb.Storage.Chunking
import CachyDb.Storage.Contents
import CachyDb.Storage.Dictionary
import CachyDb.Storage.Exchanged
import CachyDb.Storage.Filed
import CachyDb.Storage.Filling
import CachyDb.Storage.Finished
import CachyDb.Storage.FlushCounter
import CachyDb.Storage.Flushing
import CachyDb.Storage.Freshness
import CachyDb.Storage.Growth
import CachyDb.Storage.History
import CachyDb.Storage.Initialisation
import CachyDb.Storage.Isolation
import CachyDb.Storage.Large
import CachyDb.Storage.Logged
import CachyDb.Storage.Lookup
import CachyDb.Storage.Marked
import CachyDb.Storage.Markers
import CachyDb.Storage.Memo
import CachyDb.Storage.Order
import CachyDb.Storage.Orderly
import CachyDb.Storage.Orphans
import CachyDb.Storage.Overwrite
import CachyDb.Storage.Progress
import CachyDb.Storage.Provenance
import CachyDb.Storage.Readable
import CachyDb.Storage.Reassembly
import CachyDb.Storage.Rebuild
import CachyDb.Storage.Record
import CachyDb.Storage.Regular
import CachyDb.Storage.Requests
import CachyDb.Storage.Room
import CachyDb.Storage.Router
import CachyDb.Storage.Runs
import CachyDb.Storage.Settled
import CachyDb.Storage.Single
import CachyDb.Storage.Site
import CachyDb.Storage.Store
import CachyDb.Storage.Swaps
import CachyDb.Storage.TableHandler
import CachyDb.Storage.Termination
import CachyDb.Storage.Threads
import CachyDb.Storage.Torn
import CachyDb.Storage.Transparency
import CachyDb.Storage.Turns
import CachyDb.Storage.Views
import CachyDb.Wal.Archival
import CachyDb.Wal.Atomicity
import CachyDb.Wal.Checkpoint
import CachyDb.Wal.Completeness
import CachyDb.Wal.Crash
import CachyDb.Wal.CrashLog
import CachyDb.Wal.Creation
import CachyDb.Wal.Flags
import CachyDb.Wal.Flush
import CachyDb.Wal.Format
import CachyDb.Wal.Layout
import CachyDb.Wal.Log
import CachyDb.Wal.Marks
import CachyDb.Wal.Model
import CachyDb.Wal.OnDisk
import CachyDb.Wal.Operations
import CachyDb.Wal.Preallocation
import CachyDb.Wal.Rejected
import CachyDb.Wal.Shutdown
import CachyDb.Wal.Upkeep
