import PersistentQueue.Lib.SortedMap
import PersistentQueue.Lib.Run
import PersistentQueue.Lib.History
import PersistentQueue.Lib.Word
import PersistentQueue.Lib.BigEndian
import PersistentQueue.Lib.Journaled
import PersistentQueue.Lib.Sweep
import PersistentQueue.Lib.Replies
import PersistentQueue.Lib.Progress
import PersistentQueue.Lib.Database
import PersistentQueue.Key
import PersistentQueue.Store
import PersistentQueue.Visits
import PersistentQueue.Queue
import PersistentQueue.Recovery
import PersistentQueue.GroupCommit
import PersistentQueue.GroupSystem
import PersistentQueue.Ledger
import PersistentQueue.Seqs
import PersistentQueue.Session
import PersistentQueue.Stray
import PersistentQueue.Cursor
import PersistentQueue.NoLoss
import PersistentQueue.Commits
import PersistentQueue.Parking
import PersistentQueue.Lib.Notify
import PersistentQueue.Facade
import PersistentQueue.Tasks
import PersistentQueue.Room
import PersistentQueue.Attention
import PersistentQueue.Cancel
import PersistentQueue.AckFinal
import PersistentQueue.Guards
import PersistentQueue.Accounting
import PersistentQueue.Exclusive
import PersistentQueue.Exact
import PersistentQueue.Bounds
import PersistentQueue.Overflow
import PersistentQueue.Scan
import PersistentQueue.Drained
import PersistentQueue.Lib.Watermark
import PersistentQueue.Head
import PersistentQueue.Overlap
import PersistentQueue.Order
import PersistentQueue.World
import PersistentQueue.Delivery
import PersistentQueue.StableIds
import PersistentQueue.Operations
import PersistentQueue.AckOrder
import PersistentQueue.Sound
import PersistentQueue.Ascent
import PersistentQueue.Typed
import PersistentQueue.Reference
import PersistentQueue.Refinement
import PersistentQueue.Completion
import PersistentQueue.TypedQueue
import PersistentQueue.Archived
import PersistentQueue.Provenance
import PersistentQueue.Settled
import PersistentQueue.Backends
import PersistentQueue.SledCommits
import PersistentQueue.Holders
import PersistentQueue.Closures
import PersistentQueue.Futures
