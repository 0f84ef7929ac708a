import Librocks.Common.Bytes
import Librocks.Common.FiniteMap
import Librocks.Common.Run
import Librocks.Common.Mutex
import Librocks.Common.Linearizable
import Librocks.Common.Monitor
import Librocks.Common.LockOrder
import Librocks.Common.Ownership
import Librocks.Api.Status
import Librocks.Rocks.Database
import Librocks.Rocks.Log
import Librocks.Store.Defs
import Librocks.Store.Spec
import Librocks.Store.Calls
import Librocks.Store.Refinement
import Librocks.Store.Crash
import Librocks.Store.Lifecycle
import Librocks.Store.Durability
import Librocks.Store.Registry
import Librocks.Store.Families
import Librocks.Store.Concurrent
import Librocks.Store.Outage
import Librocks.Store.Buffers
import Librocks.Kueue.Codec
import Librocks.Kueue.Defs
import Librocks.Kueue.Spec
import Librocks.Kueue.Construct
import Librocks.Kueue.HandOut
import Librocks.Kueue.Bounds
import Librocks.Store.Blind
import Librocks.Kueue.Fifo
import Librocks.Kueue.Interval
import Librocks.Kueue.Confined
import Librocks.Kueue.Threads
import Librocks.Kueue.Steps
import Librocks.Kueue.Counting
import Librocks.Kueue.Alone
import Librocks.Kueue.Ledger
import Librocks.Kueue.Concurrent
import Librocks.Kueue.Traced
import Librocks.Kueue.Linearizable
import Librocks.Kueue.Quiescence
import Librocks.Kueue.Acknowledge
import Librocks.Kueue.Wakeup
import Librocks.Kueue.HandOn
import Librocks.Kueue.Recovery
import Librocks.Kueue.Life
import Librocks.Kueue.Identity
import Librocks.Kueue.Buffers
import Librocks.Manager.Defs
import Librocks.Manager.Soundness
import Librocks.Manager.Lifecycle
import Librocks.Manager.Blind
import Librocks.Manager.Get
import Librocks.Manager.Queues
import Librocks.Manager.Locks
import Librocks.Client.Bytes
import Librocks.Client.KVStore
import Librocks.Client.Presence
import Librocks.Client.Kinds
import Librocks.Client.Outcomes
import Librocks.Client.Dictionary
