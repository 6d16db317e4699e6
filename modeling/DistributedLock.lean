import DistributedLock.Lib.Machine
import DistributedLock.Lib.Quorum
import DistributedLock.Lib.Word
import DistributedLock.Lib.Product
import DistributedLock.Lib.Counting
import DistributedLock.Lib.Run
import DistributedLock.Lib.Walk
import DistributedLock.Redis.Server
import DistributedLock.Redis.DBInterface
import DistributedLock.Redis.DBRedis
import DistributedLock.Redis.Steps
import DistributedLock.Redis.Answers
import DistributedLock.Redis.Ownership
import DistributedLock.TimeoutQueue.Code
import DistributedLock.TimeoutQueue.Basic
import DistributedLock.TimeoutQueue.Events
import DistributedLock.TimeoutQueue.Wakeup
import DistributedLock.TimeoutQueue.Numbered
import DistributedLock.TimeoutQueue.Conservation
import DistributedLock.TimeoutQueue.Timing
import DistributedLock.TimeoutQueue.AllDone
import DistributedLock.TimeoutQueue.Shutdown
import DistributedLock.DMutex.Code
import DistributedLock.DMutex.Points
import DistributedLock.DMutex.Counting
import DistributedLock.DMutex.Unlocking
import DistributedLock.DMutex.Discipline
import DistributedLock.DMutex.Acquisition
import DistributedLock.Cluster.Defs
import DistributedLock.Cluster.Basic
import DistributedLock.Cluster.Connection
import DistributedLock.Cluster.Callers
import DistributedLock.Cluster.Attempt
import DistributedLock.Cluster.Tally
import DistributedLock.Cluster.MutualExclusion
import DistributedLock.Cluster.LiveQuorum
import DistributedLock.Cluster.StaleQuorum
import DistributedLock.Cluster.Release
import DistributedLock.Cluster.UnlockFinal
import DistributedLock.Cluster.Schedule
import DistributedLock.Cluster.Held
import DistributedLock.Cluster.Bounds
import DistributedLock.Cluster.Requests
import DistributedLock.Cluster.Deadline
import DistributedLock.Renewal.Defs
import DistributedLock.Renewal.Registered
import DistributedLock.Renewal.Pending
import DistributedLock.Renewal.Lifetime
import DistributedLock.Client.Defs
import DistributedLock.Client.Connection
import DistributedLock.Sequential.Defs
import DistributedLock.Sequential.Operations
import DistributedLock.Sequential.Loops
import DistributedLock.Sequential.Delivery
import DistributedLock.Sequential.Undisturbed
import DistributedLock.Sequential.Acquire
import DistributedLock.Sequential.Exact
import DistributedLock.Sequential.Repair
import DistributedLock.Sequential.Retry
import DistributedLock.Lib.Stream
import DistributedLock.Resp.Commands
import DistributedLock.Resp.Incremental
import DistributedLock.Resp.Format
import DistributedLock.Pipeline.Progress
import DistributedLock.Lib.Refinement
import DistributedLock.Pipeline.Exchange
import DistributedLock.Wired.Refinement
import DistributedLock.Wired.Exact
import DistributedLock.Wired.Progress
