import Dlsmc.Framework.Machine
import Dlsmc.Framework.Chain
import Dlsmc.Framework.LinkQueue
import Dlsmc.Framework.IndexedHeap
import Dlsmc.Framework.HeapOrder
import Dlsmc.Framework.Operations
import Dlsmc.Framework.Linearize
import Dlsmc.Framework.TestAndSet
import Dlsmc.Framework.Progress
import Dlsmc.Framework.Ownership
import Dlsmc.Sync.Ebr
import Dlsmc.Sync.EbrSafety
import Dlsmc.Sync.EbrOnce
import Dlsmc.Sync.GtMutex
import Dlsmc.Sync.GtMutexSafety
import Dlsmc.Sync.GtWait
import Dlsmc.Sync.GtWaitBroadcast
import Dlsmc.Sync.Condition
import Dlsmc.Sync.ConditionSafety
import Dlsmc.Sync.Ticket
import Dlsmc.Sync.Mcs
import Dlsmc.Sync.Semaphore
import Dlsmc.Sync.WaitGroup
import Dlsmc.Sync.WaitGroupSafety
import Dlsmc.Sync.Destroy
import Dlsmc.Sync.WaitQueue
import Dlsmc.Greenthread.Reclaim
import Dlsmc.Greenthread.ReclaimSafety
import Dlsmc.Greenthread.TaskQueue
import Dlsmc.Greenthread.Runtime
import Dlsmc.Greenthread.Vps
import Dlsmc.Greenthread.Placement
import Dlsmc.Greenthread.Scheduling
import Dlsmc.Greenthread.Lifecycle
import Dlsmc.Greenthread.OneShot
import Dlsmc.Greenthread.Idle
import Dlsmc.Greenthread.IdleSafety
import Dlsmc.Greenthread.Wakeup
import Dlsmc.Greenthread.Threads
import Dlsmc.Greenthread.Joins
import Dlsmc.Greenthread.Timer
import Dlsmc.Greenthread.TimerHeap
import Dlsmc.Greenthread.TimerProtocol
import Dlsmc.Greenthread.TimerArming
import Dlsmc.Greenthread.SleepCancel
import Dlsmc.Greenthread.Places
import Dlsmc.Greenthread.Tokens
import Dlsmc.Greenthread.TickerWait
import Dlsmc.Greenthread.TickerDrift
import Dlsmc.Greenthread.StrayToken
import Dlsmc.Greenthread.TaskControl
import Dlsmc.Greenthread.TaskControlSafety
import Dlsmc.Greenthread.TaskResources
import Dlsmc.Greenthread.LocalStorage
import Dlsmc.Greenthread.LocalIsolation
import Dlsmc.Greenthread.LocalDestructors
import Dlsmc.Greenthread.Aging
import Dlsmc.Greenthread.TryPriority
import Dlsmc.Greenthread.Gauges
import Dlsmc.Greenthread.GaugeBalance
import Dlsmc.Greenthread.Blocking
import Dlsmc.Greenthread.BlockingSafety
import Dlsmc.Framework.BLink
import Dlsmc.Framework.BLinkSplit
import Dlsmc.Framework.BLinkWalk
import Dlsmc.Framework.Program
import Dlsmc.Shm.Segment
import Dlsmc.Shm.SingleWriter
import Dlsmc.Shm.Recovery
import Dlsmc.Shm.Alloc
import Dlsmc.Io.Ring
import Dlsmc.Io.Completion
import Dlsmc.Io.Backlog
import Dlsmc.Index.Key
import Dlsmc.Index.Registration
import Dlsmc.Index.RegistrationSafety
import Dlsmc.Index.Node
import Dlsmc.Index.Leaf
import Dlsmc.Index.Tree
import Dlsmc.Index.Rounds
import Dlsmc.Index.Descent
import Dlsmc.Index.Building
import Dlsmc.Index.Rebuild
import Dlsmc.Index.Restructure
import Dlsmc.Index.Install
import Dlsmc.Index.SplitLeaf
import Dlsmc.Index.Write
import Dlsmc.Index.Exhaustion
import Dlsmc.Index.OutOfMemory
import Dlsmc.Index.Consolidation
import Dlsmc.Index.Sizes
import Dlsmc.Index.TreeShape
import Dlsmc.Index.Oracle
import Dlsmc.Index.Concurrent
import Dlsmc.Index.ConcurrentTree
import Dlsmc.Index.ConcurrentSplit
import Dlsmc.Index.Linearizable
import Dlsmc.Index.DescentSafety
import Dlsmc.Index.Flags
import Dlsmc.Index.WaitFree
import Dlsmc.Index.Quiescent
import Dlsmc.Index.Retire
import Dlsmc.Index.RetireOwners
import Dlsmc.Index.RetireSteps
import Dlsmc.Index.RetireSafety
