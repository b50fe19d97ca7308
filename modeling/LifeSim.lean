import LifeSim.Sched.Broken
import LifeSim.Barrier.Soundness
import LifeSim.Directory.CacheMap
import LifeSim.Sift.Calls
import LifeSim.Rob.Renumber
import LifeSim.Futex.Selection
import LifeSim.Futex.Deadline
import LifeSim.Futex.NextTimeout
import LifeSim.Sync.TryLock
import LifeSim.Sync.AppBarrier
import LifeSim.Sched.CoreWalk
import LifeSim.Sched.ExitTimes
import LifeSim.Sched.AffinityCalls
import LifeSim.Sched.BigSmall
import LifeSim.Sched.RoundRobin
import LifeSim.Rob.SmtSkip
import LifeSim.Queue.KServer
import LifeSim.Queue.HistoryList
import LifeSim.Queue.WindowedMg1
import LifeSim.Spin.Detector
import LifeSim.Cache.Recency
import LifeSim.Trace.AddressMap
import LifeSim.Trace.Output
import LifeSim.Trace.BasicBlocks
import LifeSim.Trace.TraceFiles
import LifeSim.Sched.MappingFile
import LifeSim.Interval.BranchResolution
import LifeSim.Interval.CpiStack
import LifeSim.Interval.LongExtensions
import LifeSim.Interval.Progress
import LifeSim.Cache.Nru
import LifeSim.Sched.Dvfs
import LifeSim.Core.LineSplit
import LifeSim.Network.Broadcast
import LifeSim.Network.Latency
import LifeSim.Network.Controllers
import LifeSim.Cache.Nuca
import LifeSim.Prefetch.GhbChains
import LifeSim.Config.RoundTrip
import LifeSim.Rob.SmtProgress
import LifeSim.Misc.CircularQueue
import LifeSim.Misc.MovingAverage
import LifeSim.Misc.BitVector
import LifeSim.Cache.HomeLookup
import LifeSim.Directory.Candidates
import LifeSim.Interval.WindowMembers
import LifeSim.Hierarchy.SingleWriter
import LifeSim.Cheetah.Caches
import LifeSim.Directory.Waiters
import LifeSim.Directory.LatestWrite
