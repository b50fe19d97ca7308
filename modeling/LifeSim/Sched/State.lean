import Mathlib
import LifeSim.Lib.Machine
import LifeSim.Lib.Checked
import LifeSim.Lib.Table

/-!
# Threads, cores and the tables of the pinned scheduler

The data behind `ThreadManager`, `Thread`, `Core`, `SchedulerDynamic`, `SchedulerPinnedBase`
and `SchedulerPinned`. Threads and cores are numbered; times are in femtoseconds.

The subclasses `SchedulerPinned` and `SchedulerBigSmall` share one state; each leaves the
fields of the other alone. Which thread runs where is recorded four times: the scheduler keeps a thread for each core
and a core for each thread, a `Thread` points to its `Core` and a `Core` to its `Thread`.
The two vectors indexed by thread id keep their sizes, since they grow at different events.
The tables indexed by core have one entry per core for the whole run.
-/

namespace LifeSim.Sched

open LifeSim.Lib

/-- `Core::State`, which is also the status of a thread. -/
inductive State
  | running
  | initializing
  | stalled
  | sleeping
  | wakingUp
  | idle
  | broken
  deriving DecidableEq, Repr

/-- `ThreadManager::stall_type_t`. -/
inductive StallType
  | unscheduled
  | broken
  | join
  | mutex
  | cond
  | barrier
  | futex
  | pause
  | sleep
  | syscall
  deriving DecidableEq, Repr

/-- `SchedulerPinnedBase::ThreadInfo`. -/
structure ThreadInfo where
  hasAffinity : Bool
  explicitAffinity : Bool
  affinity : ℕ → Bool
  coreRunning : Option ℕ
  lastScheduledIn : ℕ
  lastScheduledOut : ℕ

namespace ThreadInfo

/-- The entry of a thread nothing is known about. -/
def fresh : ThreadInfo :=
  ⟨false, false, fun _ => false, none, 0, 0⟩

/-- `ThreadInfo::clearAffinity`; the flag that an affinity was given stays. -/
def clearAffinity (i : ThreadInfo) : ThreadInfo :=
  { i with affinity := fun _ => false }

/-- `ThreadInfo::addAffinity`. -/
def addAffinity (i : ThreadInfo) (core : ℕ) : ThreadInfo :=
  { i with affinity := Function.update i.affinity core true, hasAffinity := true }

/-- `ThreadInfo::setAffinitySingle`. -/
def setAffinitySingle (i : ThreadInfo) (core : ℕ) : ThreadInfo :=
  i.clearAffinity.addAffinity core

/-- `ThreadInfo::setCoreRunning`. -/
def setCoreRunning (core : Option ℕ) (i : ThreadInfo) : ThreadInfo :=
  { i with coreRunning := core }

/-- The thread leaves its core. -/
def scheduledOut (time : ℕ) (i : ThreadInfo) : ThreadInfo :=
  { i with coreRunning := none, lastScheduledOut := time }

/-- The thread gets a core. -/
def scheduledIn (core time : ℕ) (i : ThreadInfo) : ThreadInfo :=
  { i with coreRunning := some core, lastScheduledIn := time }

/-- `ThreadInfo::isRunning`. -/
def isRunning (i : ThreadInfo) : Bool := i.coreRunning.isSome

end ThreadInfo

/-- The two schedulers built on `SchedulerPinnedBase`. -/
inductive Policy
  | pinned
  | bigSmall
  deriving DecidableEq, Repr

/-- The configuration of a simulation and the preprocessor switches of the build. -/
structure Config where
  policy : Policy
  /-- `getApplicationCores()`. -/
  numCores : ℕ
  /-- `m_quantum`. -/
  quantum : ℕ
  /-- `MODIFIED_CODE` is defined: initial cores come from a mapping file. -/
  modifiedCode : Bool
  /-- `PERIODIC_WORKLOAD` is defined: applications are released one hyper-period at a time. -/
  periodicWorkload : Bool
  /-- `scheduler/pinned/interleaving`. -/
  interleaving : ℕ
  /-- `scheduler/pinned/core_mask`. -/
  coreMask : ℕ → Bool
  numApps : ℕ
  numAppPerHyperPeriod : ℕ
  numThreadsPerHyperPeriod : ℕ
  /-- `general/runtime_intervention`. -/
  runtimeIntervention : Bool
  /-- `m_interval`. -/
  interval : ℕ
  /-- The cores tagged `big`. -/
  bigCore : ℕ → Bool

/-- Why an event is not carried out. -/
inductive Fault
  /-- An index is not inside `m_threads_runnable` or `m_thread_info`. -/
  | bounds
  /-- A core or application number is not inside a table indexed by it. -/
  | index
  /-- There is no thread with this number. -/
  | noThread
  /-- The assertion of `threadSetAffinity`: the mask names a core that does not exist. -/
  | invalidMask
  /-- The assertion of `Thread::setCore`: the core already runs a thread. -/
  | coreBusy
  /-- The assertions of `ThreadManager::onThreadExit`. -/
  | notRunning
  /-- A search over the cores does not end. -/
  | diverges
  /-- The recursion through the resume hook does not end. -/
  | recursion
  deriving DecidableEq, Repr

/-- The simulator, as far as scheduling goes. -/
structure Sim where
  /-- `ThreadManager::getNumThreads()`. -/
  numThreads : ℕ
  appId : ℕ → ℕ
  /-- `m_thread_state[t].status`. -/
  status : ℕ → State
  /-- `m_thread_state[t].stalled_reason`. -/
  stalledReason : ℕ → StallType
  /-- `Thread::m_core`. -/
  threadCore : ℕ → Option ℕ
  /-- `Core::m_thread`. -/
  coreOwner : ℕ → Option ℕ
  coreState : ℕ → State
  /-- `m_threads_runnable`. -/
  runnable : Table Bool
  /-- `m_thread_info`. -/
  info : Table ThreadInfo
  /-- `m_core_thread_running`. -/
  coreThread : ℕ → Option ℕ
  /-- `m_quantum_left`. -/
  quantumLeft : ℕ → ℕ
  /-- `m_last_periodic`. -/
  lastPeriodic : ℕ
  /-- `m_last_periodic_interval`. -/
  lastPeriodicInterval : ℕ
  /-- `m_next_core`. -/
  nextCore : ℕ
  /-- `core_thread_map`: the core of an application's thread. -/
  coreThreadMap : ℕ → ℕ → Option ℕ
  /-- `threads_on_core`. -/
  threadsOnCore : ℕ → List ℕ
  /-- `current_thread_count`. -/
  currentThreadCount : ℕ → ℕ
  /-- `threads_of_app`: the threads that wait for their hyper-period. -/
  threadsOfApp : ℕ → List ℕ
  /-- `m_hyper_period_number`. -/
  hyperPeriodNumber : ℕ
  /-- `m_num_threads_exited`. -/
  numThreadsExited : ℕ
  /-- `SchedulerBigSmall::m_thread_isbig`. -/
  threadIsBig : ℕ → Bool
  /-- `SchedulerBigSmall::m_last_reshuffle`. -/
  lastReshuffle : ℕ
  /-- `SchedulerBigSmall::m_rng`. -/
  rng : ℕ

/-- The scheduler after construction; the mapping file fills `core_thread_map`. -/
def initial (coreThreadMap : ℕ → ℕ → Option ℕ) : Sim where
  numThreads := 0
  appId := fun _ => 0
  status := fun _ => .idle
  stalledReason := fun _ => .unscheduled
  threadCore := fun _ => none
  coreOwner := fun _ => none
  coreState := fun _ => .idle
  runnable := ⟨16, fun _ => false⟩
  info := ⟨0, fun _ => .fresh⟩
  coreThread := fun _ => none
  quantumLeft := fun _ => 0
  lastPeriodic := 0
  lastPeriodicInterval := 0
  nextCore := 0
  coreThreadMap := coreThreadMap
  threadsOnCore := fun _ => []
  currentThreadCount := fun _ => 0
  threadsOfApp := fun _ => []
  hyperPeriodNumber := 0
  numThreadsExited := 0
  threadIsBig := fun _ => false
  lastReshuffle := 0
  rng := 42 * 2 ^ 16 + 0x330E

namespace Sim

/-- Change the entry of one thread in `m_thread_info`. -/
def modifyInfo (s : Sim) (t : ℕ) (f : ThreadInfo → ThreadInfo) : Sim :=
  { s with info := s.info.set t (f (s.info.get t)) }

/-- Set one entry of `m_core_thread_running`. -/
def setCoreThread (s : Sim) (core : ℕ) (t : Option ℕ) : Sim :=
  { s with coreThread := Function.update s.coreThread core t }

/-- Set one entry of `m_quantum_left`. -/
def setQuantum (s : Sim) (core quantum : ℕ) : Sim :=
  { s with quantumLeft := Function.update s.quantumLeft core quantum }

/-- `Core::setState`. -/
def setState (s : Sim) (core : ℕ) (state : State) : Sim :=
  { s with coreState := Function.update s.coreState core state }

/-- Set the status of a thread. -/
def setStatus (s : Sim) (t : ℕ) (state : State) : Sim :=
  { s with status := Function.update s.status t state }

/-- Set the status of a thread to stalled, with the reason. -/
def setStalled (s : Sim) (t : ℕ) (reason : StallType) : Sim :=
  { s with
    status := Function.update s.status t .stalled
    stalledReason := Function.update s.stalledReason t reason }

/-- Set one entry of `m_threads_runnable`. -/
def setRunnable (s : Sim) (t : ℕ) (b : Bool) : Sim :=
  { s with runnable := s.runnable.set t b }

end Sim

end LifeSim.Sched
