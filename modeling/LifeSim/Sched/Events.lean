import Mathlib.Data.Int.Notation
import LifeSim.Sched.Affinity

/-!
# The events of the simulator that reach the scheduler

The calls of `ThreadManager` with the hooks of `SchedulerDynamic`, the periodic callback with
its intervention (`changeMapping`, `updateDVFS`), `MagicServer::setFrequency`, and the change
of hyper-period at the end of `SchedulerPinnedBase::threadExit`. Together they are the step
function of one machine; a failed assertion or an access outside a table stops the run.

The contents of the mapping and frequency files are part of the event that reads them. Their
numbers are taken as read: a core number that is negative in the file is as much outside the
tables as one that is too large. Power, temperature and reliability figures are written
out by these functions and never read back by the scheduler, so they are left out.
-/

namespace LifeSim.Sched

open LifeSim.Lib

/-- An event, with the data that its handler reads from outside the scheduler. -/
inductive Event
  /-- `ThreadManager::createThread` for an application. -/
  | create (app : ℕ)
  /-- `ThreadManager::onThreadStart`. -/
  | start (t : ℕ)
  /-- `ThreadManager::stallThread_async`. -/
  | stall (t : ℕ) (reason : StallType)
  /-- `ThreadManager::resumeThread_async`. -/
  | resume (t : ℕ)
  /-- `ThreadManager::onThreadExit`, with the threads it wakes up and the next mapping file
  as lines of core, application and rank. -/
  | exit (t : ℕ) (wake : List ℕ) (file : List (ℕ × ℕ × ℕ))
  /-- `SchedulerPinnedBase::threadYield`. -/
  | yield (t : ℕ)
  /-- `SchedulerPinnedBase::threadSetAffinity`. -/
  | setAffinity (calling : Option ℕ) (t : ℕ) (mask : Option (List ℕ))
  /-- `periodic`, with the moves of the mapping file, if its flag is set, and the DVFS file. -/
  | periodic (moves : Option (List (ℕ × ℕ))) (dvfs : ℕ → ℤ)
  /-- `SIM_CMD_MHZ_SET`. -/
  | setFrequency (core mhz : ℕ)

/-- An event with the time it carries and the time on each core. -/
structure Call where
  event : Event
  time : ℕ
  clock : ℕ → ℕ

/-- A new thread of a later hyper-period gets no core yet. -/
def holdBack (cfg : Config) (s : Sim) (t : ℕ) : Except Fault Sim :=
  let app := s.appId t
  if app < cfg.numApps then
    .ok (countThread { s with
      threadsOfApp := Function.update s.threadsOfApp app (s.threadsOfApp app ++ [t]) } app)
  else .error .index

/-- The core of a new thread: the first free one it may run on. -/
def takeFreeCore (cfg : Config) (s : Sim) (t : ℕ) : Sim × Option ℕ :=
  match findFreeCoreForThread cfg s t with
  | some core =>
    (((s.modifyInfo t (ThreadInfo.setCoreRunning (some core))).setCoreThread core (some t)).setQuantum
      core cfg.quantum, some core)
  | none => (s.modifyInfo t (ThreadInfo.setCoreRunning none), none)

/-- A thread may have been given an affinity before its creation. -/
def ensureAffinity (cfg : Config) (clock : ℕ → ℕ) (s : Sim) (t : ℕ) : Except Fault Sim :=
  if (s.info.get t).hasAffinity then .ok s else threadSetInitialAffinity cfg clock s t

/-- `threadCreate` grows `m_thread_info` by 16 entries, once. -/
def growInfo (s : Sim) (t : ℕ) : Sim :=
  if s.info.size ≤ t then { s with info := s.info.resize (s.info.size + 16) .fresh } else s

/-- `SchedulerPinnedBase::threadCreate`. -/
def threadCreate (cfg : Config) (clock : ℕ → ℕ) (s : Sim) (t : ℕ) : Except Fault (Sim × Option ℕ) := do
  let s := growInfo s t
  if t < s.info.size then
    if cfg.periodicWorkload ∧ (s.hyperPeriodNumber + 1) * cfg.numAppPerHyperPeriod ≤ s.appId t then
      let s ← holdBack cfg s t
      .ok (s.modifyInfo t (ThreadInfo.setCoreRunning none), none)
    else
      let s ← ensureAffinity cfg clock s t
      .ok (takeFreeCore cfg s t)
  else .error .bounds

/-- `ThreadManager::createThread_unlocked`. -/
def createThread (cfg : Config) (clock : ℕ → ℕ) (s : Sim) (app : ℕ) : Except Fault Sim := do
  let t := s.numThreads
  let s := { s with numThreads := t + 1, appId := Function.update s.appId t app }
  let (s, core) ← threadCreate cfg clock (s.setStatus t .initializing) t
  match core with
  | some c => do
    let s ← setCore s t (some c)
    .ok (s.setState c .initializing)
  | none => .ok s

/-- `__threadStart` grows `m_threads_runnable` by 16 entries, once. -/
def growRunnable (s : Sim) (t : ℕ) : Sim :=
  if s.runnable.size ≤ t then { s with runnable := s.runnable.resize (s.runnable.size + 16) false } else s

/-- `SchedulerDynamic::__threadStart`. -/
def hookThreadStart (cfg : Config) (time : ℕ) (s : Sim) (t : ℕ) : Except Fault Sim :=
  let s := growRunnable s t
  if t < s.runnable.size then
    scheduleIfFree cfg (fun s core => reschedule cfg s time core) (s.setRunnable t true) t
  else .error .bounds

/-- `ThreadManager::onThreadStart`. -/
def onThreadStart (cfg : Config) (time : ℕ) (s : Sim) (t : ℕ) : Except Fault Sim :=
  if t < s.numThreads then do
    let s ← hookThreadStart cfg time (s.setStatus t .running) t
    match s.threadCore t with
    | some core => .ok ((s.setState core .running).setStatus t .running)
    | none => .ok (s.setStalled t .unscheduled)
  else .error .noThread

/-- `SchedulerPinnedBase::threadStall`, and the first lines of `SchedulerPinnedBase::threadExit`:
a thread that cannot run any more gives up its core. -/
def leaveCore (cfg : Config) (time : ℕ) (s : Sim) (t : ℕ) : Except Fault Sim :=
  if t < s.info.size then
    match (s.info.get t).coreRunning with
    | some core => reschedule cfg s time core
    | none => .ok s
  else .error .bounds

/-- When a thread on the big cores stalls or exits, `SchedulerBigSmall` promotes another one. -/
def replaceBigThread (cfg : Config) (clock : ℕ → ℕ) (s : Sim) (t : ℕ) : Except Fault Sim :=
  if cfg.policy = .bigSmall ∧ s.threadIsBig t then pickBigThread cfg clock s else .ok s

/-- `SchedulerBigSmall` sends a stalled thread back to the small cores. -/
def demote (cfg : Config) (clock : ℕ → ℕ) (big : Bool) (s : Sim) (t : ℕ) : Except Fault Sim :=
  if cfg.policy = .bigSmall ∧ big then moveToSmall cfg clock s t else .ok s

/-- `threadStall` of the scheduler in use. -/
def threadStall (cfg : Config) (clock : ℕ → ℕ) (time : ℕ) (s : Sim) (t : ℕ) : Except Fault Sim := do
  let big := s.threadIsBig t
  let s ← replaceBigThread cfg clock s t
  let s ← demote cfg clock big s t
  leaveCore cfg time s t

/-- `ThreadManager::stallThread_async` with the hook `SchedulerDynamic::__threadStall`, which
ignores threads that are stalled for want of a core. -/
def stallThread (cfg : Config) (clock : ℕ → ℕ) (time : ℕ) (s : Sim) (t : ℕ) (reason : StallType) :
    Except Fault Sim :=
  if t < s.numThreads then
    if reason = .unscheduled then .ok (s.setStalled t reason)
    else if t < s.runnable.size then threadStall cfg clock time ((s.setStalled t reason).setRunnable t false) t
    else .error .bounds
  else .error .noThread

/-- `ThreadManager::resumeThread` from outside the scheduler. -/
def wakeThread (cfg : Config) (time : ℕ) (s : Sim) (t : ℕ) : Except Fault Sim :=
  if t < s.numThreads then resumeThread cfg (fun s core => reschedule cfg s time core) s t
  else .error .noThread

/-- Insert the lines of a mapping file. `std::map::insert` keeps an entry that is already there. -/
def insertLines (offset : ℕ) (map : ℕ → ℕ → Option ℕ) (file : List (ℕ × ℕ × ℕ)) : ℕ → ℕ → Option ℕ :=
  file.foldl (fun map line =>
    let app := line.2.1 + offset
    if map app line.2.2 = none then
      Function.update map app (Function.update (map app) line.2.2 (some line.1))
    else map) map

/-- A thread that waits for its hyper-period: its application, its rank in it and its number. -/
structure Waiting where
  app : ℕ
  rank : ℕ
  thread : ℕ
  deriving DecidableEq, Repr

/-- The threads that are placed when a hyper-period begins, in the order of the two loops of
`threadExit`, which do not change `threads_of_app`. -/
def waitingThreads (cfg : Config) (hyperPeriod : ℕ) (s : Sim) : List Waiting :=
  (List.range' (hyperPeriod * cfg.numAppPerHyperPeriod) cfg.numAppPerHyperPeriod).flatMap fun app =>
    (s.threadsOfApp app).zipIdx.map fun entry => ⟨app, entry.2, entry.1⟩

/-- The core the mapping gives a waiting thread. -/
def coreOf (s : Sim) (w : Waiting) : ℕ := mappedCore s w.app w.rank

/-- A waiting thread is pinned to its core and recorded as running there, whatever was recorded
before. -/
def announced (cfg : Config) (time : ℕ) (s : Sim) (w : Waiting) : Sim :=
  let info := s.info.get w.thread
  { s with
    coreThreadMap := (touchMap s w.app w.rank).coreThreadMap
    info := s.info.set w.thread
      { (info.setAffinitySingle (coreOf s w)).scheduledIn (coreOf s w) time with explicitAffinity := true }
    coreThread := Function.update s.coreThread (coreOf s w) (some w.thread)
    quantumLeft := Function.update s.quantumLeft (coreOf s w) cfg.quantum }

/-- Put one waiting thread on the core the mapping gives it. -/
def placeThread (cfg : Config) (time : ℕ) (s : Sim) (w : Waiting) : Except Fault Sim :=
  if w.thread < s.info.size then
    if coreOf s w < cfg.numCores then do
      let a ← moveThread (resumeThread cfg fun s core => reschedule cfg s time core) (announced cfg time s w)
        w.thread (some (coreOf s w))
      .ok (if cfg.modifiedCode then pushOnCore a (coreOf s w) w.thread else a)
    else .error .index
  else .error .bounds

/-- The last thread of a hyper-period has exited and there is a further hyper-period. -/
def hyperPeriodEnds (cfg : Config) (s : Sim) : Bool :=
  s.numThreadsExited = cfg.numThreadsPerHyperPeriod &&
    s.hyperPeriodNumber + 1 < cfg.numApps / cfg.numAppPerHyperPeriod

/-- The change of hyper-period: read the next mapping and place the waiting threads. -/
def nextHyperPeriod (cfg : Config) (time : ℕ) (s : Sim) (file : List (ℕ × ℕ × ℕ)) : Except Fault Sim :=
  let next := s.hyperPeriodNumber + 1
  (waitingThreads cfg next s).foldlM (placeThread cfg time)
    { s with
      numThreadsExited := 0
      hyperPeriodNumber := next
      coreThreadMap := insertLines (next * cfg.numAppPerHyperPeriod) s.coreThreadMap file
      threadsOnCore := if cfg.modifiedCode then fun _ => [] else s.threadsOnCore }

/-- With `PERIODIC_WORKLOAD`, count the exit and look for the end of the hyper-period. -/
def countExit (cfg : Config) (time : ℕ) (s : Sim) (file : List (ℕ × ℕ × ℕ)) : Except Fault Sim :=
  if cfg.periodicWorkload then
    let s := { s with numThreadsExited := s.numThreadsExited + 1 }
    if hyperPeriodEnds cfg s then nextHyperPeriod cfg time s file else .ok s
  else .ok s

/-- `threadExit` of the scheduler in use. -/
def threadExit (cfg : Config) (clock : ℕ → ℕ) (time : ℕ) (s : Sim) (t : ℕ) (file : List (ℕ × ℕ × ℕ)) :
    Except Fault Sim := do
  let s ← replaceBigThread cfg clock s t
  let s ← leaveCore cfg time s t
  countExit cfg time s file

/-- `ThreadManager::onThreadExit` up to the call of the scheduler, for a thread that runs on `core`:
the waiting threads are woken, the thread lets go of its core and is no longer runnable. -/
def beginExit (cfg : Config) (time : ℕ) (s : Sim) (t core : ℕ) (wake : List ℕ) : Except Fault Sim := do
  let s ← wake.foldlM (wakeThread cfg time) (s.setStatus t .idle)
  let s ← setCore (s.setState core .idle) t none
  if t < s.runnable.size then .ok (s.setRunnable t false) else .error .bounds

/-- `ThreadManager::onThreadExit`. The core is looked up before the waiting threads are woken. -/
def onThreadExit (cfg : Config) (clock : ℕ → ℕ) (time : ℕ) (s : Sim) (t : ℕ) (wake : List ℕ)
    (file : List (ℕ × ℕ × ℕ)) : Except Fault Sim :=
  if t < s.numThreads then
    match s.threadCore t with
    | none => .error .notRunning
    | some core =>
      if s.status t = .running then do
        let s ← beginExit cfg time s t core wake
        threadExit cfg clock time s t file
      else .error .notRunning
  else .error .noThread

/-- `changeMapping` for one thread of a core that is moved. -/
def migrateThread (cfg : Config) (clock : ℕ → ℕ) (dest : ℕ) (s : Sim) (t : ℕ) : Except Fault Sim :=
  if dest < cfg.numCores then
    if t < s.info.size then
      let s := s.modifyInfo t fun i => { i.setAffinitySingle dest with explicitAffinity := true }
      if s.numThreads ≤ t then .ok s else applyAffinity cfg clock s t
    else .error .bounds
  else .error .index

/-- `changeMapping` for one line of the mapping file. The moved threads are collected apart, so
that a later line about the core they go to does not move them again. -/
def migrateCore (cfg : Config) (clock : ℕ → ℕ) (acc : Sim × (ℕ → List ℕ)) (move : ℕ × ℕ) :
    Except Fault (Sim × (ℕ → List ℕ)) := do
  let threads := acc.1.threadsOnCore move.1
  if move.1 < cfg.numCores then
    let s ← threads.foldlM (migrateThread cfg clock move.2) acc.1
    .ok ({ s with threadsOnCore := Function.update s.threadsOnCore move.1 [] },
      Function.update acc.2 move.2 (acc.2 move.2 ++ threads))
  else .error .index

/-- `SchedulerPinnedBase::changeMapping`; no moves stands for a file whose flag is zero. -/
def changeMapping (cfg : Config) (clock : ℕ → ℕ) (s : Sim) (moves : Option (List (ℕ × ℕ))) :
    Except Fault Sim :=
  match moves with
  | none => .ok s
  | some moves => do
    let (s, moved) ← moves.foldlM (migrateCore cfg clock) (s, fun _ => [])
    .ok { s with threadsOnCore := fun c => s.threadsOnCore c ++ moved c }

/-- `SubsecondTime::MaxTime()`. -/
def maxTime : ℕ := 2 ^ 64 - 1

/-- The product of `setFrequency` in 64 bits. -/
def freqInHz (mhz : ℕ) : ℕ := 1000000 * mhz % 2 ^ 64

/-- `MagicServer::setFrequency`. The number of the core is used as the number of a thread. -/
def setFrequency (cfg : Config) (clock : ℕ → ℕ) (s : Sim) (core mhz : ℕ) : Except Fault Sim :=
  if cfg.numCores ≤ core then .ok s
  else if 0 < freqInHz mhz then .ok s
  else do
    let s ← stallThread cfg clock maxTime s core .broken
    .ok (s.setState core .broken)

/-- Reading a number of the DVFS file into a `UInt64`: a minus sign negates modulo `2^64`. -/
def readUInt64 (value : ℤ) : ℕ := (value % 2 ^ 64).toNat

/-- `SchedulerPinnedBase::updateDVFS`. -/
def updateDVFS (cfg : Config) (clock : ℕ → ℕ) (s : Sim) (dvfs : ℕ → ℤ) : Except Fault Sim :=
  (List.range cfg.numCores).foldlM
    (fun s core => setFrequency cfg clock s core (readUInt64 (dvfs core))) s

/-- `periodic` intervenes: `runtime_intervention` is on and the interval has passed. -/
def intervenes (cfg : Config) (s : Sim) (time : ℕ) : Bool :=
  cfg.modifiedCode && cfg.runtimeIntervention && s.lastPeriodicInterval + cfg.interval ≤ time

/-- One round of `periodic`: a core whose quantum is over, or that is empty, is rescheduled. -/
def periodicCore (cfg : Config) (time delta : ℕ) (s : Sim) (core : ℕ) : Except Fault Sim :=
  if s.quantumLeft core < delta ∨ s.coreThread core = none then reschedule cfg s time core
  else .ok (s.setQuantum core (s.quantumLeft core - delta))

/-- The intervention of `periodic`: apply the new mapping and the new frequencies. -/
def intervene (cfg : Config) (clock : ℕ → ℕ) (time : ℕ) (s : Sim) (moves : Option (List (ℕ × ℕ)))
    (dvfs : ℕ → ℤ) : Except Fault Sim :=
  if intervenes cfg s time then do
    let s ← changeMapping cfg clock s moves
    let s ← updateDVFS cfg clock s dvfs
    .ok { s with lastPeriodicInterval := time }
  else .ok s

/-- `SchedulerPinnedBase::periodic`. -/
def periodicBase (cfg : Config) (clock : ℕ → ℕ) (time : ℕ) (s : Sim) (moves : Option (List (ℕ × ℕ)))
    (dvfs : ℕ → ℤ) : Except Fault Sim := do
  let s ← intervene cfg clock time s moves dvfs
  let s ← (List.range cfg.numCores).foldlM (periodicCore cfg time (time - s.lastPeriodic)) s
  .ok { s with lastPeriodic := time }

/-- The reshuffle of `SchedulerBigSmall::periodic`: all threads go back to the small cores, then
as many are promoted as there are big cores. -/
def reshuffle (cfg : Config) (clock : ℕ → ℕ) (time : ℕ) (s : Sim) : Except Fault Sim :=
  if cfg.policy = .bigSmall ∧ s.lastReshuffle + cfg.quantum < time then do
    let s ← (List.range s.numThreads).foldlM
      (fun s t => if s.threadIsBig t then moveToSmall cfg clock s t else .ok s) s
    let s ← (List.range (min (coresOf cfg true).length s.numThreads)).foldlM
      (fun s _ => pickBigThread cfg clock s) s
    .ok { s with lastReshuffle := time }
  else .ok s

/-- `periodic` of the scheduler in use. -/
def periodic (cfg : Config) (clock : ℕ → ℕ) (time : ℕ) (s : Sim) (moves : Option (List (ℕ × ℕ)))
    (dvfs : ℕ → ℤ) : Except Fault Sim := do
  let s ← reshuffle cfg clock time s
  periodicBase cfg clock time s moves dvfs

/-- The handler of each event. -/
def step (cfg : Config) (s : Sim) (call : Call) : Except Fault Sim :=
  match call.event with
  | .create app => createThread cfg call.clock s app
  | .start t => onThreadStart cfg call.time s t
  | .stall t reason => stallThread cfg call.clock call.time s t reason
  | .resume t => wakeThread cfg call.time s t
  | .exit t wake file => onThreadExit cfg call.clock call.time s t wake file
  | .yield t => if t < s.numThreads then threadYield cfg call.clock s t else .error .noThread
  | .setAffinity calling t mask => threadSetAffinity cfg call.clock s calling t mask
  | .periodic moves dvfs => periodic cfg call.clock call.time s moves dvfs
  | .setFrequency core mhz => setFrequency cfg call.clock s core mhz

/-- The simulator as a machine over its events. -/
def machine (cfg : Config) : Machine Sim Call Fault := ⟨step cfg⟩

end LifeSim.Sched
