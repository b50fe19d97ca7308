import Mathlib.Data.Int.Notation
import LifeSim.Sched.State

/-!
# Moving threads and choosing the next one

`Thread::setCore`, `ThreadManager::moveThread` and `SchedulerPinnedBase::reschedule`, which
call each other: moving an unscheduled thread to a core resumes it, the resume hook calls
`threadResume` of the scheduler while the move is half done, and that may reschedule
another core. The recursion carries a bound on its depth; a state with enough of it never
runs out, because every nested call fills a free core.
-/

namespace LifeSim.Sched

open LifeSim.Lib

/-- `Thread::setCore` first lets go of the old core. -/
def letGo (s : Sim) (t : ℕ) : Sim :=
  match s.threadCore t with
  | some c => { s with coreOwner := Function.update s.coreOwner c none }
  | none => s

/-- `Thread::setCore`: leave the old core, then enter the new one, which must be empty. -/
def setCore (s : Sim) (t : ℕ) (core : Option ℕ) : Except Fault Sim :=
  let s := { letGo s t with threadCore := Function.update (letGo s t).threadCore t core }
  match core with
  | none => .ok s
  | some c =>
    if s.coreOwner c = none then .ok { s with coreOwner := Function.update s.coreOwner c (some t) }
    else .error .coreBusy

/-- `findFreeCoreForThread`: the first core the thread may run on that runs no thread. -/
def findFreeCoreForThread (cfg : Config) (s : Sim) (t : ℕ) : Option ℕ :=
  (List.range cfg.numCores).find? fun c => (s.info.get t).affinity c && (s.coreThread c).isNone

/-- A thread may run on a core when it has affinity for it, is not stalled and does not run elsewhere. -/
def eligible (s : Sim) (core t : ℕ) : Bool :=
  (s.info.get t).affinity core && s.runnable.get t &&
    ((s.info.get t).coreRunning = none || (s.info.get t).coreRunning = some core)

/-- How long a thread has been waiting, or minus how long it has been running, in picoseconds.
The subtraction is one of 64-bit words read back as a signed number. -/
def score (s : Sim) (time t : ℕ) : ℤ :=
  let ps (fs : ℕ) : ℤ := ((fs / 1000 : ℕ) : ℤ)
  if (s.info.get t).isRunning then Int.bmod (ps (s.info.get t).lastScheduledIn - ps time) (2 ^ 64)
  else Int.bmod (ps time - ps (s.info.get t).lastScheduledOut) (2 ^ 64)

/-- One round of the search: a thread replaces the best one so far when its score is higher. -/
def consider (s : Sim) (time core : ℕ) (best : Option ℕ × ℤ) (t : ℕ) : Option ℕ × ℤ :=
  if eligible s core t ∧ best.2 < score s time t then (some t, score s time t) else best

/-- The loop of `reschedule` over all of `m_threads_runnable`, starting from `INT64_MIN`. -/
def pickThread (s : Sim) (time core : ℕ) : Option ℕ :=
  ((List.range s.runnable.size).foldl (consider s time core) (none, -2 ^ 63)).1

/-- The core a thread leaves becomes idle. -/
def vacate (s : Sim) (t : ℕ) : Sim :=
  match s.threadCore t with
  | some c => s.setState c .idle
  | none => s

/-- Unless the thread was stalled for another reason than want of a core, wake it up. -/
def wakeUnscheduled (resume : Sim → ℕ → Except Fault Sim) (s : Sim) (t : ℕ) : Except Fault Sim :=
  if s.threadCore t = none ∧ s.status t = .stalled ∧ s.stalledReason t = .unscheduled then resume s t
  else .ok s

/-- The thread enters the core; a stalled thread leaves the core idle. -/
def enterCore (s : Sim) (t core : ℕ) : Except Fault Sim := do
  let s ← setCore s t (some core)
  .ok (if s.status t = .stalled then s else s.setState core .running)

/-- `ThreadManager::moveThread`; `resume` is `resumeThread` at the time of the move. -/
def moveThread (resume : Sim → ℕ → Except Fault Sim) (s : Sim) (t : ℕ) (core : Option ℕ) :
    Except Fault Sim :=
  match core with
  | none => setCore (vacate s t) t none
  | some c => do
    let s ← wakeUnscheduled resume (vacate s t) t
    enterCore s t c

/-- `threadResume` and `threadStart`: if a core of the thread is idle, reschedule that core. -/
def scheduleIfFree (cfg : Config) (resched : Sim → ℕ → Except Fault Sim) (s : Sim) (t : ℕ) :
    Except Fault Sim :=
  if t < s.info.size then
    match findFreeCoreForThread cfg s t with
    | some core => resched s core
    | none => .ok s
  else .error .bounds

/-- `ThreadManager::resumeThread_async` with its hook `SchedulerDynamic::__threadResume`. -/
def resumeThread (cfg : Config) (resched : Sim → ℕ → Except Fault Sim) (s : Sim) (t : ℕ) :
    Except Fault Sim :=
  let s := s.setStatus t .running
  if t < s.runnable.size then scheduleIfFree cfg resched (s.setRunnable t true) t
  else .error .bounds

/-- Take the thread that runs on the core, if any, off it. The extra penalty keeps it from being
picked again for a later core of the same `periodic` call. -/
def unschedule (s : Sim) (time core : ℕ) : Option ℕ → Except Fault Sim
  | none => .ok s
  | some t =>
    moveThread (fun s _ => .ok s) (s.modifyInfo t (ThreadInfo.scheduledOut (time + 1000 * core))) t none

/-- If the thread was running somewhere else, let that core know. -/
def forgetOldCore (s : Sim) (t : ℕ) : Sim :=
  match (s.info.get t).coreRunning with
  | some old => s.setCoreThread old none
  | none => s

/-- Put a thread, if any, on a core. The core is marked before the move, so that the resume hook
of the thread does not see an empty core. -/
def schedule (resume : Sim → ℕ → Except Fault Sim) (s : Sim) (time core : ℕ) : Option ℕ → Except Fault Sim
  | none => .ok s
  | some t =>
    moveThread resume ((forgetOldCore s t).modifyInfo t (ThreadInfo.scheduledIn core time)) t (some core)

/-- Replace the thread that runs on a core by another one, or by none. -/
def switchThread (resume : Sim → ℕ → Except Fault Sim) (s : Sim) (time core : ℕ) (current new : Option ℕ) :
    Except Fault Sim := do
  let s ← unschedule s time core current
  schedule resume (s.setCoreThread core new) time core new

/-- `SchedulerPinnedBase::reschedule`. The search reads `m_thread_info` at every index of
`m_threads_runnable`. -/
def rescheduleBody (cfg : Config) (resume : Sim → ℕ → Except Fault Sim) (s : Sim) (time core : ℕ) :
    Except Fault Sim :=
  let current := s.coreThread core
  if current.any fun t => s.status t = .initializing then .ok s
  else if s.info.size < s.runnable.size then .error .bounds
  else
    let new := pickThread s time core
    if current = new then .ok (s.setQuantum core cfg.quantum)
    else do
      let s ← switchThread resume s time core current new
      .ok (s.setQuantum core cfg.quantum)

/-- `reschedule` with a bound on the depth of the recursion through the resume hook. -/
def rescheduleDepth (cfg : Config) (time : ℕ) : ℕ → Sim → ℕ → Except Fault Sim
  | 0, _, _ => .error .recursion
  | depth + 1, s, core =>
    rescheduleBody cfg (resumeThread cfg (rescheduleDepth cfg time depth)) s time core

/-- `reschedule` with enough depth for every state. -/
def reschedule (cfg : Config) (s : Sim) (time core : ℕ) : Except Fault Sim :=
  rescheduleDepth cfg time (cfg.numCores + 1) s core

end LifeSim.Sched
