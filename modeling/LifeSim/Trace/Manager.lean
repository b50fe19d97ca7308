import Mathlib
import LifeSim.Lib.Machine

/-!
# The trace front-end's bookkeeping of threads and applications

`trace_manager.cc` with the end of `trace_thread.cc`. The manager counts the threads of an application that have not
been stopped, the completed runs of each application, and the applications without a completed run. A thread is counted
out once, by its own end or by another thread that handles `exit_group` in the same application.

The manager's lock makes `newThread` and `signalDone` steps. `endApplication` walks over the threads without it, so its
loop is taken apart: a thread is asked to stop in one step and counted out in another. A thread reads its own `m_stop`
before it waits for the lock, which is again a step of its own. The loop holds an iterator of `m_threads`, which a
`push_back` of `newThread` meanwhile may invalidate: to go on with it is a fault.
-/

namespace LifeSim.Trace

open LifeSim.Lib

/-- Where a trace thread is. -/
inductive Phase
  /-- It reads its trace. -/
  | running
  /-- In the loop of `endApplication`, at a position in a vector that had this size when the loop began. The flag is set
  between `stop` and `signalDone`. -/
  | ending (position : ℕ) (asked : Bool) (size : ℕ)
  /-- At the end of `run`, with the value of `m_stop` it has read. -/
  | leaving (aborted : Bool)
  | exited
  deriving DecidableEq, Repr

/-- `TraceThread`. -/
structure TraceThread where
  app : ℕ
  /-- `m_stop`. -/
  stop : Bool
  /-- `m_stopped`. -/
  stopped : Bool
  phase : Phase
  deriving DecidableEq, Repr

/-- `app_info_t`, with the number of runs that were started. -/
structure AppInfo where
  threadCount : ℕ
  numThreads : ℕ
  numRuns : ℕ
  /-- History: how often a first thread was made. -/
  runsStarted : ℕ
  deriving DecidableEq, Repr, Inhabited

/-- The configuration under `traceinput`. -/
structure Config where
  stopWithFirstApp : Bool
  appRestart : Bool
  deriving DecidableEq, Repr

/-- `TraceManager`. The size of `apps` is `m_num_apps`. -/
structure Manager where
  threads : List TraceThread
  apps : List AppInfo
  numAppsNonfinish : ℕ
  numThreadsRunning : ℕ
  /-- `stop` has been called. -/
  stopCalled : Bool
  deriving DecidableEq, Repr

/-- The thread does not belong to an application's stopped threads. -/
def TraceThread.counted (app : ℕ) (th : TraceThread) : Bool := th.app == app && !th.stopped

namespace Manager

/-- `m_app_info[app_id]`. -/
def info (s : Manager) (app : ℕ) : AppInfo := s.apps.getD app default

/-- `newThread`. -/
def newThread (app : ℕ) (first : Bool) (s : Manager) : Manager :=
  { s with
    apps := s.apps.modify app fun i =>
      if first then { i with numThreads := 1, threadCount := 1, runsStarted := i.runsStarted + 1 }
      else { i with numThreads := i.numThreads + 1, threadCount := i.threadCount + 1 }
    numThreadsRunning := s.numThreadsRunning + 1
    threads := s.threads ++ [⟨app, false, false, .running⟩] }

/-- `createApplication`. -/
def createApplication (s : Manager) : Manager :=
  newThread s.apps.length true
    { s with apps := s.apps ++ [⟨1, 1, 0, 0⟩], numAppsNonfinish := s.numAppsNonfinish + 1 }

/-- `TraceThread::stop`. -/
def askStop (u : ℕ) (s : Manager) : Manager :=
  { s with threads := s.threads.modify u fun th => { th with stop := true } }

/-- `TraceManager::stop`. -/
def stop (s : Manager) : Manager :=
  { s with threads := s.threads.map fun th => { th with stop := true }, stopCalled := true }

/-- The part of `signalDone` that counts a run. -/
def completeRun (app : ℕ) (s : Manager) : Manager :=
  let s := { s with apps := s.apps.modify app fun i => { i with numRuns := i.numRuns + 1 } }
  if (s.info app).numRuns = 1 then { s with numAppsNonfinish := s.numAppsNonfinish - 1 } else s

/-- The part of `signalDone` for the last thread of a run. -/
def endRun (cfg : Config) (app : ℕ) (s : Manager) : Manager :=
  let s := s.completeRun app
  if cfg.stopWithFirstApp then s.stop
  else if s.numAppsNonfinish = 0 then s.stop
  else if cfg.appRestart then s.newThread app true
  else s

/-- The part of `signalDone` that counts a thread out. -/
def countOut (u app : ℕ) (s : Manager) : Manager :=
  { s with
    threads := s.threads.modify u fun th => { th with stopped := true }
    apps := s.apps.modify app fun i => { i with numThreads := i.numThreads - 1 } }

/-- `signalDone`. -/
def signalDone (cfg : Config) (u : ℕ) (aborted : Bool) (s : Manager) : Manager :=
  match s.threads[u]? with
  | none => s
  | some th =>
    if th.stopped then s
    else
      let s := s.countOut u th.app
      let s := if aborted = false ∧ (s.info th.app).numThreads = 0 then s.endRun cfg th.app else s
      { s with numThreadsRunning := s.numThreadsRunning - 1 }

/-- The thread goes on to another place. -/
def setPhase (t : ℕ) (p : Phase) (s : Manager) : Manager :=
  { s with threads := s.threads.modify t fun th => { th with phase := p } }

/-- The next half round of the loop in `endApplication`, of a thread of this application. -/
def endNext (cfg : Config) (t app i : ℕ) (asked : Bool) (size : ℕ) (s : Manager) : Manager :=
  if asked then (s.signalDone cfg i true).setPhase t (.ending (i + 1) false size)
  else match s.threads[i]? with
    | none => s.setPhase t .running
    | some other =>
      -- every thread of the application except ourselves
      if other.app = app ∧ i ≠ t then (s.askStop i).setPhase t (.ending i true size)
      else s.setPhase t (.ending (i + 1) false size)

end Manager

/-- The constructor: nothing has been started. -/
def constructed (numApps : ℕ) : Manager where
  threads := []
  apps := List.replicate numApps ⟨1, 1, 0, 0⟩
  numAppsNonfinish := numApps
  numThreadsRunning := 0
  stopCalled := false

/-- `init`: the first thread of each application. -/
def init (numApps : ℕ) : Manager :=
  (List.range numApps).foldl (fun s app => s.newThread app true) (constructed numApps)

/-- What a thread does next. -/
inductive Action
  /-- `handleNewThreadFunc`. -/
  | createThread
  /-- `handleForkFunc`. -/
  | createApplication
  /-- `SYS_exit_group`. -/
  | exitGroup
  /-- The next half round of the loop in `endApplication`, or its end. -/
  | next
  /-- The loop of `run` ends and `m_stop` is read. -/
  | leave
  /-- `signalDone` at the end of `run`. -/
  | done
  deriving DecidableEq, Repr

/-- A thread takes a step. -/
structure Event where
  thread : ℕ
  action : Action
  deriving DecidableEq, Repr

/-- Why a step is not taken. -/
inductive Fault
  | noThread
  /-- The thread is somewhere else. -/
  | notEnabled
  /-- The iterator is from before a `push_back`. -/
  | iterator
  deriving DecidableEq, Repr

/-- One step of one thread. -/
def step (cfg : Config) (s : Manager) (e : Event) : Except Fault Manager :=
  match s.threads[e.thread]? with
  | none => .error .noThread
  | some th =>
    match th.phase, e.action with
    | .running, .createThread => .ok (s.newThread th.app false)
    | .running, .createApplication => .ok s.createApplication
    | .running, .exitGroup => .ok (s.setPhase e.thread (.ending 0 false s.threads.length))
    | .ending i asked size, .next => if s.threads.length = size then .ok (s.endNext cfg e.thread th.app i asked size)
      else .error .iterator
    | .running, .leave => .ok (s.setPhase e.thread (.leaving th.stop))
    | .leaving aborted, .done => .ok ((s.signalDone cfg e.thread aborted).setPhase e.thread .exited)
    | _, _ => .error .notEnabled

/-- The front-end as an event machine. -/
def frontEnd (cfg : Config) : Machine Manager Event Fault := ⟨step cfg⟩

end LifeSim.Trace
