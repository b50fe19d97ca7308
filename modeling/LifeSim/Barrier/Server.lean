import Mathlib
import LifeSim.Lib.Machine
import LifeSim.Lib.Checked

/-!
# The barrier that keeps the clocks of the cores together

`BarrierSyncServer`. A core that has simulated up to the next barrier time waits; when every
running core waits, the barrier time moves on by the interval until some of the waiting
cores are behind it again, and these are released.

The loop of `barrierRelease` calls the periodic hooks, and the callbacks may enter the server
again. A call of `barrierRelease` that is in its hooks is therefore part of the state, and the
callbacks are ordinary events; `hooksDone` carries the loop through the rest of a round.
All entry points hold the lock of the thread manager, so that no other thread comes in between.
Which cores run is decided elsewhere: `startCore` and `stopCore` stand for the changes.

What a call remembers about its beginning, and the clock a core has last shown, are history:
no handler reads them. Whether the caller of `barrierRelease` goes on at once is not modelled
beyond its core being released.
-/

namespace LifeSim.Barrier

open LifeSim.Lib

/-- The configuration of the simulated machine. -/
structure Config where
  /-- `getApplicationCores()`. -/
  numCores : ℕ
  /-- `m_barrier_interval`, which is positive. -/
  interval : ℕ
  interval_pos : 0 < interval
  /-- `m_core_group`: the master of a hardware context that is not a master itself. -/
  group : ℕ → Option ℕ
  /-- `getNumHostCores()`. -/
  hostCores : ℕ
  /-- `std::random_shuffle`. -/
  shuffle : List ℕ → List ℕ
  shuffle_perm : ∀ l, (shuffle l).Perm l

/-- Why `barrierRelease` was called. -/
inductive Cause
  /-- The barrier was reached in detailed mode. -/
  | reached
  /-- The barrier was reached in fast-forward mode. -/
  | forward
  /-- `advance`, which continues until a thread wakes up. -/
  | advance
  deriving DecidableEq, Repr

/-- A call of `barrierRelease` that is in its hooks. -/
structure Release where
  /-- The calling thread, none for `INVALID_THREAD_ID`. -/
  caller : Option ℕ
  cause : Cause
  /-- History: the barrier time, the cores that waited and the latest of their clocks at the start. -/
  start : ℕ
  waiting : ℕ → Bool
  latest : ℕ
  /-- History: the rounds of the loop so far. -/
  rounds : ℕ

/-- Why an event is not carried out. -/
inductive Fault
  /-- A core number is outside the tables. -/
  | index
  /-- Another thread holds the lock. -/
  | locked
  /-- The first assertion of `synchronize`. -/
  | notRunning
  /-- The second assertion of `synchronize`. -/
  | alreadyInBarrier
  /-- The assertion of `barrierRelease`: some threads have not restarted. -/
  | notRestarted
  /-- The assertion of `advance`: no threads running and no timeout. -/
  | deadlocked
  /-- There is no call in its hooks. -/
  | noRelease
  deriving DecidableEq, Repr

/-- The barrier server. -/
structure Server where
  /-- `m_next_barrier_time`. -/
  next : ℕ
  /-- `m_global_time`. -/
  globalTime : ℕ
  /-- `m_local_clock_list`. -/
  localClock : ℕ → ℕ
  /-- `m_barrier_acquire_list`. -/
  acquire : ℕ → Bool
  /-- `m_core_thread`. -/
  coreThread : ℕ → Option ℕ
  /-- `m_to_release`. -/
  toRelease : List ℕ
  /-- `m_fastforward`. -/
  fastforward : Bool
  /-- `m_disable`. -/
  disable : Bool
  /-- The core is in state `RUNNING` and its thread runs. -/
  running : ℕ → Bool
  /-- The calls of `barrierRelease` that are in their hooks, the innermost first. -/
  releases : List Release
  /-- History: how far a core has come. -/
  clock : ℕ → ℕ

/-- The server after construction. -/
def initial (cfg : Config) : Server where
  next := cfg.interval
  globalTime := 0
  localClock := fun _ => 0
  acquire := fun _ => false
  coreThread := fun _ => none
  toRelease := []
  fastforward := false
  disable := false
  running := fun _ => false
  releases := []
  clock := fun _ => 0

/-- The events. -/
inductive Event
  /-- `synchronize`; `ready` is the condition of its first assertion. -/
  | synchronize (core thread time : ℕ) (ready : Bool)
  | threadExit (thread : ℕ)
  | threadStall (thread : ℕ)
  | threadMigrate (thread : ℕ)
  | advance
  | setDisable (disable : Bool)
  /-- `setFastForward`; no time stands for `MaxTime()`. -/
  | setFastForward (fastforward : Bool) (nextBarrierTime : Option ℕ)
  /-- `release`. -/
  | release
  /-- A thread begins to run on a core at a time. -/
  | startCore (core time : ℕ)
  | stopCore (core : ℕ)
  /-- The periodic hooks of the innermost call are over. `otherRunning` says that a thread runs that is on
  no running core, `timeout` that some thread waits with a timeout. -/
  | hooksDone (otherRunning timeout : Bool)

/-- The master of a hardware context. -/
def master (cfg : Config) (core : ℕ) : ℕ := (cfg.group core).getD core

/-- The entry of the tables a core uses: its own in fast-forward mode, that of its master otherwise. -/
def masterCore (cfg : Config) (s : Server) (core : ℕ) : ℕ :=
  if s.fastforward then core else master cfg core

/-- `isCoreRunning`: a core or, in detailed mode, one of its siblings. -/
def isCoreRunning (cfg : Config) (s : Server) (core : ℕ) : Bool :=
  s.running core ||
    (!s.fastforward && (List.range cfg.numCores).any fun c => cfg.group c = some core && s.running c)

/-- A core that keeps the barrier from being reached. -/
def holdsUp (cfg : Config) (s : Server) (core : ℕ) : Bool :=
  if s.fastforward then !s.acquire core && isCoreRunning cfg s core
  else cfg.group core = none && isCoreRunning cfg s core && s.localClock core < s.next

/-- A core that has reached the barrier. -/
def hasReached (cfg : Config) (s : Server) (core : ℕ) : Bool :=
  if s.fastforward then s.acquire core
  else cfg.group core = none && isCoreRunning cfg s core && s.next ≤ s.localClock core

/-- `isBarrierReached`: the loop returns false at the first core that holds it up. -/
def isBarrierReached (cfg : Config) (s : Server) : Bool :=
  ((List.range cfg.numCores).all fun c => !holdsUp cfg s c) && (List.range cfg.numCores).any (hasReached cfg s)

/-- `doRelease`; no number stands for all. Signalling the condition variable is left out. -/
def doRelease (s : Server) (n : Option ℕ) : Server :=
  { s with toRelease := match n with
      | none => []
      | some n => s.toRelease.take (s.toRelease.length - n) }

/-- The latest clock of a waiting core. -/
def latestClock (cfg : Config) (s : Server) : ℕ :=
  (Finset.range cfg.numCores).sup fun c => if s.acquire c then s.localClock c else 0

/-- In fast-forward mode, skip over many timeslots. -/
def skipAhead (cfg : Config) (s : Server) : ℕ :=
  if s.fastforward then
    (List.range cfg.numCores).foldl (fun next c => if next < s.localClock c then s.localClock c else next) s.next
  else s.next

/-- `barrierRelease` up to the hooks of the first round. -/
def barrierRelease (cfg : Config) (s : Server) (caller : Option ℕ) (cause : Cause) : Except Fault Server :=
  if s.toRelease = [] then
    .ok { s with
      next := skipAhead cfg s
      globalTime := skipAhead cfg s
      releases := ⟨caller, cause, skipAhead cfg s, s.acquire, latestClock cfg s, 0⟩ :: s.releases }
  else .error .notRestarted

/-- The reason of a call that is made because the barrier was reached. -/
def reachedCause (s : Server) : Cause := if s.fastforward then .forward else .reached

/-- The part of `synchronize` that enters the barrier. -/
def enterBarrier (cfg : Config) (s : Server) (core thread time : ℕ) : Server :=
  let m := masterCore cfg s core
  { doRelease s (some 1) with
    localClock := Function.update s.localClock m time
    acquire := Function.update s.acquire m true
    coreThread := Function.update s.coreThread m (some thread)
    clock := Function.update s.clock m (max (s.clock m) time) }

/-- `synchronize`. -/
def synchronize (cfg : Config) (s : Server) (core thread time : ℕ) (ready : Bool) : Except Fault Server :=
  let m := masterCore cfg s core
  if s.releases ≠ [] then .error .locked
  else if s.disable then .ok s
  else if cfg.numCores ≤ m then .error .index
  else if !ready then .error .notRunning
  else if s.acquire m then .error .alreadyInBarrier
  else if time < s.next ∧ s.fastforward = false then
    .ok { s with clock := Function.update s.clock m (max (s.clock m) time) }
  else if isBarrierReached cfg (enterBarrier cfg s core thread time) then
    barrierRelease cfg (enterBarrier cfg s core thread time) (some thread) (reachedCause s)
  else .ok (enterBarrier cfg s core thread time)

/-- `releaseThread`: the cores where the thread waits are behind every barrier. -/
def releaseThread (cfg : Config) (s : Server) (thread : ℕ) : Server :=
  { doRelease s (some 1) with
    localClock := fun c =>
      if c < cfg.numCores ∧ s.acquire c = true ∧ s.coreThread c = some thread then 0 else s.localClock c }

/-- `signal`. -/
def signal (cfg : Config) (s : Server) : Except Fault Server :=
  if s.disable then .ok s
  else if isBarrierReached cfg s then barrierRelease cfg s none (reachedCause s)
  else .ok s

/-- `threadExit` and `threadStall`. -/
def threadStops (cfg : Config) (s : Server) (thread : ℕ) : Except Fault Server :=
  signal cfg (releaseThread cfg s thread)

/-- `threadExit`. -/
def threadExit (cfg : Config) (s : Server) (thread : ℕ) : Except Fault Server := threadStops cfg s thread

/-- `threadStall`. -/
def threadStall (cfg : Config) (s : Server) (thread : ℕ) : Except Fault Server := threadStops cfg s thread

/-- `threadMigrate`. -/
def threadMigrate (cfg : Config) (s : Server) (thread : ℕ) : Server := releaseThread cfg s thread

/-- `advance`. -/
def advance (cfg : Config) (s : Server) : Except Fault Server :=
  if s.releases ≠ [] then .error .locked else barrierRelease cfg s none .advance

/-- `abortBarrier`. The clocks stay as they are. -/
def abortBarrier (cfg : Config) (s : Server) : Server :=
  { s with acquire := fun c => if c < cfg.numCores then false else s.acquire c }

/-- `setDisable`. -/
def setDisable (cfg : Config) (s : Server) (disable : Bool) : Server :=
  if disable then abortBarrier cfg { s with disable := disable } else { s with disable := disable }

/-- `setFastForward`. -/
def setFastForward (s : Server) (fastforward : Bool) (nextBarrierTime : Option ℕ) : Server :=
  { s with fastforward := fastforward, next := max s.next (nextBarrierTime.getD 0) }

/-- The core begins to run; a core never goes back in time. -/
def startCore (cfg : Config) (s : Server) (core time : ℕ) : Server :=
  { s with
    running := Function.update s.running core true
    clock := Function.update s.clock (master cfg core) (max (s.clock (master cfg core)) time) }

def stopCore (s : Server) (core : ℕ) : Server :=
  { s with running := Function.update s.running core false }

/-- The cores that a round of `barrierRelease` releases. -/
def behind (cfg : Config) (s : Server) : List ℕ :=
  (List.range cfg.numCores).filter fun c => s.acquire c && s.localClock c < s.next + cfg.interval

/-- The part of a round after the hooks: advance the barrier time and release the cores that are
behind it. If there are none, the hooks of the next round are called. -/
def finishRound (cfg : Config) (s : Server) (call : Release) (outer : List Release) : Server :=
  let next := s.next + cfg.interval
  if behind cfg s = [] then
    { s with next, globalTime := next, releases := { call with rounds := call.rounds + 1 } :: outer }
  else
    let toRelease := s.toRelease ++ (behind cfg s).filter fun c => s.coreThread c ≠ call.caller
    doRelease { s with
      next
      acquire := fun c => if c ∈ behind cfg s then false else s.acquire c
      toRelease := cfg.shuffle toRelease
      releases := outer } (if s.fastforward then none else some cfg.hostCores)

/-- The rest of a round of `barrierRelease`. -/
def hooksDone (cfg : Config) (s : Server) (otherRunning timeout : Bool) : Except Fault Server :=
  match s.releases with
  | [] => .error .noRelease
  | call :: outer =>
    let anyThreadRunning := otherRunning || (List.range cfg.numCores).any s.running
    if call.cause = .advance ∧ anyThreadRunning = true then .ok { s with releases := outer }
    else if call.cause = .advance ∧ timeout = false then .error .deadlocked
    else if s.disable then .ok { s with releases := outer }
    else .ok (finishRound cfg s call outer)

/-- The handler of each event. -/
def step (cfg : Config) (s : Server) : Event → Except Fault Server
  | .synchronize core thread time ready => synchronize cfg s core thread time ready
  | .threadExit thread => threadExit cfg s thread
  | .threadStall thread => threadStall cfg s thread
  | .threadMigrate thread => .ok (threadMigrate cfg s thread)
  | .advance => advance cfg s
  | .setDisable disable => .ok (setDisable cfg s disable)
  | .setFastForward fastforward time => .ok (setFastForward s fastforward time)
  | .release => .ok (abortBarrier cfg s)
  | .startCore core time => .ok (startCore cfg s core time)
  | .stopCore core => .ok (stopCore s core)
  | .hooksDone otherRunning timeout => hooksDone cfg s otherRunning timeout

/-- The server as a machine over its events. -/
def machine (cfg : Config) : Machine Server Event Fault := ⟨step cfg⟩

end LifeSim.Barrier
