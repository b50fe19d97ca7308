import LifeSim.Lib.Machine

/-!
# The simulated mutexes and condition variables

The functions of `sync_server.cc` over explicit state. A mutex is its owner and the queue
of threads waiting for it; a condition variable is a queue of waiters, each with the mutex
it has to get back. The two `unordered_map`s are partial functions, and a lookup creates
the object the first time its address is seen. `stallThread` and `resumeThread` of the
thread manager are modelled by the status they set.

Every push, pop, change of owner, stall and resume is also written to a log, newest entry
first. The log has no influence on the functions: it is what the statements about the
order of events are about.
-/

namespace LifeSim.Sync

open LifeSim.Lib

/-- The stall reasons the sync server uses, out of `ThreadManager::stall_type_t`. -/
inductive StallType
  | mutex
  | cond
  deriving DecidableEq, Repr

/-- `SimMutex`: its owner (`none` is `NO_OWNER`) and its waiting queue, front first. -/
structure SimMutex (T : Type*) where
  owner : Option T
  waiting : List T
  deriving DecidableEq, Repr

/-- `SimCond::CondWaiter`: a waiting thread and the mutex it released. -/
structure CondWaiter (M T : Type*) where
  thread : T
  mutex : M
  deriving DecidableEq, Repr

/-- What the server and the thread manager do, as seen from outside. -/
inductive Event (M C T : Type*)
  /-- A thread became the owner of a free mutex. -/
  | acquire (mux : M) (thread : T)
  /-- The owner gave the mutex up. -/
  | release (mux : M) (thread : T)
  /-- A thread entered the waiting queue of a mutex. -/
  | enqueue (mux : M) (thread : T)
  /-- A thread left the front of the waiting queue of a mutex. -/
  | dequeue (mux : M) (thread : T)
  /-- A thread entered the queue of a condition variable. -/
  | condEnqueue (cond : C) (thread : T) (mux : M)
  /-- A signal or a broadcast took a thread out of the queue of a condition variable. -/
  | condDequeue (cond : C) (thread : T) (by_ : T)
  /-- `ThreadManager::stallThread`. -/
  | stall (thread : T) (reason : StallType) (time : ℕ)
  /-- `ThreadManager::resumeThread`. -/
  | resume (thread : T) (by_ : T) (time : ℕ)
  deriving DecidableEq, Repr

/-- The sync server with the part of the thread manager it uses. -/
structure Server (M C T : Type*) where
  /-- `m_mutexes`; `none` is an address that has not been seen yet. -/
  mutexes : M → Option (SimMutex T)
  /-- `m_conds`, with the waiting queue of each condition variable. -/
  conds : C → Option (List (CondWaiter M T))
  /-- The stall reason of each stalled thread. -/
  stalled : T → Option StallType
  /-- Newest event first. -/
  log : List (Event M C T)
  rescheduleCost : ℕ

variable {M C T : Type*} [DecidableEq M] [DecidableEq C] [DecidableEq T]

/-- The server before any call. -/
def initial (rescheduleCost : ℕ) : Server M C T :=
  { mutexes := fun _ => none, conds := fun _ => none, stalled := fun _ => none, log := [], rescheduleCost }

/-- `SyncServer::getMutex` with `canCreate`: a fresh mutex has no owner and no waiters. -/
def getMutex (s : Server M C T) (mux : M) : SimMutex T :=
  (s.mutexes mux).getD ⟨none, []⟩

/-- `SyncServer::getCond` with `canCreate`. -/
def getCond (s : Server M C T) (cond : C) : List (CondWaiter M T) :=
  (s.conds cond).getD []

/-- Store a mutex back under its address. -/
def setMutex (s : Server M C T) (mux : M) (x : SimMutex T) : Server M C T :=
  { s with mutexes := Function.update s.mutexes mux (some x) }

/-- Store a condition variable back under its address. -/
def setCond (s : Server M C T) (cond : C) (q : List (CondWaiter M T)) : Server M C T :=
  { s with conds := Function.update s.conds cond (some q) }

/-- Append an event to the history. -/
def record (s : Server M C T) (e : Event M C T) : Server M C T := { s with log := e :: s.log }

/-- `ThreadManager::stallThread`: the thread stops until it is resumed. -/
def stallThread (s : Server M C T) (thread : T) (reason : StallType) (time : ℕ) : Server M C T :=
  record { s with stalled := Function.update s.stalled thread (some reason) } (.stall thread reason time)

/-- `ThreadManager::resumeThread`. -/
def resumeThread (s : Server M C T) (thread by_ : T) (time : ℕ) : Server M C T :=
  record { s with stalled := Function.update s.stalled thread none } (.resume thread by_ time)

/-- `SimMutex::isLocked`: owned by someone that is not this thread. -/
def isLocked (x : SimMutex T) (thread : T) : Bool :=
  match x.owner with
  | none => false
  | some owner => owner != thread

/-- `SimMutex::lock`: take a free mutex, else queue up and stall. -/
def lock (s : Server M C T) (mux : M) (thread : T) (time : ℕ) : Server M C T :=
  let x := getMutex s mux
  match x.owner with
  | none => record (setMutex s mux { x with owner := some thread }) (.acquire mux thread)
  | some _ =>
    let s := record (setMutex s mux { x with waiting := x.waiting ++ [thread] }) (.enqueue mux thread)
    stallThread s thread .mutex time

/-- `SimMutex::lock_async`: lock in the name of a stalled thread, waking it if the mutex is free. -/
def lock_async (s : Server M C T) (mux : M) (thread by_ : T) (time : ℕ) : Server M C T × Bool :=
  let x := getMutex s mux
  match x.owner with
  | none =>
    let s := record (setMutex s mux { x with owner := some thread }) (.acquire mux thread)
    (resumeThread s thread by_ time, true)
  | some _ =>
    (record (setMutex s mux { x with waiting := x.waiting ++ [thread] }) (.enqueue mux thread), false)

/-- `SimMutex::unlock`: hand the mutex to the first waiter, if there is one. -/
def unlock (s : Server M C T) (mux : M) (thread : T) (time : ℕ) : Server M C T :=
  let x := getMutex s mux
  match x.waiting with
  | [] => record (setMutex s mux { x with owner := none }) (.release mux thread)
  | waiter :: rest =>
    let s := record s (.release mux thread)
    let s := record (setMutex s mux ⟨some waiter, rest⟩) (.dequeue mux waiter)
    resumeThread (record s (.acquire mux waiter)) waiter thread time

/-- `SimCond::wait`: release the mutex, queue up and stall. -/
def condWait (s : Server M C T) (cond : C) (mux : M) (thread : T) (time : ℕ) : Server M C T :=
  let s := unlock s mux thread time
  let s := record (setCond s cond (getCond s cond ++ [⟨thread, mux⟩])) (.condEnqueue cond thread mux)
  stallThread s thread .cond time

/-- `SimCond::signal`: wake the first waiter, which then locks its mutex. -/
def signal (s : Server M C T) (cond : C) (thread : T) (time : ℕ) : Server M C T :=
  match getCond s cond with
  | [] => s
  | woken :: rest =>
    let s := record (setCond s cond rest) (.condDequeue cond woken.thread thread)
    (lock_async s woken.mutex woken.thread thread time).1

/-- The loop of `SimCond::broadcast` over the waiters that are left. -/
def broadcastLoop (cond : C) (thread : T) (time : ℕ) :
    List (CondWaiter M T) → Server M C T → Server M C T
  | [], s => s
  | woken :: rest, s =>
    let s := record (setCond s cond rest) (.condDequeue cond woken.thread thread)
    broadcastLoop cond thread time rest (lock_async s woken.mutex woken.thread thread time).1

/-- `SimCond::broadcast`: wake the waiters one after the other until none is left. -/
def broadcast (s : Server M C T) (cond : C) (thread : T) (time : ℕ) : Server M C T :=
  broadcastLoop cond thread time (getCond s cond) s

/-- A call of a simulated thread into the sync server. -/
inductive Call (M C T : Type*)
  | mutexLock (thread : T) (mux : M) (tryLock : Bool) (time : ℕ)
  | mutexUnlock (thread : T) (mux : M) (time : ℕ)
  | condWait (thread : T) (cond : C) (mux : M) (time : ℕ)
  | condSignal (thread : T) (cond : C) (time : ℕ)
  | condBroadcast (thread : T) (cond : C) (time : ℕ)
  deriving DecidableEq, Repr

/-- The thread that makes the call. -/
def Call.caller : Call M C T → T
  | .mutexLock t .. | .mutexUnlock t .. | .condWait t .. | .condSignal t .. | .condBroadcast t .. => t

/-- Why a call is not carried out. -/
inductive Fault
  /-- A stalled thread makes no calls. -/
  | callerStalled
  /-- `assert(m_owner == thread_id)` in `SimMutex::unlock`. -/
  | notOwner
  deriving DecidableEq, Repr

/-- `SyncServer::mutexLock`: a failing trylock changes nothing. -/
def mutexLock (s : Server M C T) (thread : T) (mux : M) (tryLock : Bool) (time : ℕ) : Server M C T :=
  if tryLock && isLocked (getMutex s mux) thread then s else lock s mux thread time

/-- One call into the server. The mutex of an unlock and of a wait must belong to the caller. -/
def step (s : Server M C T) (call : Call M C T) : Except Fault (Server M C T) :=
  if (s.stalled call.caller).isSome then .error .callerStalled
  else match call with
    | .mutexLock thread mux tryLock time => .ok (mutexLock s thread mux tryLock time)
    | .mutexUnlock thread mux time =>
      if (getMutex s mux).owner = some thread then .ok (unlock s mux thread (time + s.rescheduleCost))
      else .error .notOwner
    | .condWait thread cond mux time =>
      if (getMutex s mux).owner = some thread then .ok (condWait s cond mux thread time)
      else .error .notOwner
    | .condSignal thread cond time => .ok (signal s cond thread time)
    | .condBroadcast thread cond time => .ok (broadcast s cond thread time)

/-- The sync server as a machine driven by the calls of any number of threads. -/
def machine (M C T : Type*) [DecidableEq M] [DecidableEq C] [DecidableEq T] :
    Machine (Server M C T) (Call M C T) Fault where
  step := step

end LifeSim.Sync
