import Mathlib
import LifeSim.Lib.Machine

/-!
# Simulated futexes

The futex part of `syscall_server.cc` over explicit state, with what it needs of the thread manager. A futex is the
queue of its waiters; futexes are found by their physical address. A thread that waits is appended to the queue and
stalls. It is resumed by a wake, or by a periodic call when its timeout has passed, and what it returns
travels in the wake-up message.

`stallThread` lets time advance while no thread runs and looks at its own status before it sleeps,
because a periodic call may have resumed it already. So a stall has two parts, and anything can happen in between.

Waits, removals, resumptions and results are written to a log, newest entry first.
-/

namespace LifeSim.Futex

open LifeSim.Lib

/-- `SimFutex::Waiter`. -/
structure Waiter (T : Type) where
  thread : T
  mask : BitVec 32
  timeout : ℕ
  deriving DecidableEq, Repr

/-- The commands that `handleFutexCall` accepts. -/
inductive Cmd
  | wait
  | waitBitset
  | wake
  | wakeBitset
  | wakeOp
  | cmpRequeue
  deriving DecidableEq, Repr

/-- `futex_args_t`. The timeout is the difference of its fields to the start of the simulation. -/
structure Args where
  uaddr : ℕ
  val : BitVec 32
  timeout : Option ℕ
  val2 : BitVec 32
  uaddr2 : ℕ
  val3 : BitVec 32
  deriving DecidableEq, Repr

/-- `STALL_FUTEX` and `STALL_SLEEP`. -/
inductive StallType
  | futex
  | sleep
  deriving DecidableEq, Repr

/-- Where a thread is in `stallThread`. -/
inductive Phase
  /-- Before it looks at its own status. -/
  | stalling
  /-- In `Thread::wait`. -/
  | waiting
  deriving DecidableEq, Repr

/-- What happens to a thread. -/
inductive Entry (T : Type)
  /-- It is put into the queue of a futex. -/
  | enqueue (thread : T) (timeout : ℕ)
  /-- A thread that wakes it takes it out of the queue. -/
  | wake (thread : T) (by_ : T)
  /-- A periodic call takes it out of the queue. -/
  | timeOut (thread : T) (time : ℕ)
  /-- It goes to sleep. -/
  | sleep (thread : T)
  /-- `resumeThread`. -/
  | resume (thread : T)
  /-- Its call returns, for a wait with a result. -/
  | return (thread : T) (res : Option ℤ) (time : ℕ)
  /-- A call that does not stall returns. -/
  | answer (thread : T) (res : ℤ) (time : ℕ)
  deriving DecidableEq, Repr

/-- The server with the part of the thread manager it uses. -/
structure Server (T : Type) where
  /-- The addresses in `m_futexes`. -/
  addresses : List ℕ
  /-- `m_futexes`, with the queue of each futex. -/
  futexes : ℕ → List (Waiter T)
  /-- `m_sleeping`. -/
  sleeping : List (Waiter T)
  /-- The reason for which a thread is `STALLED`. -/
  stalled : T → Option StallType
  /-- The call in which a thread is, and how far it has come. -/
  call : T → Option (StallType × Phase)
  /-- `m_wakeup_msg`. -/
  wakeupMsg : T → Bool
  /-- `m_wakeup_time`. -/
  wakeupTime : T → ℕ
  /-- The words that futexes are about. -/
  memory : ℕ → BitVec 32
  rescheduleCost : ℕ
  /-- History, newest entry first. -/
  log : List (Entry T)

/-- Why a call is not carried out. -/
inductive Fault
  /-- The thread is in a call. -/
  | callerBusy
  /-- `FUTEX_CMP_REQUEUE: uaddr == uaddr2`. -/
  | sameAddress
  /-- `futexWakeOp: unknown op`. -/
  | unknownOp
  /-- `futexWakeOp: unknown cmp`. -/
  | unknownCmp
  deriving DecidableEq, Repr

/-- `FUTEX_BITSET_MATCH_ANY`. -/
def matchAny : BitVec 32 := 0xffffffff#32

/-- `-EWOULDBLOCK`, which is `-EAGAIN`. -/
def eWouldBlock : ℤ := -11

/-- `-ETIMEDOUT`. -/
def eTimedOut : ℤ := -110

/-- `SubsecondTime::MaxTime`. -/
def maxTime : ℕ := 2 ^ 64 - 1

variable {T : Type} [DecidableEq T]

/-- Nobody waits. -/
def initial (rescheduleCost : ℕ) (memory : ℕ → BitVec 32) : Server T where
  addresses := []
  futexes := fun _ => []
  sleeping := []
  stalled := fun _ => none
  call := fun _ => none
  wakeupMsg := fun _ => false
  wakeupTime := fun _ => 0
  memory := memory
  rescheduleCost := rescheduleCost
  log := []

namespace Server

/-- A log entry. -/
def record (e : Entry T) (s : Server T) : Server T := { s with log := e :: s.log }

/-- `findFutexByUaddr`: a futex is created when its address is seen for the first time. -/
def findFutexByUaddr (uaddr : ℕ) (s : Server T) : Server T :=
  { s with addresses := if uaddr ∈ s.addresses then s.addresses else s.addresses ++ [uaddr] }

/-- The queue of a futex is changed. -/
def setFutex (uaddr : ℕ) (q : List (Waiter T)) (s : Server T) : Server T :=
  { s with futexes := Function.update s.futexes uaddr q }

/-- `stallThread` up to the hooks it calls. -/
def stallThread (thread : T) (reason : StallType) (s : Server T) : Server T :=
  { s with stalled := Function.update s.stalled thread (some reason)
           call := Function.update s.call thread (some (reason, .stalling)) }

/-- `resumeThread`. -/
def resumeThread (thread : T) (time : ℕ) (msg : Bool) (s : Server T) : Server T :=
  { s with stalled := Function.update s.stalled thread none
           wakeupMsg := Function.update s.wakeupMsg thread msg
           wakeupTime := Function.update s.wakeupTime thread time }.record (.resume thread)

/-- `enqueueWaiter`, up to the stall. -/
def enqueueWaiter (uaddr : ℕ) (thread : T) (mask : BitVec 32) (timeout : ℕ) (s : Server T) : Server T :=
  ((s.setFutex uaddr (s.futexes uaddr ++ [⟨thread, mask, timeout⟩])).record
    (.enqueue thread timeout)).stallThread thread .futex

/-- `dequeueWaiter`: the first waiter whose mask fits. -/
def dequeueWaiter (uaddr : ℕ) (by_ : T) (mask : BitVec 32) (time : ℕ) (s : Server T) : Server T × Option T :=
  match (s.futexes uaddr).find? fun w => mask &&& w.mask ≠ 0#32 with
  | some w =>
    (((s.setFutex uaddr ((s.futexes uaddr).eraseP fun w => mask &&& w.mask ≠ 0#32)).record
      (.wake w.thread by_)).resumeThread w.thread time true, some w.thread)
  | none => (s, none)

/-- `requeueWaiter`. -/
def requeueWaiter (uaddr uaddr2 : ℕ) (s : Server T) : Server T × Option T :=
  match s.futexes uaddr with
  | [] => (s, none)
  | w :: rest =>
    let s := s.setFutex uaddr rest
    (s.setFutex uaddr2 (s.futexes uaddr2 ++ [w]), some w.thread)

/-- `wakeTimedOut`: at most one waiter of a futex. -/
def wakeTimedOut (time : ℕ) (uaddr : ℕ) (s : Server T) : Server T :=
  match (s.futexes uaddr).find? fun w => w.timeout ≤ time with
  | some w =>
    ((s.setFutex uaddr ((s.futexes uaddr).eraseP fun w => w.timeout ≤ time)).record
      (.timeOut w.thread time)).resumeThread w.thread time false
  | none => s

/-- The part of `futexPeriodic` for sleeping threads. -/
def wakeSleeping (time : ℕ) (s : Server T) : Server T :=
  match s.sleeping.find? fun w => w.timeout ≤ time with
  | some w =>
    { s with sleeping := s.sleeping.eraseP fun w => w.timeout ≤ time }.resumeThread w.thread time false
  | none => s

/-- `futexPeriodic`. The futexes are visited in the order in which the map has them. -/
def futexPeriodic (time : ℕ) (order : List ℕ) (s : Server T) : Server T :=
  order.foldl (fun s uaddr => s.wakeTimedOut time uaddr) (s.wakeSleeping time)

/-- `applyRescheduleCost`; the core of the thread may not have executed an instruction yet. -/
def applyRescheduleCost (executed conditional : Bool) (s : Server T) : ℕ :=
  if conditional && executed then s.rescheduleCost else 0

/-- The loops around `dequeueWaiter`, with the number of threads woken. -/
def wakeLoop (uaddr : ℕ) (by_ : T) (mask : BitVec 32) (time : ℕ) : ℕ → Server T → Server T × ℕ
  | 0, s => (s, 0)
  | n + 1, s =>
    match s.dequeueWaiter uaddr by_ mask time with
    | (s, some _) =>
      let (s, woken) := wakeLoop uaddr by_ mask time n s
      (s, woken + 1)
    | (s, none) => (s, 0)

/-- `for (int i = 0; i < n; i++)`. -/
def iterations (n : BitVec 32) : ℕ := n.toInt.toNat

/-- `futexWait`. -/
def futexWait (thread : T) (uaddr : ℕ) (val actVal mask : BitVec 32) (currTime timeout : ℕ)
    (s : Server T) : Server T :=
  let s := s.findFutexByUaddr uaddr
  if val ≠ actVal then s.record (.answer thread eWouldBlock currTime)
  else s.enqueueWaiter uaddr thread mask timeout

/-- `futexWake`. -/
def futexWake (thread : T) (uaddr : ℕ) (nrWake mask : BitVec 32) (currTime : ℕ) (executed : Bool)
    (s : Server T) : Server T :=
  let s := s.findFutexByUaddr uaddr
  let (s, woken) := s.wakeLoop uaddr thread mask (currTime + s.applyRescheduleCost executed true) (iterations nrWake)
  s.record (.answer thread woken (currTime + s.applyRescheduleCost executed (0 < woken)))

/-- The new value of `futexDoOp`. -/
def opResult (op oldval oparg : BitVec 32) : Except Fault (BitVec 32) :=
  match op.toNat with
  | 0 => .ok oparg
  | 1 => .ok (oldval + oparg)
  | 2 => .ok (oldval ||| oparg)
  | 3 => .ok (oldval &&& ~~~oparg)
  | 4 => .ok (oldval ^^^ oparg)
  | _ => .error .unknownOp

/-- The comparison of `futexDoOp`. -/
def cmpResult (cmp oldval cmparg : BitVec 32) : Except Fault Bool :=
  match cmp.toNat with
  | 0 => .ok (oldval == cmparg)
  | 1 => .ok (oldval != cmparg)
  | 2 => .ok (oldval.slt cmparg)
  | 3 => .ok (oldval.sle cmparg)
  | 4 => .ok (cmparg.slt oldval)
  | 5 => .ok (cmparg.sle oldval)
  | _ => .error .unknownCmp

/-- `futexDoOp`. -/
def futexDoOp (encodedOp : BitVec 32) (uaddr : ℕ) (s : Server T) : Except Fault (Server T × Bool) := do
  let op := (encodedOp >>> 28) &&& 7#32
  let cmp := (encodedOp >>> 24) &&& 15#32
  let oparg := (encodedOp <<< 8).sshiftRight 20
  let cmparg := (encodedOp <<< 20).sshiftRight 20
  let oparg := if encodedOp.msb then 1#32 <<< (oparg.toNat % 32) else oparg
  let oldval := s.memory uaddr
  let newval ← opResult op oldval oparg
  let ret ← cmpResult cmp oldval cmparg
  .ok ({ s with memory := Function.update s.memory uaddr newval }, ret)

/-- `futexWakeOp`. -/
def futexWakeOp (thread : T) (uaddr uaddr2 : ℕ) (nrWake nrWake2 op : BitVec 32) (currTime : ℕ) (executed : Bool)
    (s : Server T) : Except Fault (Server T) := do
  let s := (s.findFutexByUaddr uaddr).findFutexByUaddr uaddr2
  let (s, opRet) ← s.futexDoOp op uaddr2
  let time := currTime + s.applyRescheduleCost executed true
  let (s, woken) := s.wakeLoop uaddr thread matchAny time (iterations nrWake)
  let (s, woken2) := if opRet then s.wakeLoop uaddr2 thread matchAny time (iterations nrWake2) else (s, 0)
  .ok (s.record (.answer thread (woken + woken2 : ℕ)
    (currTime + s.applyRescheduleCost executed (0 < woken + woken2))))

/-- The second loop of `futexCmpRequeue`. The number bounds the waiters of the first futex. -/
def requeueLoop (uaddr uaddr2 : ℕ) : ℕ → Server T → Server T
  | 0, s => s
  | n + 1, s =>
    match s.requeueWaiter uaddr uaddr2 with
    | (s, some _) => requeueLoop uaddr uaddr2 n s
    | (s, none) => s

/-- `futexCmpRequeue`. -/
def futexCmpRequeue (thread : T) (uaddr : ℕ) (val : BitVec 32) (uaddr2 : ℕ) (val3 actVal : BitVec 32)
    (currTime : ℕ) (s : Server T) : Server T :=
  let s := s.findFutexByUaddr uaddr
  if val3 ≠ actVal then s.record (.answer thread eWouldBlock currTime)
  else
    let (s, woken) := s.wakeLoop uaddr thread matchAny currTime (iterations val)
    let s := s.findFutexByUaddr uaddr2
    (s.requeueLoop uaddr uaddr2 (s.futexes uaddr).length).record (.answer thread woken currTime)

/-- The time at which a wait is over: absolute for `FUTEX_WAIT_BITSET`, else relative. -/
def timeoutTime (cmd : Cmd) (timeout : Option ℕ) (currTime : ℕ) : ℕ :=
  match timeout with
  | none => maxTime
  | some t => if cmd = .waitBitset then t else (currTime + t) % 2 ^ 64

/-- `handleFutexCall`. Both wakes use all bits. -/
def handleFutexCall (thread : T) (cmd : Cmd) (args : Args) (currTime : ℕ) (executed : Bool) (s : Server T) :
    Except Fault (Server T) :=
  let actVal := s.memory args.uaddr
  match cmd with
  | .wait | .waitBitset =>
    .ok (s.futexWait thread args.uaddr args.val actVal (if cmd = .waitBitset then args.val3 else matchAny)
      currTime (timeoutTime cmd args.timeout currTime))
  | .wake | .wakeBitset =>
    .ok (s.futexWake thread args.uaddr args.val (if cmd = .waitBitset then args.val3 else matchAny)
      currTime executed)
  | .wakeOp => s.futexWakeOp thread args.uaddr args.uaddr2 args.val args.val2 args.val3 currTime executed
  | .cmpRequeue =>
    if args.uaddr = args.uaddr2 then .error .sameAddress
    else .ok (s.futexCmpRequeue thread args.uaddr args.val args.uaddr2 args.val3 actVal currTime)

/-- `handleSleepCall`. -/
def handleSleepCall (thread : T) (wakeTime : ℕ) (s : Server T) : Server T :=
  let waiter : Waiter T := ⟨thread, 0#32, wakeTime⟩
  let s := { s with sleeping := s.sleeping ++ [waiter] }
  (s.record (.sleep thread)).stallThread thread .sleep

/-- What the call of a thread that has been resumed returns. -/
def result (reason : StallType) (msg : Bool) : Option ℤ :=
  match reason with
  | .futex => some (if msg then 0 else eTimedOut)
  | .sleep => none

/-- The call of a thread returns. -/
def leave (thread : T) (reason : StallType) (s : Server T) : Server T :=
  { s with call := Function.update s.call thread none }.record
    (.return thread (result reason (s.wakeupMsg thread)) (s.wakeupTime thread))

/-- The end of `stallThread`: the thread may have been resumed already, else it waits. -/
def settle (thread : T) (reason : StallType) (s : Server T) : Server T :=
  if s.stalled thread = none then s.leave thread reason
  else { s with wakeupMsg := Function.update s.wakeupMsg thread false
                call := Function.update s.call thread (some (reason, .waiting)) }

end Server

/-- What can happen next. -/
inductive Event (T : Type)
  | futexCall (thread : T) (cmd : Cmd) (args : Args) (currTime : ℕ) (executed : Bool)
  | sleepCall (thread : T) (wakeTime : ℕ)
  /-- `HOOK_PERIODIC`, also in the stall of a thread, with the order in which the map has its futexes. -/
  | periodic (time : ℕ) (order : List ℕ)
  /-- A thread goes on in `stallThread`. -/
  | goOn (thread : T)
  /-- The program writes a word. -/
  | store (uaddr : ℕ) (val : BitVec 32)
  deriving DecidableEq, Repr

open Server in
/-- One step. An event that cannot happen in the state changes nothing. -/
def step (s : Server T) : Event T → Except Fault (Server T)
  | .futexCall thread cmd args currTime executed =>
    if s.call thread = none then s.handleFutexCall thread cmd args currTime executed else .error .callerBusy
  | .sleepCall thread wakeTime =>
    if s.call thread = none then .ok (s.handleSleepCall thread wakeTime) else .error .callerBusy
  | .periodic time order => .ok (if order.Perm s.addresses then s.futexPeriodic time order else s)
  | .goOn thread =>
    match s.call thread with
    | none => .ok s
    | some (reason, .stalling) => .ok (s.settle thread reason)
    | some (reason, .waiting) => .ok (if s.stalled thread = none then s.leave thread reason else s)
  | .store uaddr val => .ok { s with memory := Function.update s.memory uaddr val }

/-- The server as a machine. -/
def machine (T : Type) [DecidableEq T] : Machine (Server T) (Event T) Fault where
  step := step

end LifeSim.Futex
