import LifeSim.Lib.Machine
import LifeSim.Lib.Checked
import LifeSim.Rob.Smt

/-!
# The barrier of the hardware threads

`smt_timer.cc`: a hardware thread with many micro-ops that are not yet in its reorder buffer waits in a barrier. When
all running threads wait, one of them is released. It is told to execute the core, it synchronizes with the other cores,
and then it releases all threads with too few micro-ops. Threads that start, exit, stall, resume or migrate change what
the barrier waits for.

The class has virtual functions for the core itself. `RobSmtTimer` is one core with these functions.
-/

namespace LifeSim.Rob

open LifeSim.Lib

/-- The virtual functions. A core has fewer micro-ops than a 64-bit number can count. -/
structure SmtMethods (κ : Type) where
  threadNumSurplusInstructions : κ → ℕ → ℕ
  threadHasEnoughInstructions : κ → ℕ → Bool
  notifyNumActiveThreadsChange : (ℕ → Bool) → κ → κ
  pushInstructions : ℕ → List DynamicMicroOp → κ → κ
  synchronize : ℕ → ℕ → κ → κ
  /-- The loop makes a given number of rounds. -/
  execute : ℕ → κ → κ
  surplus_lt : ∀ core i, threadNumSurplusInstructions core i < 2 ^ 63

namespace RobSmtTimer

/-- `threadNumSurplusInstructions`, where the size of the queue has 32 bits. -/
def threadNumSurplusInstructions (s : RobSmtTimer) (i : ℕ) : ℕ :=
  match s.threads[i]? with
  | some t => t.rob.length % 2 ^ 32 - t.numInRob
  | none => 0

theorem threadNumSurplusInstructions_lt (s : RobSmtTimer) (i : ℕ) : s.threadNumSurplusInstructions i < 2 ^ 63 := by
  rw [threadNumSurplusInstructions]
  split <;> omega

/-- The functions of `RobSmtTimer`. -/
def methods (cfg : SmtConfig) : SmtMethods RobSmtTimer where
  threadNumSurplusInstructions := threadNumSurplusInstructions
  threadHasEnoughInstructions s i := decide (2 * cfg.dispatchWidth < s.threadNumSurplusInstructions i)
  notifyNumActiveThreadsChange running s :=
    computeCurrentWindowsize cfg { s with threads := s.threads.mapIdx fun i t => { t with running := running i } }
  pushInstructions i uops s := (s.pushInstructions i uops).returnLatency i
  synchronize i time s := s.synchronize i time
  -- a core that stops stays as it was
  execute rounds s := (fun s => (RobSmtTimer.execute cfg s).toOption.getD s)^[rounds] s
  surplus_lt := threadNumSurplusInstructions_lt

end RobSmtTimer

/-- A core with its hardware threads, which have 8-bit numbers. The last number stands for no thread. -/
structure SmtBarrierConfig (κ : Type) where
  methods : SmtMethods κ
  numThreads : ℕ
  coreId : ℕ → ℕ
  numThreads_lt : numThreads < 256

/-- `SmtThread`. A thread that has been signalled has still to come back from `wait`. -/
structure SmtThread where
  thread : Option ℕ
  running : Bool
  inBarrier : Bool
  signalled : ℕ

/-- `SmtTimer`, with the thread inside of `synchronize` and the number of threads told to execute since the last
release. -/
structure SmtTimer (κ : Type) where
  core : κ
  threads : ℕ → SmtThread
  inSync : Bool
  enabled : Bool
  executeThread : Option ℕ
  syncing : Option ℕ
  told : ℕ

/-- Why a call does not come to an end. -/
inductive SmtFault
  | endless
  | noThread
  | notCalled
  deriving DecidableEq

namespace SmtTimer

variable {κ : Type} (cfg : SmtBarrierConfig κ) (s : SmtTimer κ)

/-- The constructor, with all threads registered. -/
def new (core : κ) : SmtTimer κ where
  core := core
  threads _ := ⟨none, false, false, 0⟩
  inSync := false
  enabled := true
  executeThread := some 0
  syncing := none
  told := 0

/-- One thread changes. -/
def modifyThread (i : ℕ) (f : SmtThread → SmtThread) : SmtTimer κ :=
  { s with threads := Function.update s.threads i (f (s.threads i)) }

/-- `threadNumSurplusInstructions`. -/
def surplus (i : ℕ) : ℕ := cfg.methods.threadNumSurplusInstructions s.core i

/-- `threadHasEnoughInstructions`. -/
def hasEnough (i : ℕ) : Bool := cfg.methods.threadHasEnoughInstructions s.core i

/-- `findSmtThreadFromThread`. -/
def findSmtThreadFromThread (thread : ℕ) : Option ℕ :=
  (List.range cfg.numThreads).find? fun i => decide ((s.threads i).thread = some thread)

/-- `findSmtThreadFromCore`. -/
def findSmtThreadFromCore (core : Option ℕ) : Option ℕ :=
  core.bind fun c => (List.range cfg.numThreads).find? fun i => decide (cfg.coreId i = c)

/-- `isBarrierReached`. -/
def isBarrierReached : Bool :=
  !s.inSync && (List.range cfg.numThreads).all (fun i => !(s.threads i).running || (s.threads i).inBarrier) &&
    (List.range cfg.numThreads).any fun i => (s.threads i).inBarrier

/-- A thread in the barrier goes on. -/
def signal (i : ℕ) : SmtTimer κ :=
  s.modifyThread i fun t => { t with inBarrier := false, signalled := t.signalled + 1 }

end SmtTimer

/-- The local variables of `barrierRelease`. -/
structure Releasing (κ : Type) where
  timer : SmtTimer κ
  numRunning : ℕ
  releaseMe : Bool

namespace Releasing

variable {κ : Type} (cfg : SmtBarrierConfig κ) (all : Bool) (me : Option ℕ)

/-- A thread is counted if it runs. -/
def count (r : Releasing κ) (i : ℕ) : Releasing κ :=
  if (r.timer.threads i).running then { r with numRunning := r.numRunning + 1 } else r

/-- A thread is released. The calling thread is not in `wait`. -/
def release (r : Releasing κ) (i : ℕ) : Releasing κ :=
  if me = some i then { r with releaseMe := true } else { r with timer := r.timer.signal i }

/-- The thread that will execute. -/
def choose (r : Releasing κ) (i : ℕ) : Releasing κ := { r with timer := { r.timer with executeThread := some i } }

/-- The threads that we want more instructions from. -/
def releaseLoop : List ℕ → Releasing κ → Releasing κ
  | [], r => r
  | i :: is, r =>
    if (r.timer.threads i).inBarrier = false then releaseLoop is (r.count i)
    else if r.timer.hasEnough cfg i then releaseLoop is r
    else if all then releaseLoop is ((r.count i).release me i)
    else ((r.count i).release me i).choose i

/-- One round over the threads that run and wait. -/
def limitRound (limit : ℕ) : List ℕ → Releasing κ → Releasing κ
  | [], r => r
  | i :: is, r =>
    if (r.timer.threads i).inBarrier ∧ (r.timer.threads i).running ∧ r.timer.surplus cfg i < limit then
      if all then limitRound limit is ((r.count i).release me i) else ((r.count i).release me i).choose i
    else limitRound limit is r

/-- The loop for the case that no running thread goes on. The limit has 64 bits. -/
def limitLoop : ℕ → ℕ → Releasing κ → Option (Releasing κ)
  | 0, _, _ => none
  | rounds + 1, limit, r =>
    if r.numRunning = 0 then
      limitLoop rounds (limit * 2 % 2 ^ 64) (limitRound cfg all me limit (List.range cfg.numThreads) r)
    else some r

end Releasing

namespace SmtTimer

variable {κ : Type} (cfg : SmtBarrierConfig κ) (s : SmtTimer κ)

/-- `barrierRelease` up to its second loop. -/
def releasing (all : Bool) (me : Option ℕ) : Releasing κ :=
  Releasing.releaseLoop cfg all me (List.range cfg.numThreads) ⟨{ s with executeThread := me, told := 0 }, 0, false⟩

/-- `barrierRelease`. After 64 rounds the limit of the second loop is 0 and stays 0. -/
def barrierRelease (all : Bool) (me : Option ℕ) : Except SmtFault (SmtTimer κ × Bool) :=
  match Releasing.limitLoop cfg all me 65 1 (s.releasing cfg all me) with
  | some r => .ok (r.timer, r.releaseMe)
  | none => .error .endless

/-- `signalBarrier`. -/
def signalBarrier : Except SmtFault (SmtTimer κ) :=
  if s.isBarrierReached cfg then Prod.fst <$> s.barrierRelease cfg false none else .ok s

/-- A thread is in the barrier, or has left it without waiting. -/
def setInBarrier (i : ℕ) (inBarrier : Bool) : SmtTimer κ := s.modifyThread i fun t => { t with inBarrier := inBarrier }

/-- `barrier`, with what it returns if the thread does not wait. -/
def barrier (i : ℕ) : Except SmtFault (SmtTimer κ × Option Bool) :=
  if s.enabled = false then .ok (s, some false)
  else if (s.threads i).thread = none then .error .noThread
  else if (s.setInBarrier i true).isBarrierReached cfg then do
    let x ← (s.setInBarrier i true).barrierRelease cfg false (some i)
    if x.2 then .ok (x.1.setInBarrier i false, some (decide (x.1.executeThread = some i))) else .ok (x.1, none)
  else .ok (s.setInBarrier i true, none)

/-- The rest of `simulate` up to `synchronize`, for a thread that has been told to execute. -/
def executeCore (i rounds : ℕ) : SmtTimer κ :=
  { s with
    core := cfg.methods.execute rounds s.core
    executeThread := none
    inSync := true
    syncing := some i
    told := s.told + 1 }

/-- `simulate`. -/
def simulate (i rounds : ℕ) : Except SmtFault (SmtTimer κ) :=
  if 128 < s.surplus cfg i then do
    let x ← s.barrier cfg i
    if x.2 = some true then .ok (x.1.executeCore cfg i rounds) else .ok x.1
  else .ok s

/-- A thread comes back from `wait`. -/
def wake (i rounds : ℕ) : SmtTimer κ :=
  let s := s.modifyThread i fun t => { t with signalled := t.signalled - 1 }
  if s.executeThread = some i then s.executeCore cfg i rounds else s

/-- A thread comes back from `synchronize`. Without a client it has not left. -/
def syncDone (i : ℕ) : Except SmtFault (SmtTimer κ) :=
  Prod.fst <$> { s with inSync := false, syncing := none }.barrierRelease cfg true (some i)

/-- `notifyNumActiveThreadsChange`. -/
def notify : SmtTimer κ :=
  { s with core := cfg.methods.notifyNumActiveThreadsChange (fun i => (s.threads i).running) s.core }

/-- A thread starts or stops running, if it is here. -/
def setRunning (thread : ℕ) (running : Bool) : SmtTimer κ :=
  match s.findSmtThreadFromThread cfg thread with
  | some i => (s.modifyThread i fun t => { t with running := running }).notify cfg
  | none => s

/-- `threadMigrate` up to the place where the thread has gone. -/
def gone (thread : ℕ) : SmtTimer κ :=
  match s.findSmtThreadFromThread cfg thread with
  | some i =>
    let s := (s.modifyThread i fun t => { t with running := false, thread := none }).notify cfg
    if (s.threads i).inBarrier then s.signal i else s
  | none => s

/-- `threadMigrate`. -/
def threadMigrate (thread : ℕ) (core : Option ℕ) : SmtTimer κ :=
  match findSmtThreadFromCore cfg core with
  | some i => ((s.gone cfg thread).modifyThread i fun t => { t with running := true, thread := some thread }).notify cfg
  | none => s.gone cfg thread

/-- `disable`. -/
def disable : SmtTimer κ :=
  (List.range cfg.numThreads).foldl (fun s i => if (s.threads i).inBarrier then s.signal i else s) { s with enabled := false }

end SmtTimer

/-- What happens to the timer. -/
inductive SmtEvent
  | push (i : ℕ) (uops : List DynamicMicroOp)
  | synchronize (i time : ℕ)
  | simulate (i rounds : ℕ)
  | wake (i rounds : ℕ)
  | syncDone (i : ℕ)
  | threadStart (thread : ℕ)
  | threadExit (thread : ℕ)
  | threadStall (thread : ℕ)
  | threadResume (thread : ℕ)
  | threadMigrate (thread : ℕ) (core : Option ℕ)
  | enable
  | disable

namespace SmtTimer

variable {κ : Type} (cfg : SmtBarrierConfig κ) (s : SmtTimer κ)

/-- One event. A thread in the barrier makes no calls, and it comes back only when it has been signalled. -/
def step : SmtEvent → Except SmtFault (SmtTimer κ)
  | .push i uops => .ok { s with core := cfg.methods.pushInstructions i uops s.core }
  | .synchronize i time => .ok { s with core := cfg.methods.synchronize i time s.core }
  | .simulate i rounds =>
    if i < cfg.numThreads ∧ (s.threads i).inBarrier = false then s.simulate cfg i rounds else .error .notCalled
  | .wake i rounds => if 0 < (s.threads i).signalled then .ok (s.wake cfg i rounds) else .error .notCalled
  | .syncDone i => if s.syncing = some i then s.syncDone cfg i else .error .notCalled
  | .threadStart thread => .ok (s.setRunning cfg thread true)
  | .threadExit thread => (s.setRunning cfg thread false).signalBarrier cfg
  | .threadStall thread => (s.setRunning cfg thread false).signalBarrier cfg
  | .threadResume thread => .ok (s.setRunning cfg thread true)
  | .threadMigrate thread core => .ok (s.threadMigrate cfg thread core)
  | .enable => .ok { s with enabled := true }
  | .disable => .ok (s.disable cfg)

end SmtTimer

/-- A core under its events. -/
def smtMachine {κ : Type} (cfg : SmtBarrierConfig κ) : Machine (SmtTimer κ) SmtEvent SmtFault := ⟨fun s e => s.step cfg e⟩

end LifeSim.Rob
