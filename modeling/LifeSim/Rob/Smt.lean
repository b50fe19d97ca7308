import LifeSim.Rob.Timer

/-!
# The reorder buffers of several hardware threads

`rob_smt_timer.cc`: each hardware thread has its own buffer, and the threads share the reservation stations, the queues
of loads and stores, and the ports. A cycle dispatches from one thread and issues from one or several of them. A thread
whose next event is later is passed over by the issue stage.

The stages of one thread are those of `RobTimer`, on the thread's part of the state. What differs: dependencies are set at
dispatch, dependencies of a micro-op that have left the buffer are removed, and the thread has its own next event.
-/

namespace LifeSim.Rob

open LifeSim.Lib

/-- The parameters of a core with several hardware threads. -/
structure SmtConfig extends Config where
  numThreads : ℕ
  windowRepartition : Bool
  simultaneousIssue : Bool

/-- `RobThread`, with `running` of its `SmtThread`. -/
structure RobThread where
  rob : List RobEntry
  numInRob : ℕ
  now : ℕ
  frontendStalledUntil : Time
  inIcacheMiss : Bool
  nextEvent : Time
  nextSequenceNumber : ℕ
  registerDependencies : RegisterDependencies
  memoryDependencies : MemoryDependencies
  running : Bool

/-- The constructor of `RobThread`. -/
def RobThread.new : RobThread where
  rob := []
  numInRob := 0
  now := 0
  frontendStalledUntil := 0
  inIcacheMiss := false
  nextEvent := 0
  nextSequenceNumber := 0
  registerDependencies := fun _ => none
  memoryDependencies := ⟨[], none⟩
  running := false

/-- `RobSmtTimer`. -/
structure RobSmtTimer where
  threads : List RobThread
  dispatchThread : ℕ
  issueThread : ℕ
  currentWindowSize : ℕ
  now : ℕ
  lastStoreDone : ℕ
  loadQueue : ContentionModel
  storeQueue : ContentionModel
  aluUsedUntil : ℕ
  rsEntriesUsed : ℕ

namespace RobSmtTimer

/-- `computeCurrentWindowsize`. -/
def computeCurrentWindowsize (cfg : SmtConfig) (s : RobSmtTimer) : RobSmtTimer :=
  if cfg.windowRepartition then
    let awake := s.threads.countP RobThread.running
    { s with currentWindowSize := if 0 < awake then cfg.windowSize / awake else cfg.windowSize }
  else { s with currentWindowSize := cfg.windowSize / cfg.numThreads }

/-- The constructor, with all threads registered. -/
def new (cfg : SmtConfig) : RobSmtTimer :=
  computeCurrentWindowsize cfg
    { threads := List.replicate cfg.numThreads .new
      dispatchThread := 0
      issueThread := 0
      currentWindowSize := 0
      now := 0
      lastStoreDone := 0
      loadQueue := .new cfg.outstandingLoads
      storeQueue := .new cfg.outstandingStores
      aluUsedUntil := 0
      rsEntriesUsed := 0 }

variable (cfg : SmtConfig) (s : RobSmtTimer)

/-- The state that the stages of a thread work on. -/
def view (t : RobThread) : RobTimer where
  rob := t.rob
  numInRob := t.numInRob
  rsEntriesUsed := s.rsEntriesUsed
  now := s.now
  frontendStalledUntil := t.frontendStalledUntil
  inIcacheMiss := t.inIcacheMiss
  lastStoreDone := s.lastStoreDone
  loadQueue := s.loadQueue
  storeQueue := s.storeQueue
  aluUsedUntil := s.aluUsedUntil
  nextSequenceNumber := t.nextSequenceNumber
  registerDependencies := t.registerDependencies
  memoryDependencies := t.memoryDependencies
  log := []
  dependencies := []

/-- The thread after a stage. -/
def RobThread.update (t : RobThread) (v : RobTimer) (nextEvent : Time) : RobThread :=
  { t with
    rob := v.rob
    numInRob := v.numInRob
    frontendStalledUntil := v.frontendStalledUntil
    inIcacheMiss := v.inIcacheMiss
    nextEvent := nextEvent
    nextSequenceNumber := v.nextSequenceNumber
    registerDependencies := v.registerDependencies
    memoryDependencies := v.memoryDependencies }

/-- The core after a stage of a thread. -/
def update (i : ℕ) (v : RobTimer) (nextEvent : Time) : RobSmtTimer :=
  { s with
    threads := s.threads.modify i fun t => RobThread.update t v nextEvent
    lastStoreDone := v.lastStoreDone
    loadQueue := v.loadQueue
    storeQueue := v.storeQueue
    aluUsedUntil := v.aluUsedUntil
    rsEntriesUsed := v.rsEntriesUsed }

/-! ### Dispatch -/

/-- A dependency that has left the buffer is removed. -/
def link (front n : ℕ) (l : Linking) (dependency : ℕ) : Except Fault Linking :=
  if dependency < front then l.remove dependency else Rob.link front n l dependency

/-- `setDependencies`, with the entry as it is then. -/
def setDependencies (v : RobTimer) (e : RobEntry) : Except Fault (RobTimer × RobEntry) := do
  let n := e.uop.sequenceNumber
  let front := frontNumber v.rob n
  let e := setAddress v front e
  let (registers, stores, u) ← depend cfg.toConfig v front e
  let l ← u.getDependencies.foldlM (link front n) ⟨v.rob, [], e.readyMax⟩
  let e ← resolve e u l
  return ({ v with rob := l.rob, registerDependencies := registers, memoryDependencies := stores }, e)

/-- The local variables of `tryDispatch`, and the thread's next event. -/
structure DispatchLocals where
  dispatched : ℕ
  nextEvent : Time
  threadNextEvent : Time

/-- The loop of `tryDispatch`. -/
def dispatchLoop : ℕ → DispatchLocals → RobTimer → Except Fault (RobTimer × DispatchLocals)
  | 0, l, v => .ok (v, l)
  | places + 1, l, v =>
    match v.rob[v.numInRob]? with
    | none => .ok (v, l)
    | some e =>
      if l.dispatched = cfg.dispatchWidth then .ok (v, l)
      else if e.uop.iCacheMiss ∧ v.inIcacheMiss = false then
        .ok ({ v with frontendStalledUntil := (v.now + e.uop.iCacheLatency : ℕ), inIcacheMiss := true }, l)
      else
        let v := if e.uop.iCacheMiss then { v with inIcacheMiss := false } else v
        if v.rsEntriesUsed = cfg.rsEntries then .ok (v, l)
        else do
          let (v, e) ← setDependencies cfg v e
          let next := min l.nextEvent (max e.ready (v.now + 1 : ℕ))
          let l := ⟨l.dispatched + 1, next, min l.threadNextEvent next⟩
          if e.uop.isBranch ∧ e.uop.branchMispredicted then
            .ok ({ dispatchEntry e v with frontendStalledUntil := ⊤ }, l)
          else dispatchLoop places l (dispatchEntry e v)

/-- `tryDispatch`: whether something has been dispatched, and the next event. -/
def tryDispatch (i : ℕ) (t : RobThread) (next : Time) : Except Fault (RobSmtTimer × Bool × Time) := do
  let (v, l) ← dispatchLoop cfg (s.currentWindowSize - t.numInRob) ⟨0, next, t.nextEvent⟩ (s.view t)
  return (s.update i v l.threadNextEvent, decide (0 < l.dispatched),
    if v.numInRob < s.currentWindowSize then min v.frontendStalledUntil l.nextEvent else l.nextEvent)

/-- A thread that may dispatch: its front-end is not stalled, it runs, it is not in the future, and it has a place. -/
def mayDispatch (t : RobThread) : Bool :=
  decide (t.frontendStalledUntil ≤ s.now) && t.running && decide (t.now ≤ s.now) &&
    decide (t.numInRob < s.currentWindowSize)

/-- The threads from one on. -/
def order (first : ℕ) : List ℕ := (List.range s.threads.length).map fun k => (first + k) % s.threads.length

/-- The loop of `doDispatch`, which ends after the first thread that has dispatched. -/
def dispatchRound : List ℕ → Time → RobSmtTimer → Except Fault (RobSmtTimer × Option ℕ × Time)
  | [], next, s => .ok (s, none, next)
  | i :: is, next, s =>
    match s.threads[i]? with
    | none => dispatchRound is next s
    | some t =>
      if s.mayDispatch t then do
        match ← s.tryDispatch cfg i t next with
        | (s, true, next) => .ok (s, some i, next)
        | (s, false, next) => dispatchRound is next s
      else dispatchRound is next s

/-- `doDispatch`. -/
def doDispatch : Except Fault (RobSmtTimer × Time) := do
  let (s', dispatched, next) ← dispatchRound cfg (s.order s.dispatchThread) ⊤ s
  return ({ s' with dispatchThread := (dispatched.getD s.dispatchThread + 1) % s.threads.length }, next)

/-! ### Issue -/

/-- `tryIssue`, with its local variables at the end. -/
def tryIssue (i : ℕ) (t : RobThread) (ports : Ports) : RobSmtTimer × IssueLocals :=
  let (v, l) := issueLoop cfg.toConfig t.numInRob 0 { IssueLocals.init with ports := ports } (s.view t)
  (s.update i v l.nextEvent, l)

/-- The thread is passed over because its next event is later. -/
def skips (t : RobThread) : Prop := (s.now : Time) < t.nextEvent

instance (t : RobThread) : Decidable (s.skips t) := inferInstanceAs (Decidable (_ < _))

/-- The loop of `doIssue`: the thread after which it ends, and the next event. -/
def issueRound : List ℕ → Ports → Time → RobSmtTimer → RobSmtTimer × Option ℕ × Time
  | [], _, next, s => (s, none, next)
  | i :: is, ports, next, s =>
    match s.threads[i]? with
    | none => issueRound is ports next s
    | some t =>
      if s.skips t ∨ t.numInRob = 0 then issueRound is ports next s
      else
        let (s, l) := s.tryIssue cfg i t ports
        if 0 < l.numIssued ∧ cfg.simultaneousIssue = false then (s, some i, min next l.nextEvent)
        else issueRound is l.ports (min next l.nextEvent) s

/-- `doIssue`. -/
def doIssue : RobSmtTimer × Time :=
  let (s', last, next) := issueRound cfg (s.order s.issueThread) .init ⊤ s
  ({ s' with issueThread := (last.getD s.issueThread + 1) % s.threads.length }, next)

/-! ### Commit -/

/-- A thread commits. -/
def commitThread (i : ℕ) : RobSmtTimer :=
  match s.threads[i]? with
  | none => s
  | some t => s.update i (commitLoop cfg.toConfig t.rob 0 (s.view t)) t.nextEvent

/-- `doCommit`. -/
def doCommit : RobSmtTimer × Time :=
  let s := (List.range s.threads.length).foldl (commitThread cfg) s
  (s, ((s.threads.head?.bind fun t => t.rob.head?).map RobEntry.done).getD ⊤)

/-! ### Cycles -/

/-- There are enough micro-ops for every thread that may dispatch. -/
def canExecute : Bool :=
  s.threads.all fun t => !s.mayDispatch t || decide (t.numInRob + 2 * cfg.dispatchWidth ≤ t.rob.length)

/-- `executeCycle`. Cycles are skipped with one thread only. -/
def executeCycle : Except Fault RobSmtTimer := do
  let (s, nextDispatch) ← s.doDispatch cfg
  let (s, nextIssue) := s.doIssue cfg
  let (s, nextCommit) := s.doCommit cfg
  return { s with now := advance (s.threads.length = 1) s.now (min nextDispatch (min nextIssue nextCommit)) }

/-- A round of the loop of `execute`. -/
def execute : Except Fault RobSmtTimer := if s.canExecute cfg then s.executeCycle cfg else .ok s

/-! ### Calls from outside -/

/-- A round of the loop in `pushInstructions`. -/
def pushInstruction (t : RobThread) (u : DynamicMicroOp) : RobThread :=
  if u.squashed then t
  else
    { t with
      rob := t.rob ++ [.init { u with sequenceNumber := t.nextSequenceNumber }]
      nextSequenceNumber := t.nextSequenceNumber + 1 }

/-- `pushInstructions`. -/
def pushInstructions (i : ℕ) (uops : List DynamicMicroOp) : RobSmtTimer :=
  { s with threads := s.threads.modify i fun t => uops.foldl pushInstruction t }

/-- The effect of `returnLatency`. -/
def returnLatency (i : ℕ) : RobSmtTimer :=
  { s with threads := s.threads.modify i fun t => { t with now := max t.now s.now } }

/-- `synchronize`: the core goes to the time of the earliest thread, if that is later. -/
def synchronize (i time : ℕ) : RobSmtTimer :=
  let threads := s.threads.modify i fun t => { t with now := time }
  { s with
    threads := threads
    now := match (threads.map RobThread.now).min? with
      | none => s.now
      | some earliest => max s.now earliest }

/-- The thread starts or stops running, and `notifyNumActiveThreadsChange`. -/
def setRunning (i : ℕ) (running : Bool) : RobSmtTimer :=
  computeCurrentWindowsize cfg { s with threads := s.threads.modify i fun t => { t with running := running } }

end RobSmtTimer

/-- What happens to a core. -/
inductive SmtCall
  | push (thread : ℕ) (uops : List DynamicMicroOp)
  | execute
  | returnLatency (thread : ℕ)
  | synchronize (thread time : ℕ)
  | setRunning (thread : ℕ) (running : Bool)

/-- One call. -/
def RobSmtTimer.call (cfg : SmtConfig) (s : RobSmtTimer) : SmtCall → Except Fault RobSmtTimer
  | .push i uops => .ok (s.pushInstructions i uops)
  | .execute => s.execute cfg
  | .returnLatency i => .ok (s.returnLatency i)
  | .synchronize i time => .ok (s.synchronize i time)
  | .setRunning i running => .ok (s.setRunning cfg i running)

/-- The core as a machine. -/
def smtTimer (cfg : SmtConfig) : Machine RobSmtTimer SmtCall Fault := ⟨RobSmtTimer.call cfg⟩

end LifeSim.Rob
