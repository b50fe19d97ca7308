import LifeSim.Lib.Checked
import LifeSim.Lib.Machine
import LifeSim.Rob.Uop

/-!
# The reorder buffer

`rob_timer.cc`: micro-ops enter the buffer with their dependencies, and each executed cycle dispatches, issues and
commits. Every stage returns the next cycle in which it may have something to do. `execute` goes to the earliest of
these, and with `ASSERT_SKIP` it goes to the next cycle instead. Both are `advance` here.

The memory is a latency for each micro-op and issue cycle. CPI stacks, counters and the instruction tracer are left out;
instead a log keeps what happens to each micro-op and when.

While a micro-op enters, the timer stops at an assertion on its dependencies, and at the ninth element that is stored in
`deps_to_remove`, an array of eight. Where an assertion fails in a later stage, the timer goes on as if the operation had
not been called.
-/

namespace LifeSim.Rob

open LifeSim.Lib

/-- `RobEntry`. Dependants are named by their sequence numbers. -/
structure RobEntry where
  uop : DynamicMicroOp
  dependants : List ℕ
  addressProducers : List ℕ
  /-- Not set by `init`. -/
  dispatched : ℕ
  ready : Time
  readyMax : Time
  addressReady : Time
  addressReadyMax : Time
  issued : Time
  done : Time

/-- `RobEntry::init`. -/
def RobEntry.init (u : DynamicMicroOp) : RobEntry := ⟨u, [], [], 0, ⊤, 0, ⊤, 0, ⊤, ⊤⟩

/-- What is recorded of a micro-op. When it issues, it is known when its result is available and when it is done. -/
inductive Event
  | dispatched (n : ℕ) (time : ℕ)
  | issued (n : ℕ) (time depend done : ℕ)
  | committed (n : ℕ) (time : ℕ)
  deriving DecidableEq, Repr

/-- The parameters of a core, and its memory. -/
structure Config where
  dispatchWidth : ℕ
  commitWidth : ℕ
  windowSize : ℕ
  rsEntries : ℕ
  mispredictionPenalty : ℕ
  storeToLoadForwarding : Bool
  noAddressDisambiguation : Bool
  inorder : Bool
  issueContention : Bool
  outstandingLoads : ℕ
  outstandingStores : ℕ
  /-- The latency of a memory access in cycles. -/
  memory : DynamicMicroOp → ℕ → ℕ

/-- `RobTimer`. -/
structure RobTimer where
  rob : List RobEntry
  numInRob : ℕ
  rsEntriesUsed : ℕ
  now : ℕ
  frontendStalledUntil : Time
  inIcacheMiss : Bool
  lastStoreDone : ℕ
  loadQueue : ContentionModel
  storeQueue : ContentionModel
  aluUsedUntil : ℕ
  nextSequenceNumber : ℕ
  registerDependencies : RegisterDependencies
  memoryDependencies : MemoryDependencies
  log : List Event
  /-- History: the dependencies that each micro-op had when it entered. -/
  dependencies : List (List ℕ)

/-- The constructor. -/
def RobTimer.new (cfg : Config) : RobTimer where
  rob := []
  numInRob := 0
  rsEntriesUsed := 0
  now := 0
  frontendStalledUntil := 0
  inIcacheMiss := false
  lastStoreDone := 0
  loadQueue := .new cfg.outstandingLoads
  storeQueue := .new cfg.outstandingStores
  aluUsedUntil := 0
  nextSequenceNumber := 0
  registerDependencies := fun _ => none
  memoryDependencies := ⟨[], none⟩
  log := []
  dependencies := []

/-- The sequence number at the front of the buffer, or the one given if it is empty. -/
def frontNumber (rob : List RobEntry) (n : ℕ) : ℕ := (rob.head?.map fun e => e.uop.sequenceNumber).getD n

/-- `findEntryBySequenceNumber`, where `front` is the number of the first entry. -/
def findEntry (rob : List RobEntry) (front n : ℕ) : Option RobEntry :=
  if front ≤ n then rob[n - front]? else none

/-- An entry is changed through its pointer. -/
def changeEntry (rob : List RobEntry) (front n : ℕ) (f : RobEntry → RobEntry) : List RobEntry :=
  if front ≤ n then rob.modify (n - front) f else rob

/-- `removeDependency` when a producer issues. -/
def dropDependency (u : DynamicMicroOp) (n : ℕ) : DynamicMicroOp := (u.removeDependency n).getD u

/-- Why a micro-op does not enter. -/
inductive Fault
  | assertion
  /-- An element is stored behind the end of `deps_to_remove`. -/
  | depsToRemove
  deriving DecidableEq, Repr

/-- A result, unless an assertion fails. -/
def asserted {α : Type} : Option α → Except Fault α
  | some a => .ok a
  | none => .error .assertion

/-! ### Entering the buffer -/

/-- The search for the producers of a store's address. -/
def addAddressProducer (s : RobTimer) (front : ℕ) (e : RobEntry) (reg : ℕ) : RobEntry :=
  match s.registerDependencies.peekProducer reg front with
  | none => e
  | some producer =>
    match findEntry s.rob front producer with
    | none => e -- never, as the tables name entries of the buffer
    | some p =>
      if p.done ≠ ⊤ then { e with addressReadyMax := max e.addressReadyMax p.done }
      else { e with addressProducers := e.addressProducers ++ [producer] }

/-- The address of a store. -/
def setAddress (s : RobTimer) (front : ℕ) (e : RobEntry) : RobEntry :=
  if e.uop.isStore then
    let e := e.uop.addressRegisters.foldl (addAddressProducer s front) e
    if e.addressProducers = [] then { e with addressReady := e.addressReadyMax } else e
  else e

/-- The first dependency on a store, if there is one. All dependencies up to it have to be in the buffer. -/
def findStore (rob : List RobEntry) (front : ℕ) : List ℕ → Option (Option (ℕ × RobEntry))
  | [] => some none
  | n :: ns =>
    match findEntry rob front n with
    | none => none
    | some p => if p.uop.isStore then some (some (n, p)) else findStore rob front ns

/-- A load depends on the producers of the stored value instead of the store, or nothing if an assertion fails. -/
def forward (rob : List RobEntry) (front : ℕ) (u : DynamicMicroOp) : Option DynamicMicroOp := do
  match ← findStore rob front u.getDependencies with
  | none => some u
  | some (n, p) =>
    let u ← u.removeDependency n
    p.uop.getDependencies.foldlM DynamicMicroOp.addDependency u

/-- The number of elements of `deps_to_remove`. -/
def removalCapacity : ℕ := 8

/-- The loop over the dependencies of a new entry. -/
structure Linking where
  rob : List RobEntry
  /-- `deps_to_remove`, as far as it is used. -/
  toRemove : List ℕ
  readyMax : Time

/-- `deps_to_remove[num_dtr++]`. -/
def Linking.remove (l : Linking) (dependency : ℕ) : Except Fault Linking :=
  if l.toRemove.length < removalCapacity then .ok { l with toRemove := l.toRemove ++ [dependency] }
  else .error .depsToRemove

/-- A dependency is resolved already, or its producer gets a dependant. -/
def link (front n : ℕ) (l : Linking) (dependency : ℕ) : Except Fault Linking :=
  match findEntry l.rob front dependency with
  | none => .error .assertion
  | some p =>
    if p.done ≠ ⊤ then { l with readyMax := max l.readyMax p.done }.remove dependency
    else .ok { l with rob := changeEntry l.rob front dependency fun p => { p with dependants := p.dependants ++ [n] } }

/-- The dependencies of a new entry, with the tables that know it. -/
def depend (cfg : Config) (s : RobTimer) (front : ℕ) (e : RobEntry) :
    Except Fault (RegisterDependencies × MemoryDependencies × DynamicMicroOp) := do
  let (registers, u) ← asserted (s.registerDependencies.setDependencies e.uop front)
  let (stores, u) ← asserted (s.memoryDependencies.setDependencies u front)
  let u ← asserted (if cfg.storeToLoadForwarding && u.isLoad then forward s.rob front u else some u)
  return (registers, stores, u)

/-- An entry is ready if no dependency is left after the loop. -/
def resolve (e : RobEntry) (u : DynamicMicroOp) (l : Linking) : Except Fault RobEntry := do
  let u ← asserted (l.toRemove.foldlM DynamicMicroOp.removeDependency u)
  return { e with
    uop := u, readyMax := l.readyMax, ready := if u.getDependenciesLength = 0 then l.readyMax else e.ready }

/-- A round of the first loop in `simulate`. -/
def enter (cfg : Config) (s : RobTimer) (u : DynamicMicroOp) : Except Fault RobTimer :=
  if u.squashed then .ok s
  else do
    let n := s.nextSequenceNumber
    let front := frontNumber s.rob n
    let e := setAddress s front (.init { u with sequenceNumber := n })
    let (registers, stores, u) ← depend cfg s front e
    let l ← u.getDependencies.foldlM (link front n) ⟨s.rob, [], e.readyMax⟩
    let e ← resolve e u l
    return { s with
      rob := l.rob ++ [e], nextSequenceNumber := n + 1
      registerDependencies := registers, memoryDependencies := stores
      dependencies := s.dependencies ++ [u.getDependencies] }

/-! ### Dispatch -/

/-- An entry is dispatched. -/
def dispatchEntry (e : RobEntry) (s : RobTimer) : RobTimer :=
  { s with
    rob := s.rob.set s.numInRob { e with dispatched := s.now, ready := max e.ready (s.now + 1 : ℕ) }
    numInRob := s.numInRob + 1
    rsEntriesUsed := s.rsEntriesUsed + 1
    log := s.log ++ [.dispatched e.uop.sequenceNumber s.now] }

/-- The loop of `doDispatch`, which runs once for each free place in the window at most. -/
def dispatchLoop (cfg : Config) : ℕ → ℕ → Time → RobTimer → RobTimer × Time
  | 0, _, next, s => (s, next)
  | places + 1, dispatched, next, s =>
    match s.rob[s.numInRob]? with
    | none => (s, next)
    | some e =>
      if dispatched = cfg.dispatchWidth then (s, next)
      else if e.uop.iCacheMiss ∧ s.inIcacheMiss = false then
        ({ s with frontendStalledUntil := (s.now + e.uop.iCacheLatency : ℕ), inIcacheMiss := true }, next)
      else
        let s := if e.uop.iCacheMiss then { s with inIcacheMiss := false } else s
        if s.rsEntriesUsed = cfg.rsEntries then (s, next)
        else
          -- a micro-op that is ready may have to issue in the next cycle
          let next := min next (max e.ready (s.now + 1 : ℕ))
          if e.uop.isBranch ∧ e.uop.branchMispredicted then
            ({ dispatchEntry e s with frontendStalledUntil := ⊤ }, next)
          else dispatchLoop cfg places (dispatched + 1) next (dispatchEntry e s)

/-- `doDispatch`. -/
def doDispatch (cfg : Config) (s : RobTimer) : RobTimer × Time :=
  let (s, next) :=
    if s.frontendStalledUntil ≤ s.now then dispatchLoop cfg (cfg.windowSize - s.numInRob) 0 ⊤ s else (s, ⊤)
  -- a full window waits for another event
  (s, if s.numInRob = cfg.windowSize then next else min s.frontendStalledUntil next)

/-! ### Issue -/

/-- An address producer of a store, while one of them issues. -/
def checkAddressProducer (rob : List RobEntry) (front n : ℕ) (depend : Time) (x : Time × Bool) (producer : ℕ) :
    Time × Bool :=
  match findEntry rob front producer with
  | none => x
  | some p => (if producer = n then max x.1 depend else x.1, x.2 && decide (p.done ≠ ⊤))

/-- A dependant of the micro-op `n`, whose result is available at `depend`. -/
def wake (n : ℕ) (depend : Time) (rob : List RobEntry) (dependant : ℕ) : List RobEntry :=
  let front := frontNumber rob dependant
  changeEntry rob front dependant fun e =>
    let u := dropDependency e.uop n
    let readyMax := max e.readyMax depend
    let ready := if u.getDependenciesLength = 0 then readyMax else e.ready
    if u.isStore ∧ e.addressReady = ⊤ then
      let (addressReadyMax, known) := e.addressProducers.foldl (checkAddressProducer rob front n depend)
        (e.addressReadyMax, true)
      { e with
        uop := u, readyMax := readyMax, ready := ready, addressReadyMax := addressReadyMax
        addressReady := if known then addressReadyMax else e.addressReady }
    else { e with uop := u, readyMax := readyMax, ready := ready }

/-- `issueInstruction`. -/
def issueInstruction (cfg : Config) (i : ℕ) (e : RobEntry) (s : RobTimer) : RobTimer × Time :=
  let u :=
    if (e.uop.isLoad || e.uop.isStore) && !e.uop.dCacheKnown then
      { e.uop with execLatency := (e.uop.execLatency + cfg.memory e.uop s.now) % 2 ^ 32, dCacheKnown := true }
    else e.uop
  let loadQueue := if u.isLoad then s.loadQueue.request s.now u.execLatency u.address else s.loadQueue
  let storeQueue := if !u.isLoad && u.isStore then s.storeQueue.request s.now u.execLatency u.address else s.storeQueue
  -- a store forwards its result and leaves the buffer before it is done
  let depend := if u.isStore then s.now + 1 else s.now + u.execLatency
  let done := if u.isStore then s.now + 1 else s.now + u.execLatency + 1
  let lastStoreDone := if u.isStore then max s.lastStoreDone (s.now + u.execLatency + 1) else s.lastStoreDone
  let rob := s.rob.set i { e with uop := u, issued := s.now, done := done }
  let stalled : Time :=
    if u.isBranch ∧ u.branchMispredicted then ((s.now + cfg.mispredictionPenalty - 2 : ℕ) : Time)
    else s.frontendStalledUntil
  ({ s with
      rob := e.dependants.foldl (wake u.sequenceNumber depend) rob
      rsEntriesUsed := s.rsEntriesUsed - 1
      frontendStalledUntil := stalled
      lastStoreDone := lastStoreDone
      loadQueue := loadQueue
      storeQueue := storeQueue
      aluUsedUntil := if cfg.issueContention ∧ u.alu then s.now + u.aluLatency else s.aluUsedUntil
      log := s.log ++ [.issued u.sequenceNumber s.now depend done] }, done)

/-- The local variables of `doIssue`, and the ports of the cycle. -/
structure IssueLocals where
  numIssued : ℕ
  nextEvent : Time
  headOfQueue : Bool
  noMoreLoad : Bool
  noMoreStore : Bool
  haveUnresolvedStore : Bool
  ports : Ports

/-- The start of `doIssue`. -/
def IssueLocals.init : IssueLocals := ⟨0, ⊤, true, false, false, false, .init⟩

/-- What becomes of an entry. -/
inductive Decision
  | issue
  | wait
  /-- The loop ends. -/
  | stop

/-- Whether an entry can issue, before structural hazards. -/
def canIssue (cfg : Config) (s : RobTimer) (e : RobEntry) (l : IssueLocals) : Decision × IssueLocals :=
  if s.now < e.ready then (.wait, l)
  else if (l.noMoreLoad && e.uop.isLoad) || (l.noMoreStore && e.uop.isStore) then (.wait, l)
  else if e.uop.isSerializing then
    if l.headOfQueue && decide (s.lastStoreDone ≤ s.now) then (.issue, l) else (.stop, l)
  else if e.uop.isMemBarrier then
    if l.headOfQueue && decide (s.lastStoreDone ≤ s.now) then (.issue, l)
    else (.wait, { l with noMoreLoad := true, noMoreStore := true })
  else if !cfg.issueContention && decide (l.numIssued = cfg.dispatchWidth) then (.wait, l)
  else if e.uop.isLoad && !s.loadQueue.hasFreeSlot s.now then (.wait, l)
  else if e.uop.isLoad && cfg.noAddressDisambiguation && l.haveUnresolvedStore then (.wait, l)
  else if e.uop.isStore && (!l.headOfQueue || !s.storeQueue.hasFreeSlot s.now) then (.wait, l)
  else (.issue, l)

/-- The structural hazards. -/
def tryIssue (cfg : Config) (s : RobTimer) (e : RobEntry) (x : Decision × IssueLocals) : Decision × IssueLocals :=
  match x.1 with
  | .issue =>
    if cfg.issueContention then
      let (free, ports) := x.2.ports.tryIssue e.uop s.aluUsedUntil s.now
      (if free then .issue else .wait, { x.2 with ports := ports })
    else x
  | _ => x

/-- Nothing more can issue in this cycle. -/
def noMore (cfg : Config) (l : IssueLocals) : Bool :=
  if cfg.issueContention then l.ports.noMore else decide (l.numIssued = cfg.dispatchWidth)

/-- The loop of `doIssue` from position `i` on. -/
def issueLoop (cfg : Config) : ℕ → ℕ → IssueLocals → RobTimer → RobTimer × IssueLocals
  | 0, _, l, s => (s, l)
  | n + 1, i, l, s =>
    match s.rob[i]? with
    | none => (s, l)
    | some e =>
      if e.done ≠ ⊤ then issueLoop cfg n (i + 1) { l with nextEvent := min l.nextEvent e.done } s
      else
        match tryIssue cfg s e (canIssue cfg s e { l with nextEvent := min l.nextEvent e.ready }) with
        | (.stop, l) => (s, l)
        | (.issue, l) =>
          let (s, done) := issueInstruction cfg i e s
          let l := { l with numIssued := l.numIssued + 1, nextEvent := min l.nextEvent done }
          if noMore cfg l then (s, l) else issueLoop cfg n (i + 1) l s
        | (.wait, l) =>
          let l := { l with
            headOfQueue := false
            haveUnresolvedStore := l.haveUnresolvedStore || (e.uop.isStore && decide (s.now < e.addressReady)) }
          if cfg.inorder || noMore cfg l then (s, l) else issueLoop cfg n (i + 1) l s

/-- `doIssue`. -/
def doIssue (cfg : Config) (s : RobTimer) : RobTimer × Time :=
  let (s, l) := issueLoop cfg s.numInRob 0 .init s
  (s, l.nextEvent)

/-! ### Commit -/

/-- The entry at the front is committed. -/
def commitEntry (e : RobEntry) (rest : List RobEntry) (s : RobTimer) : RobTimer :=
  { s with rob := rest, numInRob := s.numInRob - 1, log := s.log ++ [.committed e.uop.sequenceNumber s.now] }

/-- The loop of `doCommit` over the buffer. -/
def commitLoop (cfg : Config) : List RobEntry → ℕ → RobTimer → RobTimer
  | [], _, s => s
  | e :: rest, committed, s =>
    if e.done ≤ s.now then
      if committed + 1 = cfg.commitWidth then commitEntry e rest s
      else commitLoop cfg rest (committed + 1) (commitEntry e rest s)
    else s

/-- `doCommit`. -/
def doCommit (cfg : Config) (s : RobTimer) : RobTimer × Time :=
  let s := commitLoop cfg s.rob 0 s
  (s, (s.rob.head?.map RobEntry.done).getD ⊤)

/-! ### Cycles -/

/-- The three stages, and the next cycle in which one of them may have something to do. -/
def cycle (cfg : Config) (s : RobTimer) : RobTimer × Time :=
  let (s, nextDispatch) := doDispatch cfg s
  let (s, nextIssue) := doIssue cfg s
  let (s, nextCommit) := doCommit cfg s
  (s, min nextDispatch (min nextIssue nextCommit))

/-- There are not enough micro-ops to dispatch, and `execute` returns at once. -/
def RobTimer.Starved (cfg : Config) (s : RobTimer) : Prop :=
  s.frontendStalledUntil ≤ s.now ∧ s.rob.length < s.numInRob + 2 * cfg.dispatchWidth

instance (cfg : Config) (s : RobTimer) : Decidable (s.Starved cfg) := inferInstanceAs (Decidable (_ ∧ _))

/-- How time goes on at the end of `execute`: with or without skipping. -/
def advance (skipping : Bool) (now : ℕ) (nextEvent : Time) : ℕ :=
  match nextEvent with
  | ⊤ => now + 1
  | (next : ℕ) => if skipping ∧ now + 1 < next then next else now + 1

/-- `execute`. -/
def execute (cfg : Config) (skipping : Bool) (s : RobTimer) : RobTimer :=
  if s.Starved cfg then s
  else
    let (s, next) := cycle cfg s
    { s with now := advance skipping s.now next }

/-- What is called from outside: `simulate` enters its micro-ops and executes. -/
inductive Call
  | enter (u : DynamicMicroOp)
  | execute
  | synchronize (time : ℕ)

/-- One call. -/
def RobTimer.call (cfg : Config) (skipping : Bool) (s : RobTimer) : Call → Except Fault RobTimer
  | .enter u => enter cfg s u
  | .execute => .ok (Rob.execute cfg skipping s)
  | .synchronize time => .ok { s with now := time }

/-- The timer as a machine. -/
def timer (cfg : Config) (skipping : Bool) : Machine RobTimer Call Fault := ⟨RobTimer.call cfg skipping⟩

/-- The timer, and the micro-ops of later calls of `simulate`. -/
structure Simulation where
  timer : RobTimer
  calls : List (List DynamicMicroOp)

/-- The next call of `simulate` brings its micro-ops. After the last call nothing happens. -/
def Simulation.feed (cfg : Config) (x : Simulation) : Except Fault Simulation :=
  match x.calls with
  | [] => .ok x
  | uops :: calls => do
    let timer ← uops.foldlM (enter cfg) x.timer
    return ⟨timer, calls⟩

/-- `execute`, or the next call of `simulate` when the timer is starved. -/
def step (cfg : Config) (skipping : Bool) (x : Simulation) : Except Fault Simulation :=
  if x.timer.Starved cfg then x.feed cfg else .ok { x with timer := execute cfg skipping x.timer }

/-- The state of a simulation before the first call. -/
def Simulation.start (cfg : Config) (calls : List (List DynamicMicroOp)) : Simulation := ⟨.new cfg, calls⟩

/-- A simulation after a number of steps. It ends with a fault. -/
def simulation (cfg : Config) (skipping : Bool) (calls : List (List DynamicMicroOp)) (n : ℕ) : Except Fault Simulation :=
  (fun x => x >>= step cfg skipping)^[n] (.ok (.start cfg calls))

end LifeSim.Rob
