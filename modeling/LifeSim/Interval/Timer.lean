import LifeSim.Interval.Windows
import LifeSim.Lib.Machine

/-!
# The interval timer

`interval_timer.cc` as a machine. `simulate` adds micro-ops to the window, and while the window is full it calls
`dispatchWindow`, whose cycle begins with a dispatch rate, dispatches micro-ops one after the other and finishes with the
latency of the cycle. The clock period may change between micro-ops. The memory hierarchy is a sequence of answers.

Times, latencies and periods are natural numbers, and the completion times of the load and store contention are kept in
femtoseconds as in the source. Statistics are left out, except for the counters of the CPI stack.
-/

namespace LifeSim.Interval

open LifeSim.Lib LifeSim.Rob

/-- `MemoryResult`. -/
structure MemoryResult where
  latency : ℕ
  hitWhere : HitWhere

/-- The parameters of the timer, and what the memory hierarchy answers. -/
structure IntervalConfig extends WindowsConfig where
  dispatchWidth : ℕ
  branchMispredictionPenalty : ℕ
  memDepMask : BitVec 64
  lllDepMask : BitVec 64
  numOutstandingLoadstores : ℕ
  memory : ℕ → MemoryResult

/-- `IntervalTimer`, with the number of memory answers so far and the sum of the latencies that `simulate` has returned.
-/
structure IntervalTimer where
  windows : Windows
  /-- In units of `2 ^ -14`. -/
  remainingDispatchBandwidth : ℕ
  maxStoreCompletionTime : ℕ
  maxLoadCompletionTime : ℕ
  loadstoreContention : ContentionModel
  period : ℕ
  answers : ℕ
  cpiBase : ℕ
  cpiBranchPredictor : ℕ
  cpiSerialization : ℕ
  cpiLongLatency : ℕ
  cpiInstructionCache : HitWhere → ℕ
  cpiDataCache : HitWhere → ℕ
  totalLatency : ℕ

/-- `FixedPoint::m_one`. -/
def fixedPointOne : ℕ := 2 ^ 14

/-- `SubsecondTime::divideRounded`. -/
def divideRounded (time period : ℕ) : ℕ := (time + (period / 2 + 1)) / period

/-- `isLongLatencyLoad`. -/
def isLongLatencyLoad (cfg : WindowsConfig) (u : IntervalMicroOp) : Bool :=
  u.forceLongLatencyLoad || (decide (0 < cfg.longLatencyCutoff) && decide (cfg.longLatencyCutoff < u.execLatency))

/-! ### Loads and stores in flight -/

/-- `getCompletionTime` in femtoseconds. -/
def completionTime (c : ContentionModel) (start delay : ℕ) : ContentionModel × ℕ :=
  let result :=
    match c.slots with
    | [] => start + delay
    | slot :: _ =>
      if start = 0 then delay
      else if start < c.last then start + delay
      else max start (c.slots.getD (ContentionModel.findUnit start c.slots 0 0 slot.1) (0, 0)).1 + delay
  (c.request start delay 0, result)

/-- `getBarrierCompletionTime` in femtoseconds. -/
def barrierCompletionTime (c : ContentionModel) (start delay : ℕ) : ContentionModel × ℕ :=
  let maxTime := c.slots.foldl (fun max slot => if max < slot.1 then slot.1 else max) start
  ({ c with slots := c.slots.map fun _ => (maxTime + delay, 0) }, maxTime + delay)

namespace IntervalTimer

/-- The constructor. -/
def new (cfg : IntervalConfig) (period : ℕ) : IntervalTimer where
  windows := .new
  remainingDispatchBandwidth := 0
  maxStoreCompletionTime := 0
  maxLoadCompletionTime := 0
  loadstoreContention := .new cfg.numOutstandingLoadstores
  period := period
  answers := 0
  cpiBase := 0
  cpiBranchPredictor := 0
  cpiSerialization := 0
  cpiLongLatency := 0
  cpiInstructionCache := fun _ => 0
  cpiDataCache := fun _ => 0
  totalLatency := 0

variable (cfg : IntervalConfig) (t : IntervalTimer)

/-- The entry at an index. -/
def entry (index : ℕ) : WindowEntry := t.windows.doubleWindow index

def setWindows (w : Windows) : IntervalTimer := { t with windows := w }

def modify (index : ℕ) (f : WindowEntry → WindowEntry) : IntervalTimer := t.setWindows (t.windows.modify index f)

/-! ### The CPI stack -/

def chargeBase (amount : ℕ) : IntervalTimer := { t with cpiBase := t.cpiBase + amount }

def chargeBranchPredictor (amount : ℕ) : IntervalTimer :=
  { t with cpiBranchPredictor := t.cpiBranchPredictor + amount }

def chargeSerialization (amount : ℕ) : IntervalTimer := { t with cpiSerialization := t.cpiSerialization + amount }

def chargeLongLatency (amount : ℕ) : IntervalTimer := { t with cpiLongLatency := t.cpiLongLatency + amount }

def chargeInstructionCache (place : HitWhere) (amount : ℕ) : IntervalTimer :=
  { t with cpiInstructionCache :=
      Function.update t.cpiInstructionCache place (t.cpiInstructionCache place + amount) }

def chargeDataCache (place : HitWhere) (amount : ℕ) : IntervalTimer :=
  { t with cpiDataCache := Function.update t.cpiDataCache place (t.cpiDataCache place + amount) }

/-- A latency that `dispatchWindow` returns to `simulate`. -/
def returnLatency (latency : ℕ) : IntervalTimer := { t with totalLatency := t.totalLatency + latency }

/-! ### Loads and producers -/

/-- The completion time of a load in cycles. A load with a memory barrier waits for all others. -/
def loadCompletionTime (barrier : Bool) (start delay : ℕ) : IntervalTimer × ℕ :=
  let (contention, result) :=
    if barrier then barrierCompletionTime t.loadstoreContention (start * t.period) (delay * t.period)
    else completionTime t.loadstoreContention (start * t.period) (delay * t.period)
  ({ t with loadstoreContention := contention }, result / t.period)

/-- `issueMemOp`. -/
def issueMemOp (index : ℕ) : IntervalTimer :=
  let u := (t.entry index).uop
  if (u.isLoad || u.isStore) && decide (u.dCacheHitWhere = .unknown) then
    let res := cfg.memory t.answers
    let latency := divideRounded res.latency t.period
    { t.modify index (·.setAnswer ((u.execLatency + latency) % 2 ^ 32) res.hitWhere) with answers := t.answers + 1 }
  else t

/-- `getMaxProducerExecTime`. Times may be negative where they are compared. -/
def getMaxProducerExecTime (w : Windows) (index : ℕ) : ℕ :=
  let oldest := w.doubleWindow w.oldWindowHead
  let oldestStartTime : ℤ := oldest.execTime - oldest.uop.execLatency
  let relativeFetchTime : ℤ := (w.doubleWindow index).fetchTime - oldest.fetchTime
  ((w.oldProducers cfg.toWindowsConfig index).foldl (fun maxProducerExecTime producer =>
    let e := w.doubleWindow producer
    let producerStartTime : ℤ := e.execTime - e.uop.execLatency
    let relativeStartTime := producerStartTime - oldestStartTime
    let producerExecTime : ℤ :=
      if relativeStartTime < relativeFetchTime then e.execTime + (relativeFetchTime - max 0 relativeStartTime)
      else e.execTime
    max maxProducerExecTime producerExecTime) (0 : ℤ)).toNat

/-! ### A long-latency load blocks the window -/

/-- The micro-op depends on one that does not complete under the load at the head of the window. -/
def dependsOnMiss (w : Windows) (index : ℕ) : Bool :=
  (w.doubleWindow index).uop.getDependencies.any fun d =>
    w.windowContains cfg.toWindowsConfig d &&
      let dependee := w.doubleWindow (w.getInstruction cfg.toWindowsConfig d)
      decide (dependee.dependent = .dataDep) ||
        decide (dependee.dependent = .indepMiss) && isLongLatencyLoad cfg.toWindowsConfig dependee.uop

/-- A load is overlapped, unless it is already. -/
def overlapLoad (index : ℕ) : IntervalTimer :=
  if (t.entry index).dcacheOverlap then t
  else
    let t := (t.modify index (·.addDcacheOverlap)).issueMemOp cfg index
    t.modify index fun e => (e.setDependent .indepMiss).setExecTime t.windows.criticalPathHead

/-- What a micro-op behind the load depends on. -/
def markDependent (headAddress : BitVec 64) (index : ℕ) : IntervalTimer :=
  if dependsOnMiss cfg t.windows index ||
      (t.entry index).uop.isLoad && decide ((t.entry index).uop.phys &&& cfg.lllDepMask = headAddress) then
    t.modify index (·.setDependent .dataDep)
  else t

/-- The branches and loads that are hidden. -/
def markOverlap (memBarrierPending : Bool) (index : ℕ) : IntervalTimer :=
  if (t.entry index).uop.isBranch && decide ((t.entry index).dependent ≠ .dataDep) then
    t.modify index (·.addBpredOverlap)
  else if (t.entry index).uop.isLoad && decide ((t.entry index).dependent ≠ .dataDep) && !memBarrierPending then
    t.overlapLoad cfg index
  else t

/-- The loop of `blockWindow` from an index to the tail of the window. It takes no more rounds than there are places. -/
def blockFrom (headAddress : BitVec 64) : ℕ → ℕ → Bool → IntervalTimer → IntervalTimer
  | 0, _, _, t => t
  | rounds + 1, index, memBarrierPending, t =>
    if index = t.windows.windowTail then t
    else
      let t := t.modify index fun e => (e.setDependent .noDep).addIcacheOverlap
      if (t.entry index).uop.isSerializing then t
      else
        let memBarrierPending := memBarrierPending || (t.entry index).uop.isMemBarrier
        let t := (t.markDependent cfg headAddress index).markOverlap cfg memBarrierPending index
        blockFrom headAddress rounds (Windows.incrementIndex cfg.toWindowsConfig index) memBarrierPending t

/-- `blockWindow`. -/
def blockWindow : IntervalTimer :=
  let head := t.windows.windowHead
  let t := t.modify head (·.setDependent .indepMiss)
  let headAddress := (if (t.entry head).uop.isLoad then (t.entry head).uop.phys else 0) &&& cfg.lllDepMask
  t.blockFrom cfg headAddress (2 * cfg.windowSize) (Windows.incrementIndex cfg.toWindowsConfig head) false

end IntervalTimer

/-! ### Dispatching a micro-op -/

/-- The timer while it dispatches a micro-op, with the latency of the micro-op, and whether the cycle ends with it. -/
structure Dispatch where
  timer : IntervalTimer
  latency : ℕ
  stop : Bool

namespace Dispatch

variable (cfg : IntervalConfig) (d : Dispatch)

/-- The micro-op that is dispatched. -/
def microOp : WindowEntry := d.timer.entry d.timer.windows.windowHead

/-- A function of the timer. -/
def mapTimer (f : IntervalTimer → IntervalTimer) : Dispatch := { d with timer := f d.timer }

def setExecTime (execTime : ℕ) : Dispatch := d.mapTimer fun t => t.modify t.windows.windowHead (·.setExecTime execTime)

def clearOldWindow (newCpHead : ℕ) : Dispatch := d.mapTimer fun t => t.setWindows (t.windows.clearOldWindow newCpHead)

/-- More latency for the micro-op. -/
def addLatency (latency : ℕ) : Dispatch := { d with latency := d.latency + latency }

/-- A reason to stop dispatching. -/
def stopDispatch : Dispatch := { d with stop := true }

/-- `updateCriticalPath`. -/
def updateCriticalPath : Dispatch :=
  let lll := d.timer.windows.longLatencyOperationLatency cfg.toWindowsConfig d.microOp
  if lll = 0 then d.mapTimer fun t => t.setWindows (t.windows.updateCriticalPathTail t.windows.windowHead)
  else
    let execTime := d.microOp.execTime
    let charge := lll * d.microOp.uop.period
    ((d.addLatency lll).mapTimer (·.chargeLongLatency charge)).clearOldWindow execTime

/-- An instruction cache miss, unless it is hidden. The tail of the critical path is the one from before. -/
def instructionCache (cptail : ℕ) : Dispatch :=
  let u := d.microOp.uop
  if decide (u.iCacheHitWhere ≠ .l1i) && !d.microOp.icacheOverlap then
    let d := ((d.addLatency u.iCacheLatency).clearOldWindow (cptail + u.iCacheLatency)).stopDispatch
    d.mapTimer (·.chargeInstructionCache u.iCacheHitWhere (u.iCacheLatency * u.period))
  else d

/-- `calculateBranchResolutionLatency`, with the misprediction penalty. The sum has 32 bits. -/
def bpredLatency : ℕ :=
  let resolution := (d.timer.windows.calculateBranchResolutionLatency cfg.toWindowsConfig).2
  ((cfg.branchMispredictionPenalty + resolution) % 2 ^ 32).toNat

/-- The scratch array of `calculateBranchResolutionLatency`. -/
def resolveBranch : Dispatch :=
  d.mapTimer fun t => t.setWindows (t.windows.calculateBranchResolutionLatency cfg.toWindowsConfig).1

/-- A mispredicted branch, unless it is hidden. -/
def branchPredictor (cptail : ℕ) : Dispatch :=
  let u := d.microOp.uop
  if u.isBranch && u.branchMispredicted && !d.microOp.bpredOverlap then
    let latency := d.bpredLatency cfg
    let d := (((d.resolveBranch cfg).addLatency latency).clearOldWindow (cptail + latency)).stopDispatch
    d.mapTimer (·.chargeBranchPredictor (latency * u.period))
  else d

/-- A serializing micro-op or an interrupt waits for the old window. -/
def serialize : Dispatch :=
  let w := d.timer.windows
  let u := d.microOp.uop
  let flushLatency := (max w.getCriticalPathLength (w.getMinimalFlushLatency cfg.dispatchWidth)).toNat
  let latency := flushLatency + u.execLatency
  let d := (d.addLatency latency).mapTimer (·.chargeSerialization (latency * u.period))
  (d.setExecTime w.criticalPathTail).clearOldWindow w.criticalPathTail

/-- A memory barrier waits for all loads and stores. -/
def memBarrier (maxProducerExecTime : ℕ) : Dispatch :=
  let cycleToWaitUntil := max maxProducerExecTime (max d.timer.maxStoreCompletionTime d.timer.maxLoadCompletionTime)
  (d.setExecTime (cycleToWaitUntil + d.microOp.uop.execLatency)).updateCriticalPath cfg

/-- The cycle in which a micro-op can be scheduled. -/
def dispatchCycle (maxProducerExecTime : ℕ) : ℕ := max maxProducerExecTime d.timer.windows.criticalPathHead

/-- `getCompletionTime` or `getBarrierCompletionTime` for the load. -/
def completeLoad (maxProducerExecTime : ℕ) : IntervalTimer × ℕ :=
  d.timer.loadCompletionTime d.microOp.uop.isMemBarrier (d.dispatchCycle maxProducerExecTime) d.microOp.uop.execLatency

/-- The load takes part in the contention. -/
def contend (maxProducerExecTime : ℕ) : Dispatch := { d with timer := (d.completeLoad maxProducerExecTime).1 }

/-- What the contention adds to a long-latency load, its own latency included. -/
def longLatencyLoadLatency (maxProducerExecTime : ℕ) : ℕ :=
  (d.completeLoad maxProducerExecTime).2 - d.dispatchCycle maxProducerExecTime

/-- The time of a long-latency load goes by. -/
def passLoad (maxProducerExecTime : ℕ) : Dispatch :=
  let cptail := d.timer.windows.criticalPathTail
  let latency := d.longLatencyLoadLatency maxProducerExecTime
  (((d.contend maxProducerExecTime).addLatency latency).setExecTime cptail).clearOldWindow (cptail + latency)

/-- A long-latency load blocks the window. -/
def longLatencyLoad (maxProducerExecTime : ℕ) : Dispatch :=
  let u := d.microOp.uop
  let charge := d.longLatencyLoadLatency maxProducerExecTime * u.period
  ((d.passLoad maxProducerExecTime).mapTimer (·.blockWindow cfg)).mapTimer (·.chargeDataCache u.dCacheHitWhere charge)

/-- Another load. -/
def shortLoad (maxProducerExecTime : ℕ) : Dispatch :=
  ((d.contend maxProducerExecTime).setExecTime (d.completeLoad maxProducerExecTime).2).updateCriticalPath cfg

/-- A load, which has nothing to do if it is overlapped. -/
def accessLoad (maxProducerExecTime : ℕ) : Dispatch :=
  if d.microOp.dcacheOverlap then d
  else if isLongLatencyLoad cfg.toWindowsConfig d.microOp.uop then d.longLatencyLoad cfg maxProducerExecTime
  else d.shortLoad cfg maxProducerExecTime

/-- A load, with the time when the last one completes. -/
def load (maxProducerExecTime : ℕ) : Dispatch :=
  let d := d.accessLoad cfg maxProducerExecTime
  d.mapTimer fun t => { t with maxLoadCompletionTime := max t.maxLoadCompletionTime d.microOp.execTime }

/-- A store. -/
def store (maxProducerExecTime : ℕ) : Dispatch :=
  let schedCycle := d.dispatchCycle maxProducerExecTime
  let u := d.microOp.uop
  ((d.setExecTime (schedCycle + u.bypassLatency + 1)).updateCriticalPath cfg).mapTimer fun t => { t with
    maxStoreCompletionTime := max t.maxStoreCompletionTime (schedCycle + u.execLatency) }

/-- Any other micro-op. -/
def execute (maxProducerExecTime : ℕ) : Dispatch :=
  (d.setExecTime (d.dispatchCycle maxProducerExecTime + d.microOp.uop.execLatency)).updateCriticalPath cfg

/-- What comes after the front end. -/
def backEnd (maxProducerExecTime : ℕ) : Dispatch :=
  let u := d.microOp.uop
  if u.isSerializing || u.isInterrupt then d.serialize cfg
  else if u.isExecute && u.isMemBarrier then d.memBarrier cfg maxProducerExecTime
  else if u.isLoad then d.load cfg maxProducerExecTime
  else if u.isStore then d.store cfg maxProducerExecTime
  else d.execute cfg maxProducerExecTime

/-- What a micro-op waits for before it is executed. -/
def frontEnd (cptail : ℕ) : Dispatch := (d.instructionCache cptail).branchPredictor cfg cptail

end Dispatch

namespace IntervalTimer

variable (cfg : IntervalConfig) (t : IntervalTimer)

/-- `IntervalTimer::dispatchInstruction`. -/
def dispatchInstruction : Dispatch :=
  let t := t.issueMemOp cfg t.windows.windowHead
  let maxProducerExecTime := getMaxProducerExecTime cfg t.windows t.windows.windowHead
  let d : Dispatch := ⟨t, 0, false⟩
  (d.frontEnd cfg t.windows.criticalPathTail).backEnd cfg maxProducerExecTime

/-- `calculateCurrentDispatchRate`. -/
def calculateCurrentDispatchRate : IntervalTimer × ℕ :=
  let criticalPathLength := t.windows.getCriticalPathLength
  if 0 < criticalPathLength then
    let effective := t.windows.getEffectiveCriticalPathLength cfg.toWindowsConfig criticalPathLength
    let ipc := fixedPointOne * t.windows.oldWindowLength / effective + t.remainingDispatchBandwidth
    let dispatchRate := ipc / fixedPointOne
    let remaining := if dispatchRate < cfg.dispatchWidth then ipc - fixedPointOne * dispatchRate else 0
    ({ t with remainingDispatchBandwidth := remaining }, dispatchRate)
  else ({ t with remainingDispatchBandwidth := 0 }, cfg.dispatchWidth)

/-- The fractions of the critical path that `dispatchWindow` adds to its statistics. -/
def cpContrFractions : Except IntervalFault Unit :=
  let criticalPathLength := t.windows.getCriticalPathLength
  let effective := toInt (t.windows.getEffectiveCriticalPathLength cfg.toWindowsConfig criticalPathLength)
  [CpContrType.fpAddSub, .fpMulDiv, .loadL1, .loadL2, .loadL3, .loadLX, .store, .generic, .branch].forM fun type => do
    let _ ← t.windows.getCpContrFraction type (effective % 2 ^ 64).toNat

end IntervalTimer

/-! ### The machine -/

/-- The variables of `dispatchWindow`. -/
structure Cycle where
  dispatchRate : ℕ
  instructionsExecuted : ℕ
  microOpsExecuted : ℕ
  latency : ℕ
  stop : Bool
  microOpPeriod : ℕ

/-- The timer, and the cycle that it is in. -/
structure IntervalState where
  timer : IntervalTimer
  cycle : Option Cycle

/-- The next micro-op of `simulate`, a new clock period, and the parts of `dispatchWindow`. -/
inductive IntervalEvent
  | add (u : IntervalMicroOp)
  | setPeriod (period : ℕ)
  | begin
  | dispatch
  | finish

/-- The condition of the loop of `dispatchWindow`. -/
def Cycle.goesOn (cfg : IntervalConfig) (c : Cycle) (w : Windows) : Bool :=
  !w.wIsEmpty && decide (c.instructionsExecuted < cfg.dispatchWidth) &&
    decide (c.microOpsExecuted < c.dispatchRate) && !c.stop

/-- Loads and stores get the granularity of memory dependencies. -/
def maskAddress (cfg : IntervalConfig) (u : IntervalMicroOp) : IntervalMicroOp :=
  if u.isLoad || u.isStore then
    { u with address := u.address &&& cfg.memDepMask, phys := u.phys &&& cfg.memDepMask }
  else u

/-- One round of the loop of `dispatchWindow`. -/
def dispatchRound (cfg : IntervalConfig) (t : IntervalTimer) (c : Cycle) : IntervalState :=
  let d := t.dispatchInstruction cfg
  let u := d.microOp.uop
  { timer := d.timer.setWindows (d.timer.windows.dispatchInstruction cfg.toWindowsConfig)
    cycle := some
      { c with
        latency := c.latency + d.latency
        stop := d.stop
        microOpsExecuted := c.microOpsExecuted + 1
        instructionsExecuted := if u.isLast then c.instructionsExecuted + 1 else c.instructionsExecuted
        microOpPeriod := u.period } }

/-- The end of `dispatchWindow`. A cycle takes at least one cycle. -/
def finishCycle (cfg : IntervalConfig) (t : IntervalTimer) (c : Cycle) : Except IntervalFault IntervalTimer :=
  if c.latency = 0 then
    let checked := if c.dispatchRate ≤ c.microOpsExecuted then t.cpContrFractions cfg else .ok ()
    checked.map fun _ => (t.chargeBase c.microOpPeriod).returnLatency 1
  else .ok (t.returnLatency c.latency)

/-- The machine. An event that is not next in the source is refused. -/
def intervalMachine (cfg : IntervalConfig) : Machine IntervalState IntervalEvent IntervalFault where
  step s
    | .add u =>
      match s.cycle with
      | some _ => .error .notNow
      | none =>
        if s.timer.windows.wIsFull cfg.toWindowsConfig then .error .notNow
        else if u.squashed then .ok s
        else
          match s.timer.windows.add cfg.toWindowsConfig (maskAddress cfg u) with
          | none => .error .assertion
          | some w => .ok ⟨s.timer.setWindows w, none⟩
    | .setPeriod period =>
      match s.cycle with
      | some _ => .error .notNow
      | none => .ok ⟨{ s.timer with period := period }, none⟩
    | .begin =>
      match s.cycle with
      | some _ => .error .notNow
      | none =>
        if s.timer.windows.wIsFull cfg.toWindowsConfig then
          let (t, dispatchRate) := s.timer.calculateCurrentDispatchRate cfg
          .ok ⟨t, some ⟨dispatchRate, 0, 0, 0, false, t.period⟩⟩
        else .error .notNow
    | .dispatch =>
      match s.cycle with
      | none => .error .notNow
      | some c => if c.goesOn cfg s.timer.windows then .ok (dispatchRound cfg s.timer c) else .error .notNow
    | .finish =>
      match s.cycle with
      | none => .error .notNow
      | some c =>
        if c.goesOn cfg s.timer.windows then .error .notNow else (finishCycle cfg s.timer c).map fun t => ⟨t, none⟩

/-- Before the first micro-op. -/
def IntervalState.start (cfg : IntervalConfig) (period : ℕ) : IntervalState := ⟨.new cfg period, none⟩

section Steps

variable {cfg : IntervalConfig} {s s' : IntervalState}

/-- A micro-op is added between two cycles, unless it is squashed. -/
theorem step_add {u : IntervalMicroOp} (h : (intervalMachine cfg).step s (.add u) = .ok s') : s.cycle = none ∧
    (s' = s ∨ ∃ w, s.timer.windows.add cfg.toWindowsConfig (maskAddress cfg u) = some w ∧
      s' = ⟨s.timer.setWindows w, none⟩) := by
  simp only [intervalMachine] at h
  split at h
  · cases h
  · rename_i hidle
    refine ⟨hidle, ?_⟩
    split_ifs at h
    · cases h
      exact .inl rfl
    · split at h
      · cases h
      · rename_i w hadd
        cases h
        exact .inr ⟨w, hadd, rfl⟩

theorem step_setPeriod {period : ℕ} (h : (intervalMachine cfg).step s (.setPeriod period) = .ok s') :
    s.cycle = none ∧ s' = ⟨{ s.timer with period := period }, none⟩ := by
  simp only [intervalMachine] at h
  split at h
  · cases h
  · rename_i hidle
    cases h
    exact ⟨hidle, rfl⟩

theorem step_begin (h : (intervalMachine cfg).step s .begin = .ok s') : s.cycle = none ∧
    s.timer.windows.wIsFull cfg.toWindowsConfig = true ∧
    s' = ⟨(s.timer.calculateCurrentDispatchRate cfg).1, some ⟨(s.timer.calculateCurrentDispatchRate cfg).2, 0, 0, 0,
      false, (s.timer.calculateCurrentDispatchRate cfg).1.period⟩⟩ := by
  simp only [intervalMachine] at h
  split at h
  · cases h
  · rename_i hidle
    split_ifs at h with hfull
    cases h
    exact ⟨hidle, hfull, rfl⟩

theorem step_dispatch (h : (intervalMachine cfg).step s .dispatch = .ok s') :
    ∃ c, s.cycle = some c ∧ c.goesOn cfg s.timer.windows = true ∧ s' = dispatchRound cfg s.timer c := by
  simp only [intervalMachine] at h
  split at h
  · cases h
  · rename_i c hc
    split_ifs at h with hgoes
    cases h
    exact ⟨c, hc, hgoes, rfl⟩

theorem step_finish (h : (intervalMachine cfg).step s .finish = .ok s') :
    ∃ c t, s.cycle = some c ∧ ¬ c.goesOn cfg s.timer.windows = true ∧ finishCycle cfg s.timer c = .ok t ∧
      s' = ⟨t, none⟩ := by
  simp only [intervalMachine] at h
  split at h
  · cases h
  · rename_i c hc
    split_ifs at h with hgoes
    cases hfinish : finishCycle cfg s.timer c with
    | error f =>
      rw [hfinish] at h
      cases h
    | ok t =>
      rw [hfinish] at h
      cases h
      exact ⟨c, t, hc, hgoes, hfinish, rfl⟩

end Steps

end LifeSim.Interval
