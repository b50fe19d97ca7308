import LifeSim.Interval.Contention
import LifeSim.Lib.LongestPath

/-!
# The window and the old window of the interval model

`windows.cc`: a ring of entries with the micro-ops that wait for dispatch, the window, and behind them those that have
been dispatched, the old window. The head and the tail of the critical path and what each kind of micro-op contributes
to it are kept as micro-ops come and go.

Times and sequence numbers are natural numbers. An entry that was never filled is read by the source only for the
dependencies of the first micro-op, which has none. Results of type `int` are reduced to 32 bits.
-/

namespace LifeSim.Interval

open LifeSim.Lib LifeSim.Rob

/-- `HitWhere::where_t`. -/
inductive HitWhere
  | whereFirst
  | l1i
  | l1Own
  | l2Own
  | l3Own
  | l4Own
  | miss
  | nucaCache
  | dramCache
  | dram
  | dramLocal
  | dramRemote
  | cacheRemote
  | sibling
  | l1Sibling
  | l2Sibling
  | l3Sibling
  | l4Sibling
  | unknown
  | predicateFalse
  | prefetchNoMapping
  deriving DecidableEq

instance : Fintype HitWhere where
  elems := {.whereFirst, .l1i, .l1Own, .l2Own, .l3Own, .l4Own, .miss, .nucaCache, .dramCache, .dram, .dramLocal,
    .dramRemote, .cacheRemote, .sibling, .l1Sibling, .l2Sibling, .l3Sibling, .l4Sibling, .unknown, .predicateFalse,
    .prefetchNoMapping}
  complete h := by cases h <;> decide

/-- `uop_subtype_t`. -/
inductive UopSubtype
  | fpAddSub
  | fpMulDiv
  | load
  | store
  | generic
  | branch
  deriving DecidableEq

/-- `CpContrType`. -/
inductive CpContrType
  | fpAddSub
  | fpMulDiv
  | loadL1
  | loadL2
  | loadL3
  | loadLX
  | store
  | generic
  | branch
  deriving DecidableEq

instance : Fintype CpContrType where
  elems := {.fpAddSub, .fpMulDiv, .loadL1, .loadL2, .loadL3, .loadLX, .store, .generic, .branch}
  complete t := by cases t <;> decide

/-- `DynamicMicroOp`, with what the interval model asks of it. It asks for the places of the hits themselves. -/
structure IntervalMicroOp extends DynamicMicroOp where
  subtype : UopSubtype
  isInterrupt : Bool
  isExecute : Bool
  isLast : Bool
  forceLongLatencyLoad : Bool
  iCacheHitWhere : HitWhere
  dCacheHitWhere : HitWhere
  /-- `getBypassLatency` of the core model. -/
  bypassLatency : ℕ
  period : ℕ

/-- What a micro-op waits for while the window is blocked. -/
inductive Dependent
  | noDep
  | dataDep
  | indepMiss
  deriving DecidableEq

/-- `WindowEntry`. The window index is the place of the entry in the ring. -/
structure WindowEntry where
  uop : IntervalMicroOp
  execTime : ℕ
  fetchTime : ℕ
  cpContr : ℕ
  icacheOverlap : Bool
  bpredOverlap : Bool
  dcacheOverlap : Bool
  dependent : Dependent

/-- `initialize`. -/
def WindowEntry.initializeWith (u : IntervalMicroOp) : WindowEntry := ⟨u, 0, 0, 0, false, false, false, .noDep⟩

namespace WindowEntry

variable (e : WindowEntry)

def setExecTime (time : ℕ) : WindowEntry := { e with execTime := time }

def setCpContr (cpContr : ℕ) : WindowEntry := { e with cpContr := cpContr }

/-- `clearDependent`, `setDataDependent` and `setIndependentMiss`. -/
def setDependent (dependent : Dependent) : WindowEntry := { e with dependent := dependent }

/-- `addOverlapFlag(ICACHE_OVERLAP)`. -/
def addIcacheOverlap : WindowEntry := { e with icacheOverlap := true }

/-- `addOverlapFlag(BPRED_OVERLAP)`. -/
def addBpredOverlap : WindowEntry := { e with bpredOverlap := true }

/-- `addOverlapFlag(DCACHE_OVERLAP)`. -/
def addDcacheOverlap : WindowEntry := { e with dcacheOverlap := true }

/-- `setExecLatency` and `setDCacheHitWhere`. -/
def setAnswer (execLatency : ℕ) (hitWhere : HitWhere) : WindowEntry :=
  { e with uop := { e.uop with execLatency := execLatency, dCacheHitWhere := hitWhere } }

end WindowEntry

/-- `getCpContrType`. -/
def getCpContrType (e : WindowEntry) : CpContrType :=
  match e.uop.subtype with
  | .fpAddSub => .fpAddSub
  | .fpMulDiv => .fpMulDiv
  | .load =>
    match e.uop.dCacheHitWhere with
    | .l1Own => .loadL1
    | .l2Own => .loadL2
    | .l1Sibling => .loadL2
    | .l2Sibling => .loadL2
    | .l3Own => .loadL3
    | .l3Sibling => .loadL3
    | _ => .loadLX
  | .store => .store
  | .generic => .generic
  | .branch => .branch

/-- A value as an `int`. -/
@[irreducible]
def toInt (n : ℕ) : ℤ := (n : ℤ).bmod (2 ^ 32)

theorem toInt_of_lt {n : ℕ} (hn : n < 2 ^ 31) : toInt n = n := by
  unfold toInt
  apply Int.bmod_eq_of_le_mul_two
  · norm_num
    omega
  · norm_num at hn ⊢
    omega

theorem toInt_lt (n : ℕ) : toInt n < 2 ^ 31 := by
  have hlt : (n : ℤ).bmod (2 ^ 32) < _ := Int.bmod_lt (by norm_num)
  unfold toInt
  norm_num at hlt ⊢
  exact hlt

/-- The size of the window, whose double is an `int`, whether there is contention for the ports, and the latency from
which on a load is a long one. -/
structure WindowsConfig where
  windowSize : ℕ
  doubleWindowSize_lt : 2 * windowSize < 2 ^ 31
  doFunctionalUnitContention : Bool
  longLatencyCutoff : ℕ
  longLatencyCutoff_lt : longLatencyCutoff < 2 ^ 32

/-- `Windows`. The head of the window is the tail of the old window. -/
structure Windows where
  doubleWindow : ℕ → WindowEntry
  execTimeMap : ℕ → ℕ
  nextSequenceNumber : ℕ
  registerDependencies : RegisterDependencies
  memoryDependencies : MemoryDependencies
  windowHead : ℕ
  windowTail : ℕ
  oldWindowHead : ℕ
  windowLength : ℕ
  oldWindowLength : ℕ
  criticalPathHead : ℕ
  criticalPathTail : ℕ
  cpcontrBytype : CpContrType → ℕ
  cpcontrTotal : ℕ
  contention : IntervalContentionNehalem

/-- Why the timer stops: an assertion, a division by zero, or an event that is not next. -/
inductive IntervalFault
  | assertion
  | divisionByZero
  | notNow
  deriving DecidableEq

/-- An entry that was never filled. -/
def WindowEntry.unfilled : WindowEntry :=
  .initializeWith
    { DynamicMicroOp.plain with
      subtype := .generic
      isInterrupt := false
      isExecute := true
      isLast := true
      forceLongLatencyLoad := false
      iCacheHitWhere := .l1i
      dCacheHitWhere := .unknown
      bypassLatency := 0
      period := 0 }

namespace Windows

/-- The constructor. -/
def new : Windows where
  doubleWindow := fun _ => .unfilled
  execTimeMap := fun _ => 0
  nextSequenceNumber := 0
  registerDependencies := fun _ => none
  memoryDependencies := ⟨[], none⟩
  windowHead := 0
  windowTail := 0
  oldWindowHead := 0
  windowLength := 0
  oldWindowLength := 0
  criticalPathHead := 0
  criticalPathTail := 0
  cpcontrBytype := fun _ => 0
  cpcontrTotal := 0
  contention := .clearFunctionalUnitStats

variable (cfg : WindowsConfig) (w : Windows)

/-! ### Indices -/

def incrementIndex (index : ℕ) : ℕ := (index + 1) % (2 * cfg.windowSize)

def decrementIndex (index : ℕ) : ℕ := (index + 2 * cfg.windowSize - 1) % (2 * cfg.windowSize)

def windowIndex (index : ℤ) : ℕ :=
  ((index.tmod (2 * cfg.windowSize) + 2 * cfg.windowSize).tmod (2 * cfg.windowSize)).toNat

/-- A change of one entry. -/
def modify (index : ℕ) (f : WindowEntry → WindowEntry) : Windows :=
  { w with doubleWindow := Function.update w.doubleWindow index (f (w.doubleWindow index)) }

def wIsFull : Bool := w.windowLength = cfg.windowSize

def wIsEmpty : Bool := w.windowLength = 0

/-! ### Contributions -/

def clearFunctionalUnitStats : Windows :=
  { w with
    cpcontrBytype := fun _ => 0
    cpcontrTotal := 0
    contention := .clearFunctionalUnitStats }

def addFunctionalUnitStats (e : WindowEntry) : Windows :=
  { w with
    cpcontrBytype := Function.update w.cpcontrBytype (getCpContrType e) (w.cpcontrBytype (getCpContrType e) + e.cpContr)
    cpcontrTotal := w.cpcontrTotal + e.cpContr
    contention := w.contention.addFunctionalUnitStats e.uop.toDynamicMicroOp }

def removeFunctionalUnitStats (e : WindowEntry) : Windows :=
  { w with
    cpcontrBytype := Function.update w.cpcontrBytype (getCpContrType e) (w.cpcontrBytype (getCpContrType e) - e.cpContr)
    cpcontrTotal := w.cpcontrTotal - e.cpContr
    contention := w.contention.removeFunctionalUnitStats e.uop.toDynamicMicroOp }

/-! ### Micro-ops come and go -/

/-- `add`, or nothing if an assertion fails. -/
def add (u : IntervalMicroOp) : Option Windows := do
  if w.wIsFull cfg then none
  let index := w.windowTail
  let u := { u with sequenceNumber := w.nextSequenceNumber }
  let w := { w with
    doubleWindow := Function.update w.doubleWindow index (.initializeWith u)
    windowTail := incrementIndex cfg w.windowTail
    windowLength := w.windowLength + 1
    nextSequenceNumber := w.nextSequenceNumber + 1 }
  let lowestValidSequenceNumber := (w.doubleWindow w.oldWindowHead).uop.sequenceNumber
  let (registers, v) ← w.registerDependencies.setDependencies u.toDynamicMicroOp lowestValidSequenceNumber
  let (memory, v) ← w.memoryDependencies.setDependencies v lowestValidSequenceNumber
  return { w with
    doubleWindow := Function.update w.doubleWindow index (.initializeWith { u with toDynamicMicroOp := v })
    registerDependencies := registers
    memoryDependencies := memory }

/-- The oldest micro-op leaves a full old window. -/
def retireOldest : Windows :=
  if w.oldWindowLength = cfg.windowSize then
    let oldest := w.doubleWindow w.oldWindowHead
    let w := w.removeFunctionalUnitStats oldest
    { w with
      criticalPathHead := max w.criticalPathHead oldest.execTime
      oldWindowHead := incrementIndex cfg w.oldWindowHead
      oldWindowLength := w.oldWindowLength - 1 }
  else w

/-- The micro-op at the head of the window enters the old window. -/
def enterOldWindow : Windows :=
  { w.addFunctionalUnitStats (w.doubleWindow w.windowHead) with
    windowHead := incrementIndex cfg w.windowHead
    windowLength := w.windowLength - 1
    oldWindowLength := w.oldWindowLength + 1 }

/-- `dispatchInstruction`. -/
def dispatchInstruction : Windows := (w.retireOldest cfg).enterOldWindow cfg

/-- `clearOldWindow`. -/
def clearOldWindow (newCpHead : ℕ) : Windows :=
  clearFunctionalUnitStats
    { w with
      criticalPathHead := newCpHead
      criticalPathTail := newCpHead
      oldWindowLength := 0
      oldWindowHead := w.windowHead }

/-! ### Looking for micro-ops -/

def windowContains (sequenceNumber : ℕ) : Bool :=
  decide ((w.doubleWindow w.windowHead).uop.sequenceNumber ≤ sequenceNumber) &&
    decide (sequenceNumber ≤ (w.doubleWindow (decrementIndex cfg w.windowTail)).uop.sequenceNumber)

def oldWindowContains (sequenceNumber : ℕ) : Bool :=
  decide ((w.doubleWindow w.oldWindowHead).uop.sequenceNumber ≤ sequenceNumber) &&
    decide (sequenceNumber ≤ (w.doubleWindow (decrementIndex cfg w.windowHead)).uop.sequenceNumber)

/-- `getInstruction`: the index of the micro-op. -/
def getInstruction (sequenceNumber : ℕ) : ℕ :=
  windowIndex cfg (w.windowHead - ((w.doubleWindow w.windowHead).uop.sequenceNumber - sequenceNumber : ℤ))

/-! ### The critical path -/

/-- The warning branch of `getCriticalPathLength` is taken. -/
def PathReversed : Prop := ¬ w.criticalPathHead ≤ w.criticalPathTail

instance : Decidable w.PathReversed := inferInstanceAs (Decidable (¬ _))

def getCriticalPathLength : ℤ :=
  if w.PathReversed then 0 else toInt (w.criticalPathTail - w.criticalPathHead)

/-- `getEffectiveCriticalPathLength`. Its argument is converted to 64 bits without sign. -/
def getEffectiveCriticalPathLength (criticalPathLength : ℤ) : ℕ :=
  let length := (criticalPathLength % 2 ^ 64).toNat
  if cfg.doFunctionalUnitContention then w.contention.getEffectiveCriticalPathLength length else length

/-- The source returns `true` where it means the extension. -/
def longLatencyOperationLatency (e : WindowEntry) : ℕ :=
  if e.execTime < w.criticalPathTail then 0
  else if e.execTime - w.criticalPathTail < cfg.longLatencyCutoff then 0
  else 1

/-- `updateCriticalPathTail` for the entry at an index. -/
def updateCriticalPathTail (index : ℕ) : Windows :=
  let execTime := (w.doubleWindow index).execTime
  if w.criticalPathTail < execTime then
    { w.modify index (·.setCpContr (execTime - w.criticalPathTail)) with criticalPathTail := execTime }
  else w

def getMinimalFlushLatency (width : ℕ) : ℕ := (w.oldWindowLength + (width - 1)) / width

/-- `getCpContrFraction`, with its assertion. -/
def getCpContrFraction (type : CpContrType) (effectiveCpLength : ℕ) : Except IntervalFault ℕ :=
  if w.cpcontrTotal < w.cpcontrBytype type then .error .assertion
  else if w.cpcontrTotal = 0 then .ok 0
  else if effectiveCpLength = 0 then .error .divisionByZero
  else .ok (1000000 * w.cpcontrBytype type / effectiveCpLength)

/-! ### The branch resolution latency -/

/-- The indices of the producers of a micro-op in the old window. -/
def oldProducers (index : ℕ) : List ℕ :=
  (((w.doubleWindow index).uop.getDependencies.filter (w.oldWindowContains cfg ·)).map (w.getInstruction cfg))

/-- The indices from one index backwards. -/
def backwards : ℕ → ℕ → List ℕ
  | _, 0 => []
  | index, n + 1 => index :: backwards (windowIndex cfg ((index : ℤ) - 1)) n

/-- The execution latency at an index. -/
def execLatencyAt (index : ℕ) : ℕ := (w.doubleWindow index).uop.execLatency

/-- A marked micro-op hands its path on to its producers and loses its mark. -/
def markProducersOf (x : Sweep ℕ) (i : ℕ) : Sweep ℕ :=
  if x.mark i = 0 then x
  else
    let execTimeMap := (w.oldProducers cfg i).foldl (fun execTimeMap producer =>
      Function.update execTimeMap producer
        (max ((w.execLatencyAt producer + execTimeMap i) % 2 ^ 32) (execTimeMap producer))) x.mark
    ⟨Function.update execTimeMap i 0, max x.longest (execTimeMap i)⟩

/-- `calculateBranchResolutionLatency`. -/
def calculateBranchResolutionLatency : Windows × ℤ :=
  let execTimeMap := (w.oldProducers cfg w.windowHead).foldl (fun execTimeMap producer =>
    Function.update execTimeMap producer (w.execLatencyAt producer)) w.execTimeMap
  let x := (backwards cfg (windowIndex cfg ((w.windowHead : ℤ) - 1)) w.oldWindowLength).foldl
    (w.markProducersOf cfg) ⟨execTimeMap, 0⟩
  ({ w with execTimeMap := x.mark }, toInt x.longest)

/-- It is a sweep over the old window. -/
theorem calculateBranchResolutionLatency_fst (w : Windows) : (w.calculateBranchResolutionLatency cfg).1 =
    { w with execTimeMap := (sweep (2 ^ 32) (w.oldProducers cfg) w.execLatencyAt w.windowHead
      (backwards cfg (windowIndex cfg ((w.windowHead : ℤ) - 1)) w.oldWindowLength) w.execTimeMap).mark } := rfl

theorem calculateBranchResolutionLatency_snd (w : Windows) : (w.calculateBranchResolutionLatency cfg).2 =
    toInt (sweep (2 ^ 32) (w.oldProducers cfg) w.execLatencyAt w.windowHead
      (backwards cfg (windowIndex cfg ((w.windowHead : ℤ) - 1)) w.oldWindowLength) w.execTimeMap).longest := rfl

end Windows

end LifeSim.Interval
