import LifeSim.Sched.Reschedule

/-!
# Affinities: `sched_setaffinity`, yielding and the first core of a thread

The operations of `SchedulerPinnedBase` on affinity masks, and the two ways a thread gets
its first affinity: `SchedulerPinned` hands out cores in round-robin fashion or reads them
from the mapping file, `SchedulerBigSmall` starts every thread on the small cores and later
promotes some of them. `clock` gives the time on each core when the event is handled.

The two searches of `SchedulerPinned` over the cores carry a bound: the next core depends
on the present one only, so a search that has seen more cores than there are is in a cycle.
-/

namespace LifeSim.Sched

open LifeSim.Lib

/-- `SchedulerPinnedBase::threadYield`. -/
def threadYield (cfg : Config) (clock : ℕ → ℕ) (s : Sim) (t : ℕ) : Except Fault Sim :=
  if t < s.info.size then
    match (s.info.get t).coreRunning with
    | none => .ok s
    | some core => do
      let s ← reschedule cfg (s.setQuantum core 0) (clock core) core
      if (s.info.get t).affinity core then .ok s
      else match findFreeCoreForThread cfg s t with
        | some free => reschedule cfg s (clock core) free
        | none => .ok s
  else .error .bounds

/-- The loop of `threadSetAffinity` over the cores of the mask. -/
def addAffinities (cfg : Config) (s : Sim) (t : ℕ) (mask : List ℕ) : Except Fault Sim :=
  mask.foldlM (fun s cpu =>
    if cpu < cfg.numCores then .ok (s.modifyInfo t fun i => i.addAffinity cpu)
    else .error .invalidMask) s

/-- The first part of `threadSetAffinity`: record the new affinity. No mask means every core,
on top of what the thread already had. -/
def recordAffinity (cfg : Config) (s : Sim) (t : ℕ) (mask : Option (List ℕ)) : Except Fault Sim :=
  let s := if s.info.size ≤ t then { s with info := s.info.resize (t + 16) .fresh } else s
  let s := s.modifyInfo t fun i => { i with explicitAffinity := true }
  match mask with
  | none => addAffinities cfg s t (List.range cfg.numCores)
  | some mask => addAffinities cfg (s.modifyInfo t ThreadInfo.clearAffinity) t mask

/-- Act on a new affinity of a thread that did not ask for it itself: end its quantum if it runs
elsewhere, schedule it if it waits and one of its cores is free. -/
def applyAffinity (cfg : Config) (clock : ℕ → ℕ) (s : Sim) (t : ℕ) : Except Fault Sim :=
  match (s.info.get t).coreRunning with
  | some core =>
    if (s.info.get t).affinity core then
      if t < s.runnable.size then .ok s else .error .bounds
    else .ok (s.setQuantum core 0)
  | none =>
    if t < s.runnable.size then
      if s.runnable.get t then
        match findFreeCoreForThread cfg s t with
        | some core => reschedule cfg s (clock core) core
        | none => .ok s
      else .ok s
    else .error .bounds

/-- `SchedulerPinnedBase::threadSetAffinity`; no calling thread stands for `INVALID_THREAD_ID`. -/
def threadSetAffinity (cfg : Config) (clock : ℕ → ℕ) (s : Sim) (calling : Option ℕ) (t : ℕ)
    (mask : Option (List ℕ)) : Except Fault Sim := do
  let s ← recordAffinity cfg s t mask
  if s.numThreads ≤ t then .ok s
  else if calling = some t then threadYield cfg clock s t
  else applyAffinity cfg clock s t

/-- One round of `SchedulerPinned::getNextCore`. -/
def advanceCore (cfg : Config) (core : ℕ) : ℕ :=
  if cfg.numCores ≤ core + cfg.interleaving then
    ((core + cfg.interleaving) % cfg.numCores + 1) % cfg.interleaving
  else core + cfg.interleaving

/-- `SchedulerPinned::getNextCore`, with a bound on the number of rounds. -/
def getNextCore (cfg : Config) : ℕ → ℕ → Except Fault ℕ
  | 0, _ => .error .diverges
  | rounds + 1, core =>
    if advanceCore cfg core < cfg.numCores then
      if cfg.coreMask (advanceCore cfg core) then .ok (advanceCore cfg core)
      else getNextCore cfg rounds (advanceCore cfg core)
    else .error .index

/-- The loop of `SchedulerPinned::getFreeCore`, with a bound on the number of rounds. -/
def searchFreeCore (cfg : Config) (s : Sim) (first : ℕ) : ℕ → ℕ → Except Fault ℕ
  | 0, _ => .error .diverges
  | rounds + 1, core =>
    if core < cfg.numCores then
      if (s.coreThread core).isNone && cfg.coreMask core then .ok core
      else do
        let next ← getNextCore cfg (cfg.numCores + 1) core
        if next = first then .ok first else searchFreeCore cfg s first rounds next
    else .error .index

/-- `SchedulerPinned::getFreeCore`. -/
def getFreeCore (cfg : Config) (s : Sim) (first : ℕ) : Except Fault ℕ :=
  searchFreeCore cfg s first (cfg.numCores + 1) first

/-- `core_thread_map[key]`, which is zero for a key that is not there. -/
def mappedCore (s : Sim) (app rank : ℕ) : ℕ := (s.coreThreadMap app rank).getD 0

/-- Reading `core_thread_map` stores the entry. -/
def touchMap (s : Sim) (app rank : ℕ) : Sim :=
  { s with
    coreThreadMap := Function.update s.coreThreadMap app
      (Function.update (s.coreThreadMap app) rank (some (mappedCore s app rank))) }

/-- `threads_on_core[core].push_back(t)`. -/
def pushOnCore (s : Sim) (core t : ℕ) : Sim :=
  { s with threadsOnCore := Function.update s.threadsOnCore core (s.threadsOnCore core ++ [t]) }

/-- `current_thread_count[app] += 1`. -/
def countThread (s : Sim) (app : ℕ) : Sim :=
  { s with currentThreadCount := Function.update s.currentThreadCount app (s.currentThreadCount app + 1) }

/-- `SchedulerPinned::threadSetInitialAffinity` with `MODIFIED_CODE`: the core comes from the
mapping, under the application and the rank of the thread in it. -/
def setMappedAffinity (cfg : Config) (s : Sim) (t : ℕ) : Except Fault Sim :=
  let app := s.appId t
  let rank := s.currentThreadCount app
  let core := mappedCore s app rank
  if app < cfg.numApps ∧ core < cfg.numCores then
    .ok { s with
      coreThreadMap := (touchMap s app rank).coreThreadMap
      threadsOnCore := Function.update s.threadsOnCore core (s.threadsOnCore core ++ [t])
      currentThreadCount := Function.update s.currentThreadCount app (rank + 1)
      info := s.info.set t ((s.info.get t).setAffinitySingle core) }
  else .error .index

/-- `SchedulerPinned::threadSetInitialAffinity` without `MODIFIED_CODE`: round robin. -/
def setRoundRobinAffinity (cfg : Config) (s : Sim) (t : ℕ) : Except Fault Sim := do
  let core ← getFreeCore cfg s s.nextCore
  let next ← getNextCore cfg (cfg.numCores + 1) core
  .ok ({ s with nextCore := next }.modifyInfo t fun i => i.setAffinitySingle core)

/-- The cores of `m_mask_big` and, negated, of `m_mask_small`. -/
def coresOf (cfg : Config) (big : Bool) : List ℕ :=
  (List.range cfg.numCores).filter fun c => cfg.bigCore c = big

/-- `SchedulerBigSmall::moveToBig` and `SchedulerBigSmall::moveToSmall`. -/
def moveTo (cfg : Config) (clock : ℕ → ℕ) (big : Bool) (s : Sim) (t : ℕ) : Except Fault Sim := do
  let s ← threadSetAffinity cfg clock s none t (some (coresOf cfg big))
  .ok { s with threadIsBig := Function.update s.threadIsBig t big }

/-- `SchedulerBigSmall::moveToSmall`. -/
def moveToSmall (cfg : Config) (clock : ℕ → ℕ) (s : Sim) (t : ℕ) : Except Fault Sim :=
  moveTo cfg clock false s t

/-- `SchedulerBigSmall::moveToBig`. -/
def moveToBig (cfg : Config) (clock : ℕ → ℕ) (s : Sim) (t : ℕ) : Except Fault Sim :=
  moveTo cfg clock true s t

/-- `rng_next`: the next state of the generator, of which the upper 32 bits are the number drawn. -/
def rngNext (state : ℕ) : ℕ := (0x5DEECE66D * state + 0xB) % 2 ^ 48

/-- The threads `pickBigThread` may promote. -/
def promotable (s : Sim) : List ℕ :=
  (List.range s.numThreads).filter fun t => !s.threadIsBig t && s.runnable.get t

/-- `SchedulerBigSmall::pickBigThread`. It reads `m_threads_runnable` for every thread that is
not on the big cores. -/
def pickBigThread (cfg : Config) (clock : ℕ → ℕ) (s : Sim) : Except Fault Sim :=
  if (List.range s.numThreads).all fun t => s.threadIsBig t || t < s.runnable.size then
    match promotable s with
    | [] => .ok s
    | t :: ts =>
      moveToBig cfg clock { s with rng := rngNext s.rng }
        ((t :: ts).getD (rngNext s.rng / 2 ^ 16 % (ts.length + 1)) t)
  else .error .bounds

/-- `threadSetInitialAffinity` of the scheduler in use. -/
def threadSetInitialAffinity (cfg : Config) (clock : ℕ → ℕ) (s : Sim) (t : ℕ) : Except Fault Sim :=
  match cfg.policy with
  | .bigSmall => moveToSmall cfg clock s t
  | .pinned => if cfg.modifiedCode then setMappedAffinity cfg s t else setRoundRobinAffinity cfg s t

end LifeSim.Sched
