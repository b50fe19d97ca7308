import LifeSim.Interval.Bookkeeping

/-!
# Long extensions of the critical path

A micro-op that extends the critical path by the long-latency cut-off or more clears the old window, and its latency is
to have the extension in it. `longLatencyOperationLatency` returns `true` for the extension, so that every one of them
takes one cycle.
-/

namespace LifeSim.Interval

open LifeSim.Lib LifeSim.Rob Windows

variable {cfg : IntervalConfig}

namespace Dispatch

/-- The dispatch at the call of `updateCriticalPath`, which serializing micro-ops, overlapped loads and long-latency
loads do not reach. -/
def atUpdate (cfg : IntervalConfig) (d : Dispatch) (maxProducerExecTime : ℕ) : Option Dispatch :=
  let u := d.microOp.uop
  if u.isSerializing || u.isInterrupt then none
  else if u.isExecute && u.isMemBarrier then
    let cycleToWaitUntil := max maxProducerExecTime (max d.timer.maxStoreCompletionTime d.timer.maxLoadCompletionTime)
    some (d.setExecTime (cycleToWaitUntil + u.execLatency))
  else if u.isLoad then
    if d.microOp.dcacheOverlap || isLongLatencyLoad cfg.toWindowsConfig u then none
    else some ((d.contend maxProducerExecTime).setExecTime (d.completeLoad maxProducerExecTime).2)
  else if u.isStore then some (d.setExecTime (d.dispatchCycle maxProducerExecTime + u.bypassLatency + 1))
  else some (d.setExecTime (d.dispatchCycle maxProducerExecTime + u.execLatency))

/-- What the execution time of the micro-op adds to the critical path. -/
def extension (d : Dispatch) : ℕ := d.microOp.execTime - d.timer.windows.criticalPathTail

/-- The extension is not shorter than the cut-off, so that the old window is cleared. -/
def LongExtension (cfg : IntervalConfig) (d : Dispatch) : Prop :=
  d.timer.windows.criticalPathTail ≤ d.microOp.execTime ∧ cfg.longLatencyCutoff ≤ d.extension

instance (cfg : IntervalConfig) (d : Dispatch) : Decidable (d.LongExtension cfg) := inferInstanceAs (Decidable (_ ∧ _))

variable {d x : Dispatch} {maxProducerExecTime cptail : ℕ}

/-- One cycle is charged. -/
theorem updateCriticalPath_long (h : d.LongExtension cfg) : (d.updateCriticalPath cfg).latency = d.latency + 1 ∧
    (d.updateCriticalPath cfg).timer.cpiLongLatency = d.timer.cpiLongLatency + d.microOp.uop.period := by
  obtain ⟨hle, hlong⟩ := h
  rw [extension] at hlong
  have hlll : d.timer.windows.longLatencyOperationLatency cfg.toWindowsConfig d.microOp = 1 := by
    rw [longLatencyOperationLatency, if_neg (by omega), if_neg (by omega)]
  rw [updateCriticalPath]
  dsimp only
  rw [hlll, if_neg Nat.one_ne_zero, Nat.one_mul]
  exact ⟨rfl, rfl⟩

/-- The back end is the update of the critical path, up to the completion times of loads and stores. -/
theorem backEnd_atUpdate (hx : d.atUpdate cfg maxProducerExecTime = some x) :
    (d.backEnd cfg maxProducerExecTime).latency = (x.updateCriticalPath cfg).latency ∧
      (d.backEnd cfg maxProducerExecTime).timer.cpiLongLatency = (x.updateCriticalPath cfg).timer.cpiLongLatency := by
  rw [atUpdate] at hx
  rw [backEnd]
  dsimp only at hx ⊢
  split_ifs at hx ⊢ with hserial hbarrier hload hskip hstore
  · cases hx
    exact ⟨rfl, rfl⟩
  · cases hx
    rw [Bool.or_eq_true, not_or] at hskip
    rw [load, accessLoad, if_neg hskip.1, if_neg hskip.2]
    exact ⟨rfl, rfl⟩
  · cases hx
    exact ⟨rfl, rfl⟩
  · cases hx
    exact ⟨rfl, rfl⟩

/-- Nothing has been charged for the long latency before. -/
theorem atUpdate_rest (hx : d.atUpdate cfg maxProducerExecTime = some x) :
    x.latency = d.latency ∧ x.timer.cpiLongLatency = d.timer.cpiLongLatency ∧
      x.microOp.uop.period = d.microOp.uop.period := by
  have hperiod (y : Dispatch) (execTime : ℕ) : (y.setExecTime execTime).microOp.uop.period = y.microOp.uop.period :=
    (y.setExecTime_frame execTime).period y.timer.windows.windowHead
  rw [atUpdate] at hx
  dsimp only at hx
  split_ifs at hx
  · cases hx
    exact ⟨rfl, rfl, hperiod ..⟩
  · cases hx
    exact ⟨rfl, rfl, hperiod ..⟩
  · cases hx
    exact ⟨rfl, rfl, hperiod ..⟩
  · cases hx
    exact ⟨rfl, rfl, hperiod ..⟩

theorem frontEnd_cpiLongLatency : (d.frontEnd cfg cptail).timer.cpiLongLatency = d.timer.cpiLongLatency := by
  have hcache : (d.instructionCache cptail).timer.cpiLongLatency = d.timer.cpiLongLatency := by
    rw [instructionCache]
    dsimp only
    split_ifs <;> rfl
  rw [frontEnd, branchPredictor]
  dsimp only
  split_ifs
  · exact hcache
  · exact hcache

end Dispatch

namespace IntervalTimer

variable (cfg : IntervalConfig) (t : IntervalTimer)

/-- The dispatch of the next micro-op after the front end. -/
def afterFrontEnd : Dispatch :=
  let t := t.issueMemOp cfg t.windows.windowHead
  Dispatch.frontEnd cfg ⟨t, 0, false⟩ t.windows.criticalPathTail

/-- The dispatch of the next micro-op at the call of `updateCriticalPath`. -/
def dispatchAtUpdate : Option Dispatch :=
  let issued := t.issueMemOp cfg t.windows.windowHead
  (t.afterFrontEnd cfg).atUpdate cfg (getMaxProducerExecTime cfg issued.windows issued.windows.windowHead)

variable {cfg t}

/-- A long extension takes one cycle. -/
theorem dispatchInstruction_long {x : Dispatch} (hx : t.dispatchAtUpdate cfg = some x) (hlong : x.LongExtension cfg) :
    (t.dispatchInstruction cfg).latency = (t.afterFrontEnd cfg).latency + 1 ∧
      (t.dispatchInstruction cfg).timer.cpiLongLatency = t.cpiLongLatency + x.microOp.uop.period := by
  obtain ⟨hlatency, hcpi⟩ := Dispatch.backEnd_atUpdate hx
  obtain ⟨hrest, hrestCpi, -⟩ := Dispatch.atUpdate_rest hx
  obtain ⟨hone, hperiod⟩ := Dispatch.updateCriticalPath_long hlong
  have hissue : (t.issueMemOp cfg t.windows.windowHead).cpiLongLatency = t.cpiLongLatency := by
    rw [issueMemOp]
    dsimp only
    split_ifs <;> rfl
  have hfront : (t.afterFrontEnd cfg).timer.cpiLongLatency = t.cpiLongLatency := by
    rw [afterFrontEnd]
    exact Dispatch.frontEnd_cpiLongLatency.trans hissue
  constructor
  · exact hlatency.trans (by rw [hone, hrest])
  · exact hcpi.trans (by rw [hperiod, hrestCpi, hfront])

end IntervalTimer

/-! ### Runs -/

/-- The tail of the critical path does not move back, and a micro-op with a long extension has it in its latency and in
the counter for long latencies. -/
structure TimeKept (cfg : IntervalConfig) (s : IntervalState) (e : IntervalEvent) : Prop where
  tail_le : ∀ s', (intervalMachine cfg).step s e = .ok s' →
    s.timer.windows.criticalPathTail ≤ s'.timer.windows.criticalPathTail
  long : e = .dispatch → ∀ c ∈ s.cycle, c.goesOn cfg s.timer.windows = true →
    ∀ x ∈ s.timer.dispatchAtUpdate cfg, x.LongExtension cfg →
      (s.timer.dispatchInstruction cfg).latency = (s.timer.afterFrontEnd cfg).latency + x.extension ∧
        (s.timer.dispatchInstruction cfg).timer.cpiLongLatency =
          s.timer.cpiLongLatency + x.extension * x.microOp.uop.period

/-- A micro-op that is dispatched has no long extension but one of one cycle. -/
def OneCycle (cfg : IntervalConfig) (s : IntervalState) (e : IntervalEvent) : Prop :=
  e = .dispatch → ∀ c ∈ s.cycle, c.goesOn cfg s.timer.windows = true →
    ∀ x ∈ s.timer.dispatchAtUpdate cfg, x.LongExtension cfg → x.extension = 1

/-- Only the dispatch moves the tail. -/
theorem PathInv.tail_le {s s' : IntervalState} {e : IntervalEvent} (h : PathInv cfg s)
    (hstep : (intervalMachine cfg).step s e = .ok s') :
    s.timer.windows.criticalPathTail ≤ s'.timer.windows.criticalPathTail := by
  cases e with
  | add u =>
    obtain ⟨-, rfl | ⟨w, hadd, rfl⟩⟩ := step_add hstep
    · exact le_refl _
    · obtain ⟨-, v, registers, memory, -, heq⟩ := add_spec (Kept.ring h) hadd
      rw [heq]
      exact le_refl _
  | setPeriod period =>
    obtain ⟨-, rfl⟩ := step_setPeriod hstep
    exact le_refl _
  | begin =>
    obtain ⟨-, -, rfl⟩ := step_begin hstep
    obtain ⟨remaining, hrest⟩ := s.timer.calculateCurrentDispatchRate_rest cfg
    rw [hrest]
  | dispatch =>
    obtain ⟨c, -, hgoes, rfl⟩ := step_dispatch hstep
    exact (h.dispatch hgoes).2
  | finish =>
    obtain ⟨c, t, -, -, hfinish, rfl⟩ := step_finish hstep
    rw [finishCycle_windows hfinish]

theorem timeKept_iff {s : IntervalState} {e : IntervalEvent} (h : PathInv cfg s) : TimeKept cfg s e ↔
    OneCycle cfg s e := by
  constructor
  · intro hkept hdispatch c hc hgoes x hx hlong
    have hlatency := (hkept.long hdispatch c hc hgoes x hx hlong).1
    rw [(IntervalTimer.dispatchInstruction_long hx hlong).1] at hlatency
    omega
  · intro hone
    refine ⟨fun s' => h.tail_le, fun hdispatch c hc hgoes x hx hlong => ?_⟩
    rw [hone hdispatch c hc hgoes x hx hlong, Nat.one_mul]
    exact IntervalTimer.dispatchInstruction_long hx hlong

/-- In every run time is kept as long as no long extension but one of one cycle comes. -/
theorem longExtension_charged_iff (cfg : IntervalConfig) (period : ℕ) (events : List IntervalEvent) :
    (intervalMachine cfg).Guarded (TimeKept cfg) (.start cfg period) events ↔
      (intervalMachine cfg).Guarded (OneCycle cfg) (.start cfg period) events := by
  apply (intervalMachine cfg).guarded_congr (P := PathInv cfg) _ _ (.start cfg period)
    ((intervalMachine cfg).guarded_true _ _)
  · exact fun _ _ _ h _ hstep => h.step hstep
  · exact fun _ _ h _ => timeKept_iff h

theorem cutoff30_size : 2 * 1 < 2 ^ 31 := by norm_num

theorem cutoff30_cutoff : 30 < 2 ^ 32 := by norm_num

/-- One place in the window, and a cut-off of 30 cycles. -/
def cutoff30 : IntervalConfig where
  windowSize := 1
  doubleWindowSize_lt := cutoff30_size
  doFunctionalUnitContention := true
  longLatencyCutoff := 30
  longLatencyCutoff_lt := cutoff30_cutoff
  dispatchWidth := 4
  branchMispredictionPenalty := 17
  memDepMask := -8
  lllDepMask := -64
  numOutstandingLoadstores := 10
  memory := fun _ => ⟨0, .dram⟩

/-- A division of 100 cycles comes. -/
def divisionEvents : List IntervalEvent :=
  [.add { WindowEntry.unfilled.uop with execLatency := 100, period := 500000 }, .begin]

/-- It takes one cycle. -/
theorem longExtension_division :
    ¬ (intervalMachine cutoff30).Guarded (TimeKept cutoff30) (.start cutoff30 500000)
      (divisionEvents ++ [.dispatch]) := by
  intro h
  have hrun := (intervalMachine cutoff30).run_final
    (show ((intervalMachine cutoff30).run (.start cutoff30 500000) divisionEvents).isOk = true by decide +kernel)
  have hpath := (intervalMachine cutoff30).run_induction (P := PathInv cutoff30) (fun _ _ _ h hstep => h.step hstep)
    (.start cutoff30 500000) hrun
  have hone := (timeKept_iff hpath).1 (h.at_event hrun) rfl
  revert hone
  decide +kernel

end LifeSim.Interval
