import LifeSim.Interval.Ring
import LifeSim.Interval.Timer

/-!
# What the dispatch of a micro-op leaves alone

Every part of `dispatchInstruction` keeps the micro-ops in their places, with their static parts, and keeps the old
window or clears it. So the ring stays one.
-/

namespace LifeSim.Interval

open LifeSim.Lib LifeSim.Rob Windows

variable {cfg : IntervalConfig}

namespace IntervalTimer

variable (t : IntervalTimer) (index : ℕ)

theorem modify_frame {f : WindowEntry → WindowEntry} (hf : ∀ e, static (f e) = static e) :
    Frame t.windows (t.modify index f).windows := Frame.modify _ _ hf

theorem issueMemOp_frame : Frame t.windows (t.issueMemOp cfg index).windows := by
  rw [issueMemOp]
  dsimp only
  split_ifs
  · change Frame t.windows (t.modify index (·.setAnswer _ _)).windows
    exact modify_frame _ _ fun _ => rfl
  · exact Frame.refl _

theorem overlapLoad_frame : Frame t.windows (t.overlapLoad cfg index).windows := by
  rw [overlapLoad]
  split_ifs
  · exact Frame.refl _
  · have hflag : Frame t.windows (t.modify index (·.addDcacheOverlap)).windows := modify_frame _ _ fun _ => rfl
    refine (hflag.trans (issueMemOp_frame _ index)).trans (modify_frame _ _ fun _ => rfl)

theorem markDependent_frame (headAddress : BitVec 64) :
    Frame t.windows (t.markDependent cfg headAddress index).windows := by
  rw [markDependent]
  split_ifs
  · exact modify_frame t index fun _ => rfl
  · exact Frame.refl _

theorem markOverlap_frame (memBarrierPending : Bool) :
    Frame t.windows (t.markOverlap cfg memBarrierPending index).windows := by
  rw [markOverlap]
  split_ifs
  · exact modify_frame t index fun _ => rfl
  · exact overlapLoad_frame t index
  · exact Frame.refl _

theorem blockFrom_frame (headAddress : BitVec 64) (rounds : ℕ) (memBarrierPending : Bool) :
    Frame t.windows (t.blockFrom cfg headAddress rounds index memBarrierPending).windows := by
  induction rounds generalizing t index memBarrierPending with
  | zero => exact Frame.refl _
  | succ rounds ih =>
    have hmodify : Frame t.windows (t.modify index fun e => (e.setDependent .noDep).addIcacheOverlap).windows :=
      modify_frame _ _ fun _ => rfl
    rw [blockFrom]
    dsimp only
    split_ifs
    · exact Frame.refl _
    · exact hmodify
    · exact ((hmodify.trans (markDependent_frame _ index headAddress)).trans (markOverlap_frame _ index _)).trans (ih ..)

theorem blockWindow_frame : Frame t.windows (t.blockWindow cfg).windows := by
  have hmodify : Frame t.windows (t.modify t.windows.windowHead (·.setDependent .indepMiss)).windows :=
    modify_frame _ _ fun _ => rfl
  exact hmodify.trans (blockFrom_frame ..)

end IntervalTimer

namespace Dispatch

variable (d : Dispatch)

theorem updateCriticalPath_frame : Frame d.timer.windows (d.updateCriticalPath cfg).timer.windows := by
  rw [updateCriticalPath]
  dsimp only
  split_ifs
  · exact Frame.updateCriticalPathTail ..
  · exact Frame.clearOldWindow ..

theorem setExecTime_frame (execTime : ℕ) : Frame d.timer.windows (d.setExecTime execTime).timer.windows :=
  d.timer.modify_frame _ fun _ => rfl

theorem clearOldWindow_frame (newCpHead : ℕ) : Frame d.timer.windows (d.clearOldWindow newCpHead).timer.windows :=
  Frame.clearOldWindow ..

theorem instructionCache_frame (cptail : ℕ) : Frame d.timer.windows (d.instructionCache cptail).timer.windows := by
  rw [instructionCache]
  dsimp only
  split_ifs
  · exact Frame.clearOldWindow ..
  · exact Frame.refl _

theorem resolveBranch_frame : Frame d.timer.windows (d.resolveBranch cfg).timer.windows :=
  Frame.calculateBranchResolutionLatency ..

theorem branchPredictor_frame (cptail : ℕ) : Frame d.timer.windows (d.branchPredictor cfg cptail).timer.windows := by
  rw [branchPredictor]
  dsimp only
  split_ifs
  · exact d.resolveBranch_frame.trans (Frame.clearOldWindow ..)
  · exact Frame.refl _

theorem frontEnd_frame (cptail : ℕ) : Frame d.timer.windows (d.frontEnd cfg cptail).timer.windows :=
  (d.instructionCache_frame cptail).trans ((d.instructionCache cptail).branchPredictor_frame cptail)

theorem serialize_frame : Frame d.timer.windows (d.serialize cfg).timer.windows :=
  (d.setExecTime_frame _).trans (Frame.clearOldWindow ..)

theorem passLoad_frame (maxProducerExecTime : ℕ) :
    Frame d.timer.windows (d.passLoad maxProducerExecTime).timer.windows :=
  (d.setExecTime_frame _).trans (Frame.clearOldWindow ..)

theorem longLatencyLoad_frame (maxProducerExecTime : ℕ) :
    Frame d.timer.windows (d.longLatencyLoad cfg maxProducerExecTime).timer.windows :=
  (d.passLoad_frame maxProducerExecTime).trans (IntervalTimer.blockWindow_frame _)

theorem memBarrier_frame (maxProducerExecTime : ℕ) :
    Frame d.timer.windows (d.memBarrier cfg maxProducerExecTime).timer.windows :=
  (d.setExecTime_frame _).trans (updateCriticalPath_frame _)

theorem shortLoad_frame (maxProducerExecTime : ℕ) :
    Frame d.timer.windows (d.shortLoad cfg maxProducerExecTime).timer.windows :=
  (setExecTime_frame (d.contend maxProducerExecTime) _).trans (updateCriticalPath_frame _)

theorem accessLoad_frame (maxProducerExecTime : ℕ) :
    Frame d.timer.windows (d.accessLoad cfg maxProducerExecTime).timer.windows := by
  rw [accessLoad]
  split_ifs
  · exact Frame.refl _
  · exact d.longLatencyLoad_frame _
  · exact d.shortLoad_frame _

theorem load_frame (maxProducerExecTime : ℕ) :
    Frame d.timer.windows (d.load cfg maxProducerExecTime).timer.windows := d.accessLoad_frame maxProducerExecTime

theorem store_frame (maxProducerExecTime : ℕ) :
    Frame d.timer.windows (d.store cfg maxProducerExecTime).timer.windows :=
  (d.setExecTime_frame _).trans (updateCriticalPath_frame _)

theorem execute_frame (maxProducerExecTime : ℕ) :
    Frame d.timer.windows (d.execute cfg maxProducerExecTime).timer.windows :=
  (d.setExecTime_frame _).trans (updateCriticalPath_frame _)

theorem backEnd_frame (maxProducerExecTime : ℕ) :
    Frame d.timer.windows (d.backEnd cfg maxProducerExecTime).timer.windows := by
  rw [backEnd]
  split_ifs
  · exact d.serialize_frame
  · exact d.memBarrier_frame _
  · exact d.load_frame _
  · exact d.store_frame _
  · exact d.execute_frame _

end Dispatch

theorem IntervalTimer.dispatchInstruction_frame (t : IntervalTimer) :
    Frame t.windows (t.dispatchInstruction cfg).timer.windows :=
  (t.issueMemOp_frame _).trans
    ((Dispatch.frontEnd_frame ⟨_, 0, false⟩ _).trans (Dispatch.backEnd_frame _ _))

/-! ### The rest of a cycle -/

/-- A cycle that goes on has a micro-op. -/
theorem goesOn_busy {c : Cycle} {w : Windows} (hgoes : c.goesOn cfg w = true) : 0 < w.windowLength := by
  simp only [Cycle.goesOn, wIsEmpty, Bool.and_eq_true, Bool.not_eq_true', decide_eq_false_iff_not] at hgoes
  omega

/-- Only the remaining bandwidth changes. -/
theorem IntervalTimer.calculateCurrentDispatchRate_rest (cfg : IntervalConfig) (t : IntervalTimer) : ∃ remaining,
    (t.calculateCurrentDispatchRate cfg).1 = { t with remainingDispatchBandwidth := remaining } := by
  rw [calculateCurrentDispatchRate]
  dsimp only
  split_ifs <;> exact ⟨_, rfl⟩

/-- A cycle without latency is charged to the base component. -/
theorem finishCycle_ok {t t' : IntervalTimer} {c : Cycle} (h : finishCycle cfg t c = .ok t') :
    t' = if c.latency = 0 then (t.chargeBase c.microOpPeriod).returnLatency 1 else t.returnLatency c.latency := by
  rw [finishCycle] at h
  split at h
  · rename_i hzero
    rw [if_pos hzero]
    dsimp only at h
    generalize (if c.dispatchRate ≤ c.microOpsExecuted then t.cpContrFractions cfg else .ok ()) = checked at h
    cases checked with
    | error f => cases h
    | ok u =>
      cases h
      rfl
  · rename_i hlatency
    rw [if_neg hlatency]
    cases h
    rfl

end LifeSim.Interval
