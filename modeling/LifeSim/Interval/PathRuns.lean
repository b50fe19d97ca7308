import LifeSim.Interval.CriticalPath
import LifeSim.Interval.Dispatch

/-!
# The critical path over whole runs

Each part of `dispatchInstruction` keeps the critical path that of the old window, up to the micro-op that is dispatched.
The front end starts again at or after the tail that it was given, and every way through the back end leaves the micro-op
with an execution time that is not after the tail. So the tail never moves back.
-/

namespace LifeSim.Interval

open LifeSim.Lib LifeSim.Rob Windows

variable {cfg : IntervalConfig} {earlier : ℕ}

namespace IntervalTimer

variable {t : IntervalTimer} {n : ℕ}

/-! ### The window is blocked -/

/-- An entry of the window but the first one changes. -/
theorem modify_ready (h : Ready cfg.toWindowsConfig earlier t.windows) (hlt : t.windows.first < n)
    (hnext : n < t.windows.nextSequenceNumber) {f : WindowEntry → WindowEntry} (hstatic : ∀ e, static (f e) = static e)
    (hcontr : ∀ e, (f e).cpContr = e.cpContr) (htime : ∀ e, (f e).execTime = e.execTime) :
    Ready cfg.toWindowsConfig earlier (t.modify (n % (2 * cfg.windowSize)) f).windows := by
  apply h.modifyLater hlt hnext hstatic (hcontr _)
  rw [htime]
  exact (h.waiting n hlt hnext).2

theorem issueMemOp_ready (h : Ready cfg.toWindowsConfig earlier t.windows) (hlt : t.windows.first < n)
    (hnext : n < t.windows.nextSequenceNumber) :
    Ready cfg.toWindowsConfig earlier (t.issueMemOp cfg (n % (2 * cfg.windowSize))).windows := by
  rw [issueMemOp]
  dsimp only
  split_ifs
  · change Ready _ _ (t.modify (n % (2 * cfg.windowSize)) (·.setAnswer _ _)).windows
    apply modify_ready h hlt hnext
    · exact fun _ => rfl
    · exact fun _ => rfl
    · exact fun _ => rfl
  · exact h

theorem overlapLoad_ready (h : Ready cfg.toWindowsConfig earlier t.windows) (hlt : t.windows.first < n)
    (hnext : n < t.windows.nextSequenceNumber) :
    Ready cfg.toWindowsConfig earlier (t.overlapLoad cfg (n % (2 * cfg.windowSize))).windows := by
  rw [overlapLoad]
  split_ifs
  · exact h
  · dsimp only
    have hflag : Ready cfg.toWindowsConfig earlier (t.modify (n % (2 * cfg.windowSize)) (·.addDcacheOverlap)).windows :=
      modify_ready h hlt hnext (fun _ => rfl) (fun _ => rfl) fun _ => rfl
    have hflagFrame : Frame t.windows (t.modify (n % (2 * cfg.windowSize)) (·.addDcacheOverlap)).windows :=
      modify_frame t _ fun _ => rfl
    generalize t.modify (n % (2 * cfg.windowSize)) (·.addDcacheOverlap) = v at hflag hflagFrame
    rw [← hflagFrame.first] at hlt
    rw [← hflagFrame.next] at hnext
    have hissue := issueMemOp_ready hflag hlt hnext
    have hissueFrame : Frame v.windows (v.issueMemOp cfg (n % (2 * cfg.windowSize))).windows := v.issueMemOp_frame _
    generalize v.issueMemOp cfg (n % (2 * cfg.windowSize)) = x at hissue hissueFrame
    rw [← hissueFrame.first] at hlt
    rw [← hissueFrame.next] at hnext
    change Ready _ _ (x.windows.modify (n % (2 * cfg.windowSize)) fun e => (e.setDependent .indepMiss).setExecTime _)
    apply hissue.modifyLater hlt hnext
    · exact fun _ => rfl
    · rfl
    · exact hissue.head_le

theorem markDependent_ready (h : Ready cfg.toWindowsConfig earlier t.windows) (hlt : t.windows.first < n)
    (hnext : n < t.windows.nextSequenceNumber) (headAddress : BitVec 64) :
    Ready cfg.toWindowsConfig earlier (t.markDependent cfg headAddress (n % (2 * cfg.windowSize))).windows := by
  rw [markDependent]
  split_ifs
  · exact modify_ready h hlt hnext (fun _ => rfl) (fun _ => rfl) fun _ => rfl
  · exact h

theorem markOverlap_ready (h : Ready cfg.toWindowsConfig earlier t.windows) (hlt : t.windows.first < n)
    (hnext : n < t.windows.nextSequenceNumber) (memBarrierPending : Bool) :
    Ready cfg.toWindowsConfig earlier (t.markOverlap cfg memBarrierPending (n % (2 * cfg.windowSize))).windows := by
  rw [markOverlap]
  split_ifs
  · exact modify_ready h hlt hnext (fun _ => rfl) (fun _ => rfl) fun _ => rfl
  · exact overlapLoad_ready h hlt hnext
  · exact h

/-- The loop begins behind the first micro-op and stops at the tail of the window. -/
theorem blockFrom_ready (h : Ready cfg.toWindowsConfig earlier t.windows) (hlt : t.windows.first < n)
    (hle : n ≤ t.windows.nextSequenceNumber) (headAddress : BitVec 64) (rounds : ℕ) (memBarrierPending : Bool) :
    Ready cfg.toWindowsConfig earlier
      (t.blockFrom cfg headAddress rounds (n % (2 * cfg.windowSize)) memBarrierPending).windows := by
  induction rounds generalizing t n memBarrierPending with
  | zero => exact h
  | succ rounds ih =>
    rw [blockFrom]
    split_ifs with htail
    · exact h
    · have hnext : n < t.windows.nextSequenceNumber := by
        apply Nat.lt_of_le_of_ne hle
        intro heq
        rw [heq] at htail
        exact htail h.ring.tail.symm
      have hmodify : Ready cfg.toWindowsConfig earlier
          (t.modify (n % (2 * cfg.windowSize)) fun e => (e.setDependent .noDep).addIcacheOverlap).windows :=
        modify_ready h hlt hnext (fun _ => rfl) (fun _ => rfl) fun _ => rfl
      have hframe : Frame t.windows
          (t.modify (n % (2 * cfg.windowSize)) fun e => (e.setDependent .noDep).addIcacheOverlap).windows :=
        modify_frame t _ fun _ => rfl
      dsimp only
      generalize (t.modify (n % (2 * cfg.windowSize)) fun e => (e.setDependent .noDep).addIcacheOverlap) = v
        at hmodify hframe
      split_ifs
      · exact hmodify
      · have hlt' : v.windows.first < n := by rwa [hframe.first]
        have hnext' : n < v.windows.nextSequenceNumber := by rwa [hframe.next]
        have hmark := markDependent_ready hmodify hlt' hnext' headAddress
        have hstepFrame : Frame v.windows (v.markDependent cfg headAddress (n % (2 * cfg.windowSize))).windows :=
          v.markDependent_frame _ _
        have hmarkFrame := hframe.trans hstepFrame
        generalize v.markDependent cfg headAddress (n % (2 * cfg.windowSize)) = x at hmark hmarkFrame
        rw [incrementIndex_mod]
        apply ih
        · apply markOverlap_ready hmark
          · rwa [hmarkFrame.first]
          · rwa [hmarkFrame.next]
        · rw [(hmarkFrame.trans (markOverlap_frame ..)).first]
          omega
        · rw [(hmarkFrame.trans (markOverlap_frame ..)).next]
          omega

theorem blockWindow_ready (h : Ready cfg.toWindowsConfig earlier t.windows) :
    Ready cfg.toWindowsConfig earlier (t.blockWindow cfg).windows := by
  have hfirst := h.ring.first_add
  have hbusy := h.busy
  have hmodify : Ready cfg.toWindowsConfig earlier
      (t.modify t.windows.windowHead (·.setDependent .indepMiss)).windows :=
    h.modifyHead (f := (·.setDependent .indepMiss)) (fun _ => rfl) (fun _ => rfl) fun _ => rfl
  rw [blockWindow]
  rw [h.ring.head, incrementIndex_mod, ← h.ring.head]
  apply blockFrom_ready hmodify
  · exact Nat.lt_succ_self _
  · change t.windows.first + 1 ≤ t.windows.nextSequenceNumber
    omega

end IntervalTimer

namespace Dispatch

variable {d : Dispatch}

/-! ### The parts of the dispatch -/

theorem setExecTime_mid (h : Mid cfg.toWindowsConfig earlier d.timer.windows) (execTime : ℕ) :
    Mid cfg.toWindowsConfig earlier (d.setExecTime execTime).timer.windows :=
  h.modifyHead (f := (·.setExecTime execTime)) (fun _ => rfl) rfl

/-- The execution time of the micro-op. -/
theorem setExecTime_execTime (h : Ring cfg.toWindowsConfig d.timer.windows) (execTime : ℕ) :
    ((d.setExecTime execTime).timer.windows.slot cfg.toWindowsConfig d.timer.windows.first).execTime = execTime := by
  change ((d.timer.windows.modify d.timer.windows.windowHead (·.setExecTime execTime)).slot cfg.toWindowsConfig
    d.timer.windows.first).execTime = execTime
  rw [h.head, slot_modify_self]
  rfl

theorem instructionCache_mid {cptail : ℕ} (h : Mid cfg.toWindowsConfig earlier d.timer.windows)
    (hcptail : earlier ≤ cptail) :
    Mid cfg.toWindowsConfig earlier (d.instructionCache cptail).timer.windows := by
  rw [instructionCache]
  dsimp only
  split_ifs
  · exact h.clear (hcptail.trans (Nat.le_add_right _ _))
  · exact h

theorem branchPredictor_mid {cptail : ℕ} (h : Mid cfg.toWindowsConfig earlier d.timer.windows)
    (hcptail : earlier ≤ cptail) :
    Mid cfg.toWindowsConfig earlier (d.branchPredictor cfg cptail).timer.windows := by
  rw [branchPredictor]
  dsimp only
  split_ifs
  · exact (h.scratch _).clear (hcptail.trans (Nat.le_add_right _ _))
  · exact h

theorem frontEnd_mid {cptail : ℕ} (h : Mid cfg.toWindowsConfig earlier d.timer.windows) (hcptail : earlier ≤ cptail) :
    Mid cfg.toWindowsConfig earlier (d.frontEnd cfg cptail).timer.windows :=
  branchPredictor_mid (instructionCache_mid h hcptail) hcptail

/-- The front end changes no entry. -/
theorem frontEnd_entries (cptail : ℕ) :
    (d.frontEnd cfg cptail).timer.windows.doubleWindow = d.timer.windows.doubleWindow := by
  have hcache : (d.instructionCache cptail).timer.windows.doubleWindow = d.timer.windows.doubleWindow := by
    rw [instructionCache]
    dsimp only
    split_ifs <;> rfl
  rw [frontEnd, branchPredictor]
  dsimp only
  split_ifs
  · exact hcache
  · exact hcache

theorem updateCriticalPath_ready (h : Mid cfg.toWindowsConfig earlier d.timer.windows) :
    Ready cfg.toWindowsConfig earlier (d.updateCriticalPath cfg).timer.windows := by
  have hlater := h.later
  have hentry : d.microOp = d.timer.windows.slot cfg.toWindowsConfig d.timer.windows.first := by
    rw [microOp, IntervalTimer.entry, h.ring.head]
    rfl
  rw [updateCriticalPath]
  dsimp only
  rw [hentry]
  split_ifs with hlll
  · apply h.update
    intro hlt
    by_contra hnot
    rw [longLatencyOperationLatency, if_neg (by omega), if_neg hnot] at hlll
    cases hlll
  · have hle : d.timer.windows.criticalPathTail ≤
        (d.timer.windows.slot cfg.toWindowsConfig d.timer.windows.first).execTime := by
      by_contra hnot
      rw [longLatencyOperationLatency, if_pos (by omega)] at hlll
      exact hlll rfl
    apply (h.clear (hlater.trans hle)).ready
    exact le_refl _

theorem serialize_ready (h : Mid cfg.toWindowsConfig earlier d.timer.windows) :
    Ready cfg.toWindowsConfig earlier (d.serialize cfg).timer.windows := by
  have hmid := setExecTime_mid h d.timer.windows.criticalPathTail
  apply (hmid.clear h.later).ready
  exact (setExecTime_execTime h.ring _).le

theorem passLoad_ready (h : Mid cfg.toWindowsConfig earlier d.timer.windows) (maxProducerExecTime : ℕ) :
    Ready cfg.toWindowsConfig earlier (d.passLoad maxProducerExecTime).timer.windows := by
  have hmid := setExecTime_mid h d.timer.windows.criticalPathTail
  have hle := h.later.trans (Nat.le_add_right _ (d.longLatencyLoadLatency maxProducerExecTime))
  apply (hmid.clear hle).ready
  change ((d.setExecTime d.timer.windows.criticalPathTail).timer.windows.slot cfg.toWindowsConfig
    d.timer.windows.first).execTime ≤ d.timer.windows.criticalPathTail + d.longLatencyLoadLatency maxProducerExecTime
  rw [setExecTime_execTime h.ring]
  exact Nat.le_add_right _ _

theorem longLatencyLoad_ready (h : Mid cfg.toWindowsConfig earlier d.timer.windows) (maxProducerExecTime : ℕ) :
    Ready cfg.toWindowsConfig earlier (d.longLatencyLoad cfg maxProducerExecTime).timer.windows :=
  IntervalTimer.blockWindow_ready (passLoad_ready h maxProducerExecTime)

/-- An overlapped load is executed already. -/
theorem accessLoad_ready (h : Mid cfg.toWindowsConfig earlier d.timer.windows)
    (htime : (d.timer.windows.slot cfg.toWindowsConfig d.timer.windows.first).execTime ≤ earlier)
    (maxProducerExecTime : ℕ) :
    Ready cfg.toWindowsConfig earlier (d.accessLoad cfg maxProducerExecTime).timer.windows := by
  rw [accessLoad]
  split_ifs
  · exact h.ready (htime.trans h.later)
  · exact longLatencyLoad_ready h _
  · exact updateCriticalPath_ready (d := (d.contend maxProducerExecTime).setExecTime _) (setExecTime_mid h _)

theorem backEnd_ready (h : Mid cfg.toWindowsConfig earlier d.timer.windows)
    (htime : (d.timer.windows.slot cfg.toWindowsConfig d.timer.windows.first).execTime ≤ earlier)
    (maxProducerExecTime : ℕ) :
    Ready cfg.toWindowsConfig earlier (d.backEnd cfg maxProducerExecTime).timer.windows := by
  rw [backEnd]
  split_ifs
  · exact serialize_ready h
  · exact updateCriticalPath_ready (setExecTime_mid h _)
  · exact accessLoad_ready h htime _
  · exact updateCriticalPath_ready (setExecTime_mid h _)
  · exact updateCriticalPath_ready (setExecTime_mid h _)

end Dispatch

namespace IntervalTimer

variable {t : IntervalTimer}

theorem issueMemOp_mid (h : Mid cfg.toWindowsConfig earlier t.windows) :
    Mid cfg.toWindowsConfig earlier (t.issueMemOp cfg t.windows.windowHead).windows ∧
      (t.issueMemOp cfg t.windows.windowHead).windows.criticalPathTail = t.windows.criticalPathTail ∧
      ((t.issueMemOp cfg t.windows.windowHead).windows.slot cfg.toWindowsConfig t.windows.first).execTime =
        (t.windows.slot cfg.toWindowsConfig t.windows.first).execTime := by
  rw [issueMemOp]
  dsimp only
  split_ifs
  · refine ⟨?_, rfl, ?_⟩
    · change Mid _ _ (t.windows.modify t.windows.windowHead (·.setAnswer _ _))
      apply h.modifyHead
      · exact fun _ => rfl
      · rfl
    · change ((t.windows.modify t.windows.windowHead (·.setAnswer _ _)).slot cfg.toWindowsConfig
        t.windows.first).execTime = _
      rw [h.ring.head, slot_modify_self]
      rfl
  · exact ⟨h, rfl, rfl⟩

/-- The dispatch of a micro-op. -/
theorem dispatchInstruction_ready (h : Kept cfg.toWindowsConfig t.windows) (hlength : 0 < t.windows.windowLength) :
    Ready cfg.toWindowsConfig t.windows.criticalPathTail (t.dispatchInstruction cfg).timer.windows := by
  have hfirst := h.ring.first_add
  have htime := (h.waiting t.windows.first (le_refl _) (by omega)).2
  obtain ⟨hmid, htail, hsame⟩ := issueMemOp_mid (h.mid hlength)
  have hframe : Frame t.windows (t.issueMemOp cfg t.windows.windowHead).windows := t.issueMemOp_frame _
  rw [dispatchInstruction]
  generalize t.issueMemOp cfg t.windows.windowHead = v at hmid htail hsame hframe
  rw [← hframe.first] at htime hsame
  have hfront : Mid cfg.toWindowsConfig t.windows.criticalPathTail
      (Dispatch.frontEnd cfg ⟨v, 0, false⟩ v.windows.criticalPathTail).timer.windows :=
    Dispatch.frontEnd_mid hmid htail.ge
  apply Dispatch.backEnd_ready hfront
  have hfrontFrame : Frame v.windows (Dispatch.frontEnd cfg ⟨v, 0, false⟩ v.windows.criticalPathTail).timer.windows :=
    Dispatch.frontEnd_frame ⟨v, 0, false⟩ _
  rw [hfrontFrame.first, slot, Dispatch.frontEnd_entries]
  change (v.windows.slot cfg.toWindowsConfig v.windows.first).execTime ≤ _
  rw [hsame]
  exact htime

end IntervalTimer

end LifeSim.Interval
