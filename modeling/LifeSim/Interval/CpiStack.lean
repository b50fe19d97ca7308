import LifeSim.Interval.Dispatch

/-!
# The CPI stack is complete

Each part of the dispatch of a micro-op charges the latency that it adds to one counter, at the period of the micro-op.
A cycle without any latency is charged to the base component. So with one clock period the counters add up to the
latencies that have been returned.
-/

namespace LifeSim.Interval

open LifeSim.Lib LifeSim.Rob Windows

variable {cfg : IntervalConfig}

namespace IntervalTimer

/-- The sum of all components. -/
@[irreducible]
def cpi (t : IntervalTimer) : ℕ :=
  t.cpiBase + t.cpiBranchPredictor + t.cpiSerialization + t.cpiLongLatency +
    (∑ h, t.cpiInstructionCache h + ∑ h, t.cpiDataCache h)

/-- A counter of a family grows. -/
theorem sum_update (f : HitWhere → ℕ) (place : HitWhere) (amount : ℕ) :
    ∑ h, Function.update f place (f place + amount) h = ∑ h, f h + amount := by
  rw [Finset.sum_update_of_mem (Finset.mem_univ place)]
  have hsplit := Finset.sum_update_of_mem (Finset.mem_univ place) f (f place)
  rw [Function.update_eq_self] at hsplit
  omega

@[simp] theorem cpi_chargeBase (t : IntervalTimer) (amount : ℕ) : (t.chargeBase amount).cpi = t.cpi + amount := by
  simp only [cpi, chargeBase]
  omega

@[simp] theorem cpi_returnLatency (t : IntervalTimer) (latency : ℕ) : (t.returnLatency latency).cpi = t.cpi := by
  simp only [cpi, returnLatency]

@[simp] theorem cpi_setWindows (t : IntervalTimer) (w : Windows) : (t.setWindows w).cpi = t.cpi := by
  simp only [cpi, setWindows]

theorem cpi_remaining (t : IntervalTimer) (remaining : ℕ) :
    cpi { t with remainingDispatchBandwidth := remaining } = t.cpi := by
  simp only [cpi]

theorem cpi_setPeriod (t : IntervalTimer) (period : ℕ) : cpi { t with period := period } = t.cpi := by
  simp only [cpi]

end IntervalTimer

/-- The counters grow by an amount. -/
structure Charges (amount : ℕ) (t t' : IntervalTimer) : Prop where
  frame : Frame t.windows t'.windows
  period : t'.period = t.period
  totalLatency : t'.totalLatency = t.totalLatency
  cpi : t'.cpi = t.cpi + amount

namespace Charges

variable {a b : ℕ} {t t' t'' : IntervalTimer}

theorem refl (t : IntervalTimer) : Charges 0 t t := ⟨Frame.refl _, rfl, rfl, (Nat.add_zero _).symm⟩

theorem trans (h : Charges a t t') (h' : Charges b t' t'') : Charges (a + b) t t'' where
  frame := h.frame.trans h'.frame
  period := h'.period.trans h.period
  totalLatency := h'.totalLatency.trans h.totalLatency
  cpi := by rw [h'.cpi, h.cpi, Nat.add_assoc]

/-- A part of the timer that has no counters changes. -/
theorem quiet (h : Frame t.windows t'.windows) (hrest : t' = { t with
    windows := t'.windows
    answers := t'.answers
    loadstoreContention := t'.loadstoreContention
    maxLoadCompletionTime := t'.maxLoadCompletionTime
    maxStoreCompletionTime := t'.maxStoreCompletionTime }) : Charges 0 t t' := by
  refine ⟨h, ?_, ?_, ?_⟩
  · rw [hrest]
  · rw [hrest]
  · rw [hrest, Nat.add_zero]
    simp only [IntervalTimer.cpi]

theorem branchPredictor (t : IntervalTimer) (amount : ℕ) : Charges amount t (t.chargeBranchPredictor amount) := by
  refine ⟨Frame.refl _, rfl, rfl, ?_⟩
  simp only [IntervalTimer.cpi, IntervalTimer.chargeBranchPredictor]
  omega

theorem serialization (t : IntervalTimer) (amount : ℕ) : Charges amount t (t.chargeSerialization amount) := by
  refine ⟨Frame.refl _, rfl, rfl, ?_⟩
  simp only [IntervalTimer.cpi, IntervalTimer.chargeSerialization]
  omega

theorem longLatency (t : IntervalTimer) (amount : ℕ) : Charges amount t (t.chargeLongLatency amount) := by
  refine ⟨Frame.refl _, rfl, rfl, ?_⟩
  simp only [IntervalTimer.cpi, IntervalTimer.chargeLongLatency]
  omega

theorem instructionCache (t : IntervalTimer) (place : HitWhere) (amount : ℕ) :
    Charges amount t (t.chargeInstructionCache place amount) := by
  refine ⟨Frame.refl _, rfl, rfl, ?_⟩
  simp only [IntervalTimer.cpi, IntervalTimer.chargeInstructionCache, IntervalTimer.sum_update]
  omega

theorem dataCache (t : IntervalTimer) (place : HitWhere) (amount : ℕ) :
    Charges amount t (t.chargeDataCache place amount) := by
  refine ⟨Frame.refl _, rfl, rfl, ?_⟩
  simp only [IntervalTimer.cpi, IntervalTimer.chargeDataCache, IntervalTimer.sum_update]
  omega

/-! ### The window does not touch the counters -/

theorem modify (t : IntervalTimer) (index : ℕ) {f : WindowEntry → WindowEntry} (hf : ∀ e, static (f e) = static e) :
    Charges 0 t (t.modify index f) := quiet (t.modify_frame index hf) rfl

theorem issueMemOp (t : IntervalTimer) (index : ℕ) : Charges 0 t (t.issueMemOp cfg index) := by
  refine quiet (t.issueMemOp_frame index) ?_
  rw [IntervalTimer.issueMemOp]
  dsimp only
  split_ifs
  · rfl
  · rfl

theorem overlapLoad (t : IntervalTimer) (index : ℕ) : Charges 0 t (t.overlapLoad cfg index) := by
  rw [IntervalTimer.overlapLoad]
  split_ifs
  · exact refl t
  · have hflag := modify t index (f := (·.addDcacheOverlap)) fun _ => rfl
    refine (hflag.trans (issueMemOp _ index)).trans (modify _ index fun _ => ?_)
    rfl

theorem markDependent (t : IntervalTimer) (index : ℕ) (headAddress : BitVec 64) :
    Charges 0 t (t.markDependent cfg headAddress index) := by
  rw [IntervalTimer.markDependent]
  split_ifs
  · exact modify t index fun _ => rfl
  · exact refl t

theorem markOverlap (t : IntervalTimer) (index : ℕ) (memBarrierPending : Bool) :
    Charges 0 t (t.markOverlap cfg memBarrierPending index) := by
  rw [IntervalTimer.markOverlap]
  split_ifs
  · exact modify t index fun _ => rfl
  · exact overlapLoad t index
  · exact refl t

theorem blockFrom (t : IntervalTimer) (headAddress : BitVec 64) (rounds index : ℕ) (memBarrierPending : Bool) :
    Charges 0 t (t.blockFrom cfg headAddress rounds index memBarrierPending) := by
  induction rounds generalizing t index memBarrierPending with
  | zero => exact refl t
  | succ rounds ih =>
    have hmodify := modify t index (f := fun e => (e.setDependent .noDep).addIcacheOverlap) fun _ => rfl
    rw [IntervalTimer.blockFrom]
    dsimp only
    split_ifs
    · exact refl t
    · exact hmodify
    · exact ((hmodify.trans (markDependent _ index headAddress)).trans (markOverlap _ index _)).trans (ih ..)

theorem blockWindow (t : IntervalTimer) : Charges 0 t (t.blockWindow cfg) := by
  have hmodify := modify t t.windows.windowHead (f := (·.setDependent .indepMiss)) fun _ => rfl
  exact hmodify.trans (blockFrom ..)

end Charges

/-! ### The charges of a micro-op -/

/-- The counters grow by the latency that is added, at the period of the micro-op. -/
def Charged (d d' : Dispatch) : Prop :=
  ∃ latency, d'.latency = d.latency + latency ∧ Charges (latency * d.microOp.uop.period) d.timer d'.timer

/-- The micro-op keeps its period. -/
theorem Dispatch.microOp_period {d d' : Dispatch} (h : Frame d.timer.windows d'.timer.windows) :
    d'.microOp.uop.period = d.microOp.uop.period := by
  have hperiod := h.period d.timer.windows.windowHead
  have hhead := h.head
  rw [Dispatch.microOp, Dispatch.microOp, hhead]
  exact hperiod

namespace Charged

variable {d d' d'' : Dispatch}

theorem quiet (h : Charges 0 d.timer d'.timer) (hlatency : d'.latency = d.latency) : Charged d d' :=
  ⟨0, hlatency, by rwa [Nat.zero_mul]⟩

theorem trans (h : Charged d d') (h' : Charged d' d'') : Charged d d'' := by
  obtain ⟨latency, heq, hcharges⟩ := h
  obtain ⟨latency', heq', hcharges'⟩ := h'
  rw [Dispatch.microOp_period hcharges.frame] at hcharges'
  refine ⟨latency + latency', by omega, ?_⟩
  rw [Nat.add_mul]
  exact hcharges.trans hcharges'

theorem setExecTime (d : Dispatch) (execTime : ℕ) : Charged d (d.setExecTime execTime) :=
  quiet (.quiet (d.setExecTime_frame execTime) rfl) rfl

theorem clearOldWindow (d : Dispatch) (newCpHead : ℕ) : Charged d (d.clearOldWindow newCpHead) :=
  quiet (.quiet (d.clearOldWindow_frame newCpHead) rfl) rfl

/-- A latency that is charged. -/
theorem addLatency {latency : ℕ} {f : IntervalTimer → IntervalTimer}
    (h : Charges (latency * d.microOp.uop.period) d.timer (f d.timer)) :
    Charged d ((d.addLatency latency).mapTimer f) := ⟨latency, rfl, h⟩

theorem updateCriticalPath (d : Dispatch) : Charged d (d.updateCriticalPath cfg) := by
  rw [Dispatch.updateCriticalPath]
  dsimp only
  split_ifs
  · exact quiet (.quiet (Frame.updateCriticalPathTail ..) rfl) rfl
  · exact (addLatency (.longLatency ..)).trans (clearOldWindow ..)

/-- A latency of the front end, with which the old window is cleared. -/
theorem front {latency newCpHead : ℕ} {f : IntervalTimer → IntervalTimer}
    (h : ∀ t, Charges (latency * d.microOp.uop.period) t (f t)) :
    Charged d ((((d.addLatency latency).clearOldWindow newCpHead).stopDispatch).mapTimer f) := by
  refine ⟨latency, rfl, ?_⟩
  have hclear : Charges 0 d.timer (d.clearOldWindow newCpHead).timer := .quiet (d.clearOldWindow_frame newCpHead) rfl
  have hcharges := hclear.trans (h _)
  rw [Nat.zero_add] at hcharges
  exact hcharges

theorem instructionCache (d : Dispatch) (cptail : ℕ) : Charged d (d.instructionCache cptail) := by
  rw [Dispatch.instructionCache]
  dsimp only
  split_ifs
  · exact front fun t => .instructionCache t _ _
  · exact quiet (.refl _) rfl

theorem branchPredictor (d : Dispatch) (cptail : ℕ) : Charged d (d.branchPredictor cfg cptail) := by
  rw [Dispatch.branchPredictor]
  dsimp only
  split_ifs
  · have hresolve : Charged d (d.resolveBranch cfg) := quiet (.quiet d.resolveBranch_frame rfl) rfl
    exact hresolve.trans (front fun t => .branchPredictor t _)
  · exact quiet (.refl _) rfl

theorem serialize (d : Dispatch) : Charged d (d.serialize cfg) :=
  ((addLatency (.serialization ..)).trans (setExecTime ..)).trans (clearOldWindow ..)

theorem passLoad (d : Dispatch) (maxProducerExecTime : ℕ) :
    Charges 0 d.timer (d.passLoad maxProducerExecTime).timer := .quiet (d.passLoad_frame maxProducerExecTime) rfl

theorem longLatencyLoad (d : Dispatch) (maxProducerExecTime : ℕ) :
    Charged d (d.longLatencyLoad cfg maxProducerExecTime) := by
  refine ⟨_, rfl, ?_⟩
  have hblock : Charges 0 (d.passLoad maxProducerExecTime).timer ((d.passLoad maxProducerExecTime).timer.blockWindow cfg) :=
    .blockWindow _
  have hcharges := ((passLoad d maxProducerExecTime).trans hblock).trans
    (.dataCache _ d.microOp.uop.dCacheHitWhere (d.longLatencyLoadLatency maxProducerExecTime * d.microOp.uop.period))
  rw [Nat.zero_add] at hcharges
  exact hcharges

theorem memBarrier (d : Dispatch) (maxProducerExecTime : ℕ) : Charged d (d.memBarrier cfg maxProducerExecTime) :=
  (setExecTime d _).trans (updateCriticalPath _)

theorem shortLoad (d : Dispatch) (maxProducerExecTime : ℕ) : Charged d (d.shortLoad cfg maxProducerExecTime) := by
  have hcontend : Charged d (d.contend maxProducerExecTime) := quiet (.quiet (Frame.refl _) rfl) rfl
  exact (hcontend.trans (setExecTime _ _)).trans (updateCriticalPath _)

theorem accessLoad (d : Dispatch) (maxProducerExecTime : ℕ) : Charged d (d.accessLoad cfg maxProducerExecTime) := by
  rw [Dispatch.accessLoad]
  split_ifs
  · exact quiet (.refl _) rfl
  · exact longLatencyLoad d _
  · exact shortLoad d _

theorem load (d : Dispatch) (maxProducerExecTime : ℕ) : Charged d (d.load cfg maxProducerExecTime) :=
  (accessLoad d maxProducerExecTime).trans (quiet (.quiet (Frame.refl _) rfl) rfl)

theorem store (d : Dispatch) (maxProducerExecTime : ℕ) : Charged d (d.store cfg maxProducerExecTime) :=
  ((setExecTime d _).trans (updateCriticalPath _)).trans (quiet (.quiet (Frame.refl _) rfl) rfl)

theorem execute (d : Dispatch) (maxProducerExecTime : ℕ) : Charged d (d.execute cfg maxProducerExecTime) :=
  (setExecTime d _).trans (updateCriticalPath _)

theorem backEnd (d : Dispatch) (maxProducerExecTime : ℕ) : Charged d (d.backEnd cfg maxProducerExecTime) := by
  rw [Dispatch.backEnd]
  split_ifs
  · exact serialize d
  · exact memBarrier d _
  · exact load d _
  · exact store d _
  · exact execute d _

end Charged

theorem dispatchInstruction_charges (cfg : IntervalConfig) (t : IntervalTimer) :
    Charges ((t.dispatchInstruction cfg).latency * (t.entry t.windows.windowHead).uop.period) t
      (t.dispatchInstruction cfg).timer := by
  have hissue : Charges 0 t (t.issueMemOp cfg t.windows.windowHead) := .issueMemOp t _
  have hfront : Charged ⟨t.issueMemOp cfg t.windows.windowHead, 0, false⟩
      (Dispatch.frontEnd cfg ⟨t.issueMemOp cfg t.windows.windowHead, 0, false⟩ _) :=
    (Charged.instructionCache _ (t.issueMemOp cfg t.windows.windowHead).windows.criticalPathTail).trans
      (Charged.branchPredictor _ _)
  obtain ⟨latency, hlatency, hcharges⟩ := hfront.trans (Charged.backEnd _
    (IntervalTimer.getMaxProducerExecTime cfg (t.issueMemOp cfg t.windows.windowHead).windows
      (t.issueMemOp cfg t.windows.windowHead).windows.windowHead))
  have hperiod : (⟨t.issueMemOp cfg t.windows.windowHead, 0, false⟩ : Dispatch).microOp.uop.period =
      (t.entry t.windows.windowHead).uop.period := by
    have hperiod := hissue.frame.period t.windows.windowHead
    rw [Dispatch.microOp, hissue.frame.head]
    exact hperiod
  have hall := hissue.trans hcharges
  rw [hperiod, Nat.zero_add] at hall
  rw [Nat.zero_add] at hlatency
  rw [← hlatency] at hall
  exact hall

/-! ### Runs -/

/-- The clock period of an event is the given one. -/
def IntervalEvent.HasPeriod (period : ℕ) : IntervalEvent → Prop
  | .add u => u.period = period
  | .setPeriod p => p = period
  | _ => True

/-- The latency of the cycle so far. -/
def IntervalState.cycleLatency (s : IntervalState) : ℕ := s.cycle.elim 0 Cycle.latency

/-- The counters add up to the latencies, and every micro-op that waits has the clock period. -/
structure Complete (cfg : IntervalConfig) (period : ℕ) (s : IntervalState) : Prop where
  ring : Ring cfg.toWindowsConfig s.timer.windows
  clock : s.timer.period = period
  waiting : ∀ n, s.timer.windows.first ≤ n → n < s.timer.windows.nextSequenceNumber →
    (s.timer.windows.slot cfg.toWindowsConfig n).uop.period = period
  cycle : ∀ c, s.cycle = some c → c.microOpPeriod = period
  cpi : s.timer.cpi = (s.timer.totalLatency + s.cycleLatency) * period

namespace Complete

variable {period : ℕ} {s s' : IntervalState}

theorem start (cfg : IntervalConfig) (period : ℕ) : Complete cfg period (.start cfg period) where
  ring := ring_new _
  clock := rfl
  waiting n _ hn := absurd hn (Nat.not_lt_zero n)
  cycle c hc := by cases hc
  cpi := by
    rw [IntervalTimer.cpi]
    change 0 + 0 + 0 + 0 + (∑ _ : HitWhere, 0 + ∑ _ : HitWhere, 0) = (0 + 0) * period
    rw [Finset.sum_const_zero, Nat.zero_mul, Nat.add_zero]

/-- A new micro-op. -/
theorem add (h : Complete cfg period s) (hidle : s.cycle = none) {u : IntervalMicroOp} {w : Windows}
    (hadd : s.timer.windows.add cfg.toWindowsConfig u = some w) (hu : u.period = period) :
    Complete cfg period ⟨s.timer.setWindows w, none⟩ := by
  have hcpi := h.cpi
  rw [IntervalState.cycleLatency, hidle] at hcpi
  refine ⟨ring_add h.ring hadd, h.clock, fun n hge hlt => ?_, fun c hc => (by cases hc),
    (IntervalTimer.cpi_setWindows ..).trans hcpi⟩
  change w.first ≤ n at hge
  change n < w.nextSequenceNumber at hlt
  change (w.slot cfg.toWindowsConfig n).uop.period = period
  rw [add_first h.ring hadd] at hge
  rw [add_next h.ring hadd] at hlt
  by_cases hlast : n = s.timer.windows.nextSequenceNumber
  · obtain ⟨v, hv⟩ := add_slot_last h.ring hadd
    rw [hlast, hv]
    exact hu
  · rw [add_slot h.ring hadd (by omega) (by omega)]
    exact h.waiting n hge (by omega)

/-- One micro-op is dispatched. -/
theorem dispatch (h : Complete cfg period s) {c : Cycle} (hc : s.cycle = some c)
    (hgoes : c.goesOn cfg s.timer.windows = true) : Complete cfg period (dispatchRound cfg s.timer c) := by
  have hlength := goesOn_busy hgoes
  have hcharges := dispatchInstruction_charges cfg s.timer
  generalize hd : s.timer.dispatchInstruction cfg = d at hcharges
  have hframe := hcharges.frame
  have hring := hframe.ring h.ring
  have hlength' : 0 < d.timer.windows.windowLength := by rw [hframe.length]; exact hlength
  have hfirst := h.ring.first_add
  have hslot (n : ℕ) : (d.timer.windows.slot cfg.toWindowsConfig n).uop.period =
      (s.timer.windows.slot cfg.toWindowsConfig n).uop.period := hframe.period _
  have hperiod : (s.timer.entry s.timer.windows.windowHead).uop.period = period := by
    rw [IntervalTimer.entry, h.ring.head]
    exact h.waiting _ (le_refl _) (by omega)
  rw [dispatchRound, hd]
  refine ⟨ring_dispatchInstruction hring hlength', hcharges.period.trans h.clock, fun n hge hlt => ?_,
    fun c' hc' => ?_, ?_⟩
  · change (d.timer.windows.dispatchInstruction cfg.toWindowsConfig).first ≤ n at hge
    change n < (d.timer.windows.dispatchInstruction cfg.toWindowsConfig).nextSequenceNumber at hlt
    rw [dispatchInstruction_first hring hlength', hframe.first] at hge
    rw [dispatchInstruction_next, hframe.next] at hlt
    change ((d.timer.windows.dispatchInstruction cfg.toWindowsConfig).slot cfg.toWindowsConfig n).uop.period = period
    rw [dispatchInstruction_slot, hslot]
    exact h.waiting n (by omega) hlt
  · cases hc'
    change d.microOp.uop.period = period
    rw [← hperiod, Dispatch.microOp, hframe.head]
    exact hframe.period _
  · have hcpi := h.cpi
    rw [IntervalState.cycleLatency, hc] at hcpi
    change s.timer.cpi = (s.timer.totalLatency + c.latency) * period at hcpi
    change (d.timer.setWindows _).cpi = (d.timer.totalLatency + (c.latency + d.latency)) * period
    rw [IntervalTimer.cpi_setWindows, hcharges.cpi, hcpi, hperiod, hcharges.totalLatency, ← Nat.add_mul, Nat.add_assoc]

/-- A latency is returned. -/
theorem returned (h : Complete cfg period s) {t : IntervalTimer} {latency : ℕ}
    (hwindows : t.windows = s.timer.windows) (hclock : t.period = s.timer.period)
    (hcpi : t.cpi = (t.totalLatency + latency) * period) : Complete cfg period ⟨t.returnLatency latency, none⟩ where
  ring := by
    change Ring _ t.windows
    rw [hwindows]
    exact h.ring
  clock := hclock.trans h.clock
  waiting := by
    change ∀ n, t.windows.first ≤ n → n < t.windows.nextSequenceNumber →
      (t.windows.slot cfg.toWindowsConfig n).uop.period = period
    rw [hwindows]
    exact h.waiting
  cycle c hc := by cases hc
  cpi := by
    rw [IntervalTimer.cpi_returnLatency, hcpi]
    rfl

/-- The cycle finishes. -/
theorem finish (h : Complete cfg period s) {c : Cycle} (hc : s.cycle = some c) {t : IntervalTimer}
    (hfinish : finishCycle cfg s.timer c = .ok t) : Complete cfg period ⟨t, none⟩ := by
  have hcpi := h.cpi
  rw [IntervalState.cycleLatency, hc] at hcpi
  change s.timer.cpi = (s.timer.totalLatency + c.latency) * period at hcpi
  rw [finishCycle_ok hfinish]
  by_cases hzero : c.latency = 0
  · rw [if_pos hzero]
    refine h.returned rfl rfl ?_
    rw [hzero, Nat.add_zero] at hcpi
    change (s.timer.chargeBase c.microOpPeriod).cpi = (s.timer.totalLatency + 1) * period
    rw [IntervalTimer.cpi_chargeBase, h.cycle c hc, hcpi, Nat.add_mul, Nat.one_mul]
  · rw [if_neg hzero]
    exact h.returned rfl rfl hcpi

/-- The cycle begins. -/
theorem begin (h : Complete cfg period s) (hidle : s.cycle = none) {rate : ℕ} :
    Complete cfg period ⟨(s.timer.calculateCurrentDispatchRate cfg).1,
      some ⟨rate, 0, 0, 0, false, (s.timer.calculateCurrentDispatchRate cfg).1.period⟩⟩ := by
  have hcpi := h.cpi
  rw [IntervalState.cycleLatency, hidle] at hcpi
  obtain ⟨remaining, hrest⟩ := s.timer.calculateCurrentDispatchRate_rest cfg
  rw [hrest]
  refine ⟨h.ring, h.clock, h.waiting, fun c hc => ?_, (IntervalTimer.cpi_remaining ..).trans hcpi⟩
  cases hc
  exact h.clock

theorem step {e : IntervalEvent} (h : Complete cfg period s) (he : e.HasPeriod period)
    (hstep : (intervalMachine cfg).step s e = .ok s') : Complete cfg period s' := by
  cases e with
  | add u =>
    obtain ⟨hidle, rfl | ⟨w, hadd, rfl⟩⟩ := step_add hstep
    · exact h
    · refine h.add hidle hadd ?_
      rw [maskAddress]
      split_ifs
      · exact he
      · exact he
  | setPeriod p =>
    obtain ⟨hidle, rfl⟩ := step_setPeriod hstep
    have hcpi := h.cpi
    rw [IntervalState.cycleLatency, hidle] at hcpi
    exact ⟨h.ring, he, h.waiting, fun c hc => (by cases hc), (IntervalTimer.cpi_setPeriod ..).trans hcpi⟩
  | begin =>
    obtain ⟨hidle, -, rfl⟩ := step_begin hstep
    exact h.begin hidle
  | dispatch =>
    obtain ⟨c, hc, hgoes, rfl⟩ := step_dispatch hstep
    exact h.dispatch hc hgoes
  | finish =>
    obtain ⟨c, t, hc, -, hfinish, rfl⟩ := step_finish hstep
    exact h.finish hc hfinish

end Complete

/-- After any calls of `simulate` the counters add up to the latencies that they returned, if there is one clock period.
-/
theorem cpiStack_complete (cfg : IntervalConfig) (period : ℕ) {events : List IntervalEvent}
    (hperiod : ∀ e ∈ events, e.HasPeriod period) {s : IntervalState}
    (hrun : (intervalMachine cfg).run (.start cfg period) events = .ok s) (hidle : s.cycle = none) :
    s.timer.cpiBase + s.timer.cpiBranchPredictor + s.timer.cpiSerialization + s.timer.cpiLongLatency +
      (∑ h, s.timer.cpiInstructionCache h + ∑ h, s.timer.cpiDataCache h) = s.timer.totalLatency * period := by
  have hguarded := ((intervalMachine cfg).guarded_true (.start cfg period) events).and_forall hperiod
  have hcomplete : Complete cfg period s := (intervalMachine cfg).guarded_induction
    (fun _ _ _ h he hstep => h.step he.2 hstep) (.start cfg period) hguarded hrun
  have hcpi := hcomplete.cpi
  rw [IntervalState.cycleLatency, hidle] at hcpi
  rw [IntervalTimer.cpi] at hcpi
  exact hcpi

/-- One place in the window, and every access to memory takes 400 ns. -/
def onePlace : IntervalConfig where
  windowSize := 1
  doubleWindowSize_lt := by norm_num
  doFunctionalUnitContention := true
  longLatencyCutoff := 30
  longLatencyCutoff_lt := by norm_num
  dispatchWidth := 4
  branchMispredictionPenalty := 17
  memDepMask := -8
  lllDepMask := -64
  numOutstandingLoadstores := 10
  memory := fun _ => ⟨400000000, .dram⟩

/-- A load that misses in the instruction cache, with a period of 500 ps. -/
def missingLoad : IntervalMicroOp :=
  { WindowEntry.unfilled.uop with
    isLoad := true
    subtype := .load
    iCacheHitWhere := .l2Own
    iCacheLatency := 9
    period := 500000 }

/-- The load, and then another cycle without latency. -/
def loadEvents : List IntervalEvent :=
  [.add missingLoad, .begin, .dispatch, .finish, .add { WindowEntry.unfilled.uop with period := 500000 }, .begin,
    .dispatch, .finish]

theorem cpiStack_complete_load :
    let s := (intervalMachine onePlace).final (.start onePlace 500000) loadEvents
    s.timer.totalLatency = 811 ∧
      s.timer.cpiBase + s.timer.cpiBranchPredictor + s.timer.cpiSerialization + s.timer.cpiLongLatency +
        (∑ h, s.timer.cpiInstructionCache h + ∑ h, s.timer.cpiDataCache h) = s.timer.totalLatency * 500000 :=
  ⟨by decide +kernel, cpiStack_complete onePlace 500000
    (by
      intro e he
      fin_cases he <;> first | rfl | exact trivial)
    ((intervalMachine onePlace).run_final (by decide +kernel)) (Option.isNone_iff_eq_none.1 (by decide +kernel))⟩

end LifeSim.Interval
