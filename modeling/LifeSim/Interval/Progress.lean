import LifeSim.Interval.Bookkeeping

/-!
# The interval model makes progress

A micro-op of the old window contributes less than the long-latency cut-off to the critical path. So if the cut-off is
below the scale of the fixed-point numbers, the quotient of the length of the old window and that of the path is at
least the smallest positive number, and a call of `dispatchWindow` that dispatches nothing leaves more bandwidth than
before.
-/

namespace LifeSim.Interval

open LifeSim.Lib LifeSim.Rob Windows

variable {cfg : IntervalConfig} {s s' : IntervalState}

theorem toInt_le (n : ℕ) : toInt n ≤ n := by
  unfold toInt
  rw [Int.bmod_def]
  norm_num
  split_ifs <;> omega

theorem contribution_le {es : List WindowEntry} {bound : ℕ} (h : ∀ e ∈ es, e.cpContr ≤ bound) :
    contribution es ≤ es.length * bound := by
  induction es with
  | nil => exact Nat.zero_le _
  | cons e es ih =>
    rw [contribution_cons, List.length_cons, Nat.succ_mul]
    have hhead := h e List.mem_cons_self
    have htail := ih fun e he => h e (List.mem_cons_of_mem _ he)
    omega

/-! ### The dispatch rate -/

/-- The smallest positive number is not more than the quotient. -/
theorem Windows.Kept.quotient_pos {w : Windows} (h : Kept cfg.toWindowsConfig w)
    (hcutoff : cfg.longLatencyCutoff < fixedPointOne) (hlength : 0 < w.getCriticalPathLength) :
    0 < fixedPointOne * w.oldWindowLength /
      w.getEffectiveCriticalPathLength cfg.toWindowsConfig w.getCriticalPathLength := by
  have hbooked := h.booked
  rw [hbooked.length_eq] at hlength ⊢
  have htoInt := toInt_le w.cpcontrTotal
  have htotal : 0 < w.cpcontrTotal := by omega
  have hlt := toInt_lt w.cpcontrTotal
  have hcontribution : w.cpcontrTotal ≤ w.oldWindowLength * (cfg.longLatencyCutoff - 1) := by
    have hle := contribution_le h.small
    rw [length_oldWindow, ← h.stats.total] at hle
    exact hle
  have hbound : w.cpcontrTotal ≤ fixedPointOne * w.oldWindowLength := by
    rw [Nat.mul_comm]
    exact hcontribution.trans (Nat.mul_le_mul_left _ (by omega))
  have hnonneg : toInt w.cpcontrTotal % 2 ^ 64 = toInt w.cpcontrTotal := Int.emod_eq_of_lt hlength.le (by omega)
  have hvalue : (toInt w.cpcontrTotal % 2 ^ 64).toNat ≤ w.cpcontrTotal := by omega
  have hpos : 0 < (toInt w.cpcontrTotal % 2 ^ 64).toNat := by omega
  have heffective : 0 < w.getEffectiveCriticalPathLength cfg.toWindowsConfig (toInt w.cpcontrTotal) ∧
      w.getEffectiveCriticalPathLength cfg.toWindowsConfig (toInt w.cpcontrTotal) ≤
        fixedPointOne * w.oldWindowLength := by
    rw [getEffectiveCriticalPathLength]
    split_ifs
    · obtain ⟨hpos', -, hle⟩ := h.effective htotal (toInt w.cpcontrTotal % 2 ^ 64).toNat
      refine ⟨hpos', hle.trans (max_le (hvalue.trans hbound) ?_)⟩
      apply Nat.mul_le_mul_right
      norm_num [fixedPointOne]
    · exact ⟨hpos, hvalue.trans hbound⟩
  exact Nat.div_pos heffective.2 heffective.1

/-- The bandwidth that remains is less than one micro-op. -/
theorem remaining_lt (t : IntervalTimer) :
    (t.calculateCurrentDispatchRate cfg).1.remainingDispatchBandwidth < fixedPointOne := by
  rw [IntervalTimer.calculateCurrentDispatchRate]
  dsimp only
  split_ifs with hlength hrate
  · change _ - fixedPointOne * (_ / fixedPointOne) < fixedPointOne
    rw [← Nat.mod_eq_sub_mul_div]
    exact Nat.mod_lt _ (by norm_num [fixedPointOne])
  · norm_num [fixedPointOne]
  · norm_num [fixedPointOne]

/-- If nothing can be dispatched, the critical path has a length, and more bandwidth remains than before. -/
theorem calculateCurrentDispatchRate_zero {t : IntervalTimer} (h : Kept cfg.toWindowsConfig t.windows)
    (hwidth : 1 ≤ cfg.dispatchWidth) (hcutoff : cfg.longLatencyCutoff < fixedPointOne)
    (hzero : (t.calculateCurrentDispatchRate cfg).2 = 0) :
    0 < t.windows.getCriticalPathLength ∧
      t.remainingDispatchBandwidth < (t.calculateCurrentDispatchRate cfg).1.remainingDispatchBandwidth := by
  by_cases hlength : 0 < t.windows.getCriticalPathLength
  · refine ⟨hlength, ?_⟩
    have hquotient := h.quotient_pos hcutoff hlength
    rw [IntervalTimer.calculateCurrentDispatchRate, if_pos hlength] at hzero ⊢
    dsimp only at hzero ⊢
    rw [hzero, if_pos (by omega)]
    change _ < _ - fixedPointOne * 0
    omega
  · rw [IntervalTimer.calculateCurrentDispatchRate, if_neg hlength] at hzero
    change cfg.dispatchWidth = 0 at hzero
    omega

/-! ### The loop of `simulate` -/

/-- What `simulate` does while the window is full. -/
def IntervalEvent.InLoop : IntervalEvent → Prop
  | .begin => True
  | .dispatch => True
  | .finish => True
  | _ => False

/-- At most so many events of the loop are left. -/
def eventsLeft (cfg : IntervalConfig) (s : IntervalState) : ℕ :=
  let idle := 2 * (fixedPointOne - s.timer.remainingDispatchBandwidth) + s.timer.windows.windowLength + 2
  match s.cycle with
  | none => if s.timer.windows.windowLength = cfg.windowSize then idle else 0
  | some c =>
    if s.timer.windows.windowLength = cfg.windowSize ∧ c.goesOn cfg s.timer.windows = false then idle + 1
    else s.timer.windows.windowLength + 1

/-- While the window has room the micro-ops of one cycle are left. -/
theorem eventsLeft_room (hroom : s.timer.windows.windowLength < cfg.windowSize) :
    eventsLeft cfg s ≤ s.timer.windows.windowLength + 1 := by
  rw [eventsLeft]
  split
  · rw [if_neg (by omega)]
    exact Nat.zero_le _
  · rw [if_neg (by omega)]

theorem eventsLeft_goesOn {c : Cycle} (hc : s.cycle = some c) (hgoes : c.goesOn cfg s.timer.windows = true) :
    eventsLeft cfg s = s.timer.windows.windowLength + 1 := by
  rw [eventsLeft, hc]
  exact if_neg (by simp [hgoes])

/-- A cycle begins when the window is full. -/
theorem begin_full (hstep : (intervalMachine cfg).step s .begin = .ok s') :
    s.cycle = none ∧ s.timer.windows.windowLength = cfg.windowSize := by
  obtain ⟨hidle, hfull, -⟩ := step_begin hstep
  exact ⟨hidle, by simpa [wIsFull] using hfull⟩

/-- A cycle that begins can dispatch, or leaves more bandwidth. -/
theorem begin_cases (h : PathInv cfg s) (hwidth : 1 ≤ cfg.dispatchWidth) (hsize : 1 ≤ cfg.windowSize)
    (hcutoff : cfg.longLatencyCutoff < fixedPointOne) (hidle : s.cycle = none)
    (hfull : s.timer.windows.windowLength = cfg.windowSize) :
    ∃ t c, (intervalMachine cfg).step s .begin = .ok ⟨t, some c⟩ ∧ t.windows = s.timer.windows ∧
      (c.goesOn cfg t.windows = true ∨ c.goesOn cfg t.windows = false ∧ 0 < s.timer.windows.getCriticalPathLength ∧
        s.timer.remainingDispatchBandwidth < t.remainingDispatchBandwidth ∧
        t.remainingDispatchBandwidth < fixedPointOne) := by
  obtain ⟨remaining, hrest⟩ := s.timer.calculateCurrentDispatchRate_rest cfg
  have hwindows : (s.timer.calculateCurrentDispatchRate cfg).1.windows = s.timer.windows := by rw [hrest]
  refine ⟨(s.timer.calculateCurrentDispatchRate cfg).1, ⟨(s.timer.calculateCurrentDispatchRate cfg).2, 0, 0, 0, false,
    (s.timer.calculateCurrentDispatchRate cfg).1.period⟩, ?_, hwindows, ?_⟩
  · simp only [intervalMachine]
    rw [hidle]
    dsimp only
    rw [if_pos (by rw [wIsFull, decide_eq_true_eq]; exact hfull)]
  · have hbusy : s.timer.windows.wIsEmpty = false := by
      rw [wIsEmpty, decide_eq_false_iff_not, hfull]
      omega
    rw [hwindows, Cycle.goesOn, hbusy]
    by_cases hrate : 0 < (s.timer.calculateCurrentDispatchRate cfg).2
    · exact .inl (by simpa [hrate] using Nat.lt_of_lt_of_le Nat.zero_lt_one hwidth)
    · have hzero : (s.timer.calculateCurrentDispatchRate cfg).2 = 0 := by omega
      obtain ⟨hlength, hmore⟩ := calculateCurrentDispatchRate_zero h hwidth hcutoff hzero
      exact .inr ⟨by simp [hzero], hlength, hmore, remaining_lt s.timer⟩

/-- The window of a cycle in which a micro-op has been dispatched. -/
theorem dispatchRound_windowLength (t : IntervalTimer) (c : Cycle) :
    (dispatchRound cfg t c).timer.windows.windowLength = t.windows.windowLength - 1 := by
  change ((t.dispatchInstruction cfg).timer.windows.dispatchInstruction cfg.toWindowsConfig).windowLength = _
  rw [dispatchInstruction_windowLength, t.dispatchInstruction_frame.length]

theorem finishCycle_bandwidth {t t' : IntervalTimer} {c : Cycle} (h : finishCycle cfg t c = .ok t') :
    t'.remainingDispatchBandwidth = t.remainingDispatchBandwidth := by
  rw [finishCycle_ok h]
  split <;> rfl

/-- Every event of the loop leaves fewer of them. -/
theorem eventsLeft_step (h : PathInv cfg s) (hwidth : 1 ≤ cfg.dispatchWidth) (hsize : 1 ≤ cfg.windowSize)
    (hcutoff : cfg.longLatencyCutoff < fixedPointOne) {e : IntervalEvent} (he : e.InLoop)
    (hstep : (intervalMachine cfg).step s e = .ok s') : eventsLeft cfg s' < eventsLeft cfg s := by
  have hle := (Kept.ring h).windowLength_le
  cases e with
  | add u => cases he
  | setPeriod period => cases he
  | begin =>
    obtain ⟨hidle, hfull⟩ := begin_full hstep
    obtain ⟨t, c, hok, hwindows, hcases⟩ := begin_cases h hwidth hsize hcutoff hidle hfull
    rw [hok] at hstep
    cases hstep
    rw [eventsLeft, eventsLeft, hidle]
    dsimp only
    rw [hwindows, if_pos hfull]
    rcases hcases with hgoes | ⟨hgoes, -, hmore, hlt⟩
    · rw [hwindows] at hgoes
      rw [if_neg (by simp [hgoes])]
      omega
    · rw [hwindows] at hgoes
      rw [if_pos ⟨hfull, hgoes⟩]
      omega
  | dispatch =>
    obtain ⟨c, hc, hgoes, rfl⟩ := step_dispatch hstep
    have hbusy := goesOn_busy hgoes
    have hroom : (dispatchRound cfg s.timer c).timer.windows.windowLength < cfg.windowSize := by
      rw [dispatchRound_windowLength]
      omega
    have hleft := eventsLeft_room hroom
    rw [dispatchRound_windowLength] at hleft
    rw [eventsLeft_goesOn hc hgoes]
    omega
  | finish =>
    obtain ⟨c, t, hc, hgoes, hfinish, rfl⟩ := step_finish hstep
    rw [eventsLeft, eventsLeft, hc]
    dsimp only
    rw [finishCycle_windows hfinish, finishCycle_bandwidth hfinish]
    split_ifs with hfull hstopped hstopped
    · omega
    · exact absurd ⟨hfull, by simpa using hgoes⟩ hstopped
    · omega
    · omega

/-- A call of `dispatchWindow` that dispatches nothing leaves more bandwidth than before. -/
theorem bandwidth_lt (h : PathInv cfg s) (hwidth : 1 ≤ cfg.dispatchWidth) (hsize : 1 ≤ cfg.windowSize)
    (hcutoff : cfg.longLatencyCutoff < fixedPointOne) (hrun : (intervalMachine cfg).run s [.begin, .finish] = .ok s') :
    s.timer.remainingDispatchBandwidth < s'.timer.remainingDispatchBandwidth := by
  obtain ⟨s₁, hbegin, hrest⟩ := (intervalMachine cfg).run_cons_ok hrun
  obtain ⟨s₂, hfinish, hnil⟩ := (intervalMachine cfg).run_cons_ok hrest
  cases hnil
  obtain ⟨hidle, hfull⟩ := begin_full hbegin
  obtain ⟨t, c, hok, -, hcases⟩ := begin_cases h hwidth hsize hcutoff hidle hfull
  rw [hok] at hbegin
  cases hbegin
  obtain ⟨c', t', hc, hstops, hcycle, rfl⟩ := step_finish hfinish
  cases hc
  rcases hcases with hgoes | ⟨-, -, hmore, -⟩
  · exact absurd hgoes hstops
  · rw [finishCycle_bandwidth hcycle]
    exact hmore

/-- A cycle whose critical path has a length does not go wrong at its end. -/
theorem not_wholeTurns (h : PathInv cfg s) (hlength : 0 < s.timer.windows.getCriticalPathLength) :
    ¬ WholeTurns cfg s .finish := by
  rintro ⟨-, -, hdvd, -⟩
  have hbooked := Kept.booked h
  rw [hbooked.length_eq] at hlength
  rw [← hbooked.total, ← signExtend_eq_zero_iff, signExtend] at hdvd
  have hlt := toInt_lt s.timer.windows.cpcontrTotal
  omega

/-- After some calls that dispatch nothing a micro-op is dispatched. -/
theorem eventually_dispatch (h : PathInv cfg s) (hwidth : 1 ≤ cfg.dispatchWidth) (hsize : 1 ≤ cfg.windowSize)
    (hcutoff : cfg.longLatencyCutoff < fixedPointOne) (hidle : s.cycle = none)
    (hfull : s.timer.windows.windowLength = cfg.windowSize) :
    ∃ calls s', (intervalMachine cfg).run s ((List.replicate calls [.begin, .finish]).flatten ++ [.begin, .dispatch]) =
      .ok s' ∧ s'.timer.windows.windowLength < cfg.windowSize := by
  generalize hn : fixedPointOne - s.timer.remainingDispatchBandwidth = n
  induction n using Nat.strong_induction_on generalizing s with
  | _ n ih =>
    obtain ⟨t, c, hok, hwindows, hcases⟩ := begin_cases h hwidth hsize hcutoff hidle hfull
    have hpath := h.step hok
    rcases hcases with hgoes | ⟨hgoes, hlength, hmore, hlt⟩
    · have hdispatch : (intervalMachine cfg).step ⟨t, some c⟩ .dispatch = .ok (dispatchRound cfg t c) := if_pos hgoes
      refine ⟨0, dispatchRound cfg t c, ?_, ?_⟩
      · rw [List.replicate_zero, List.flatten_nil, List.nil_append, Machine.run_cons, hok]
        change (intervalMachine cfg).run ⟨t, some c⟩ [.dispatch] = _
        rw [Machine.run_cons, hdispatch]
        rfl
      · rw [dispatchRound_windowLength, hwindows]
        omega
    · have hlength' : 0 < t.windows.getCriticalPathLength := by rwa [hwindows]
      obtain ⟨t', hfinish, hok'⟩ := finish_ok hpath rfl hgoes (not_wholeTurns hpath hlength')
      have hbandwidth : t'.remainingDispatchBandwidth = t.remainingDispatchBandwidth := finishCycle_bandwidth hfinish
      have hwindows' := finishCycle_windows hfinish
      have hless : fixedPointOne - t'.remainingDispatchBandwidth < n := by omega
      obtain ⟨calls, s', hrun, hroom⟩ := ih _ hless (s := ⟨t', none⟩) (hpath.step hok') rfl
        (by rw [hwindows', hwindows, hfull]) rfl
      refine ⟨calls + 1, s', ?_, hroom⟩
      rw [List.replicate_succ, List.flatten_cons, List.append_assoc]
      apply (intervalMachine cfg).run_append _ hrun
      rw [Machine.run_cons, hok]
      change (intervalMachine cfg).run ⟨t, some c⟩ [.finish] = _
      rw [Machine.run_cons, hok']
      rfl

/-- Events of the loop lead to its end, or to a cycle whose division goes wrong. -/
def LoopEnds (cfg : IntervalConfig) (s : IntervalState) : Prop :=
  ∃ events s', (∀ e ∈ events, IntervalEvent.InLoop e) ∧ (intervalMachine cfg).run s events = .ok s' ∧
    (s'.cycle = none ∧ s'.timer.windows.windowLength < cfg.windowSize ∨ WholeTurns cfg s' .finish)

theorem LoopEnds.cons {e : IntervalEvent} (he : e.InLoop) (hstep : (intervalMachine cfg).step s e = .ok s')
    (h : LoopEnds cfg s') : LoopEnds cfg s := by
  obtain ⟨events, s'', hevents, hrun, hend⟩ := h
  refine ⟨e :: events, s'', List.forall_mem_cons.2 ⟨he, hevents⟩, ?_, hend⟩
  rw [Machine.run_cons, hstep]
  exact hrun

theorem loopEnds (h : PathInv cfg s) (hwidth : 1 ≤ cfg.dispatchWidth) (hsize : 1 ≤ cfg.windowSize)
    (hcutoff : cfg.longLatencyCutoff < fixedPointOne) : LoopEnds cfg s := by
  generalize hn : eventsLeft cfg s = n
  induction n using Nat.strong_induction_on generalizing s with
  | _ n ih =>
    have hnext {s' : IntervalState} {e : IntervalEvent} (he : e.InLoop)
        (hstep : (intervalMachine cfg).step s e = .ok s') : LoopEnds cfg s := by
      have hless := eventsLeft_step h hwidth hsize hcutoff he hstep
      exact .cons he hstep (ih _ (by omega) (h.step hstep) rfl)
    cases hc : s.cycle with
    | none =>
      by_cases hfull : s.timer.windows.windowLength = cfg.windowSize
      · obtain ⟨t, c, hok, -⟩ := begin_cases h hwidth hsize hcutoff hc hfull
        exact hnext (e := .begin) trivial hok
      · have hle := (Kept.ring h).windowLength_le
        exact ⟨[], s, List.forall_mem_nil _, rfl, .inl ⟨hc, by omega⟩⟩
    | some c =>
      by_cases hgoes : c.goesOn cfg s.timer.windows = true
      · have hdispatch : (intervalMachine cfg).step s .dispatch = .ok (dispatchRound cfg s.timer c) := by
          simp only [intervalMachine]
          rw [hc]
          exact if_pos hgoes
        exact hnext (e := .dispatch) trivial hdispatch
      · by_cases hturns : WholeTurns cfg s .finish
        · exact ⟨[], s, List.forall_mem_nil _, rfl, .inr hturns⟩
        · obtain ⟨t, -, hok⟩ := finish_ok h hc (by simpa using hgoes) hturns
          exact hnext (e := .finish) trivial hok

/-- In every state of a run a call that dispatches nothing leaves more bandwidth than before, from a full window some
calls lead to the dispatch of a micro-op, and the loop ends, since it has only so many events left. -/
theorem simulate_progress (cfg : IntervalConfig) (period : ℕ) (hwidth : 1 ≤ cfg.dispatchWidth)
    (hsize : 1 ≤ cfg.windowSize) (hcutoff : cfg.longLatencyCutoff < 2 ^ 14) (s : IntervalState)
    (h : (intervalMachine cfg).Reachable (.start cfg period) s) :
    (∀ s', (intervalMachine cfg).run s [.begin, .finish] = .ok s' →
        s.timer.remainingDispatchBandwidth < s'.timer.remainingDispatchBandwidth) ∧
      (s.cycle = none → s.timer.windows.wIsFull cfg.toWindowsConfig = true → ∃ calls s',
        (intervalMachine cfg).run s ((List.replicate calls [.begin, .finish]).flatten ++ [.begin, .dispatch]) = .ok s' ∧
          s'.timer.windows.wIsFull cfg.toWindowsConfig = false) ∧
      LoopEnds cfg s ∧
      ∀ events s', (∀ e ∈ events, IntervalEvent.InLoop e) → (intervalMachine cfg).run s events = .ok s' →
        events.length ≤ eventsLeft cfg s := by
  have hpath : PathInv cfg s := h.invariant (.start cfg period) fun _ _ _ h hstep => h.step hstep
  refine ⟨fun s' => bandwidth_lt hpath hwidth hsize hcutoff, fun hidle hfull => ?_,
    loopEnds hpath hwidth hsize hcutoff, fun events s' hevents hrun => ?_⟩
  · rw [wIsFull, decide_eq_true_eq] at hfull
    obtain ⟨calls, s', hrun, hroom⟩ := eventually_dispatch hpath hwidth hsize hcutoff hidle hfull
    refine ⟨calls, s', hrun, ?_⟩
    rw [wIsFull, decide_eq_false_iff_not]
    exact hroom.ne
  · have hle := (intervalMachine cfg).run_length_le (P := PathInv cfg) (eventsLeft cfg)
      (fun _ _ _ h he hstep => ⟨h.step hstep, eventsLeft_step h hwidth hsize hcutoff he hstep⟩) hpath hevents hrun
    omega

theorem slowCore_cutoff : 30 < 2 ^ 32 := by norm_num

/-- Two places, one of which has a micro-op of 20 cycles behind it. -/
def slowCore : IntervalConfig where
  windowSize := 2
  doubleWindowSize_lt := twoPlaces_size
  doFunctionalUnitContention := true
  longLatencyCutoff := 30
  longLatencyCutoff_lt := slowCore_cutoff
  dispatchWidth := 4
  branchMispredictionPenalty := 17
  memDepMask := -8
  lllDepMask := -64
  numOutstandingLoadstores := 10
  memory := fun _ => ⟨0, .dram⟩

/-- A micro-op of 20 cycles is dispatched, and the window is full again. -/
def slowEvents : List IntervalEvent :=
  [.add { WindowEntry.unfilled.uop with execLatency := 20 }, .add WindowEntry.unfilled.uop, .begin, .dispatch, .dispatch,
    .finish, .add WindowEntry.unfilled.uop, .add WindowEntry.unfilled.uop]

theorem simulate_progress_slow :
    let s := (intervalMachine slowCore).final (.start slowCore 1) slowEvents
    (∃ calls s', (intervalMachine slowCore).run s
        ((List.replicate calls [.begin, .finish]).flatten ++ [.begin, .dispatch]) = .ok s' ∧
          s'.timer.windows.wIsFull slowCore.toWindowsConfig = false) ∧ LoopEnds slowCore s := by
  have hprogress := simulate_progress slowCore 1 (by decide) (by decide) (by decide)
    ((intervalMachine slowCore).final (.start slowCore 1) slowEvents)
    ⟨slowEvents, (intervalMachine slowCore).run_final (by decide +kernel)⟩
  exact ⟨hprogress.2.1 (Option.isNone_iff_eq_none.1 (by decide +kernel)) (by decide +kernel), hprogress.2.2.1⟩

end LifeSim.Interval
