import LifeSim.Interval.PathRuns

/-!
# The critical path bookkeeping

In every state of a run the head, the tail and the totals of the critical path are those of the old window. The length
of the path that `dispatchWindow` divides by has only 32 bits, and the check in `getCpContrFraction` is made on the
64-bit total. So the division goes wrong exactly if the length is a positive multiple of `2 ^ 32` and no contention
replaces it.
-/

namespace LifeSim.Interval

open LifeSim.Lib LifeSim.Rob Windows

variable {cfg : IntervalConfig} {s s' : IntervalState} {e : IntervalEvent}

/-- The critical path is that of the old window. -/
def PathInv (cfg : IntervalConfig) (s : IntervalState) : Prop := Kept cfg.toWindowsConfig s.timer.windows

theorem finishCycle_windows {t t' : IntervalTimer} {c : Cycle} (h : finishCycle cfg t c = .ok t') :
    t'.windows = t.windows := by
  rw [finishCycle_ok h]
  split <;> rfl

namespace PathInv

theorem start (cfg : IntervalConfig) (period : ℕ) : PathInv cfg (.start cfg period) := kept_new _

/-- One micro-op is dispatched, and the tail does not move back. -/
theorem dispatch (h : PathInv cfg s) {c : Cycle} (hgoes : c.goesOn cfg s.timer.windows = true) :
    PathInv cfg (dispatchRound cfg s.timer c) ∧
      s.timer.windows.criticalPathTail ≤ (dispatchRound cfg s.timer c).timer.windows.criticalPathTail := by
  have hready := IntervalTimer.dispatchInstruction_ready h (goesOn_busy hgoes)
  obtain ⟨hkept, htail⟩ := hready.dispatch
  exact ⟨hkept, hready.later.trans htail.ge⟩

theorem step (h : PathInv cfg s) (hstep : (intervalMachine cfg).step s e = .ok s') : PathInv cfg s' := by
  cases e with
  | add u =>
    obtain ⟨-, rfl | ⟨w, hadd, rfl⟩⟩ := step_add hstep
    · exact h
    · exact Kept.add h hadd
  | setPeriod period =>
    obtain ⟨-, rfl⟩ := step_setPeriod hstep
    exact h
  | begin =>
    obtain ⟨-, -, rfl⟩ := step_begin hstep
    obtain ⟨remaining, hrest⟩ := s.timer.calculateCurrentDispatchRate_rest cfg
    rw [PathInv, hrest]
    exact h
  | dispatch =>
    obtain ⟨c, -, hgoes, rfl⟩ := step_dispatch hstep
    exact (h.dispatch hgoes).1
  | finish =>
    obtain ⟨c, t, -, -, hfinish, rfl⟩ := step_finish hstep
    rw [PathInv, finishCycle_windows hfinish]
    exact h

end PathInv

/-! ### What the bookkeeping says -/

/-- The head, the tail and the totals of the critical path fit the old window. -/
structure Booked (cfg : WindowsConfig) (w : Windows) : Prop where
  head_le : w.criticalPathHead ≤ w.criticalPathTail
  execTime_le : ∀ e ∈ w.oldWindow cfg, e.execTime ≤ w.criticalPathTail
  total : w.cpcontrTotal = w.criticalPathTail - w.criticalPathHead
  contributions : w.cpcontrTotal = contribution (w.oldWindow cfg)
  types : ∑ type, w.cpcontrBytype type = w.cpcontrTotal
  noWarning : ¬ w.PathReversed

theorem Windows.Kept.booked {cfg : WindowsConfig} {w : Windows} (h : Kept cfg w) : Booked cfg w where
  head_le := by
    have htail := h.along.tail_eq
    omega
  execTime_le e he := h.along.execTime_le he
  total := by
    have htail := h.along.tail_eq
    rw [h.stats.total]
    omega
  contributions := h.stats.total
  types := by
    rw [Finset.sum_congr rfl fun type _ => h.stats.bytype type, sum_typeContribution, h.stats.total]
  noWarning := by
    have htail := h.along.tail_eq
    apply not_not_intro
    omega

theorem Booked.bytype_le {cfg : WindowsConfig} {w : Windows} (h : Booked cfg w) (type : CpContrType) :
    w.cpcontrBytype type ≤ w.cpcontrTotal := by
  rw [← h.types]
  exact Finset.single_le_sum (fun _ _ => Nat.zero_le _) (Finset.mem_univ type)

theorem Booked.length_eq {cfg : WindowsConfig} {w : Windows} (h : Booked cfg w) :
    w.getCriticalPathLength = toInt w.cpcontrTotal := by
  rw [getCriticalPathLength, if_neg h.noWarning, h.total]

/-! ### The division -/

/-- A value as an `int` that is passed on as 64 bits without sign. -/
def signExtend (n : ℕ) : ℕ := (toInt n % 2 ^ 64).toNat

theorem signExtend_cases (n : ℕ) : signExtend n < 2 ^ 31 ∧ signExtend n = n % 2 ^ 32 ∨
    2 ^ 64 - 2 ^ 31 ≤ signExtend n ∧ signExtend n < 2 ^ 64 ∧ signExtend n % 2 ^ 32 = n % 2 ^ 32 ∧ n % 2 ^ 32 ≠ 0 := by
  unfold signExtend toInt
  rw [Int.bmod_def]
  norm_num
  split_ifs <;> omega

/-- What is passed on is zero only for whole turns. -/
theorem signExtend_eq_zero_iff (n : ℕ) : signExtend n = 0 ↔ 2 ^ 32 ∣ n := by
  rw [Nat.dvd_iff_mod_eq_zero]
  have hcases := signExtend_cases n
  omega

theorem signExtend_signExtend (n : ℕ) : signExtend (signExtend n) = 0 ↔ 2 ^ 32 ∣ n := by
  rw [signExtend_eq_zero_iff, Nat.dvd_iff_mod_eq_zero, Nat.dvd_iff_mod_eq_zero]
  have hcases := signExtend_cases n
  omega

/-- A micro-op of the old window is counted. -/
theorem Windows.Kept.counted {cfg : WindowsConfig} {w : Windows} (h : Kept cfg w) (htotal : 0 < w.cpcontrTotal) :
    ∃ port, 0 < w.contention.countByPort port := by
  rw [h.stats.total] at htotal
  cases hold : w.oldWindow cfg with
  | nil =>
    rw [hold] at htotal
    cases htotal
  | cons e es =>
    refine ⟨e.uop.port, ?_⟩
    rw [h.stats.counts, hold, List.map_cons, countPort_cons, if_pos rfl]
    exact Nat.succ_pos _

theorem Windows.Kept.count_le {cfg : WindowsConfig} {w : Windows} (h : Kept cfg w) (port : Port) :
    w.contention.countByPort port ≤ w.oldWindowLength := by
  rw [h.stats.counts, countPort]
  apply List.countP_le_length.trans
  rw [List.length_map, length_oldWindow]

/-- With contention a path with contributions has an effective length, which is the length itself if that is large. -/
theorem Windows.Kept.effective {cfg : WindowsConfig} {w : Windows} (h : Kept cfg w) (htotal : 0 < w.cpcontrTotal)
    (length : ℕ) :
    0 < w.contention.getEffectiveCriticalPathLength length ∧
      length ≤ w.contention.getEffectiveCriticalPathLength length ∧
      w.contention.getEffectiveCriticalPathLength length ≤ max length (2 * w.oldWindowLength) := by
  refine ⟨?_, ?_, ?_⟩
  · by_contra hzero
    obtain ⟨port, hport⟩ := h.counted htotal
    obtain ⟨-, hports, h05, h015⟩ := (effective_le_iff w.contention length 0).1 (by omega)
    have h0 := hports .port0 (by decide) (by decide)
    have h1 := hports .port1 (by decide) (by decide)
    have h2 := hports .port2 (by decide) (by decide)
    have h34 := hports .port34 (by decide) (by decide)
    rw [use05] at h05
    rw [use015] at h015
    cases port <;> omega
  · exact ((effective_le_iff _ length _).1 (le_refl _)).1
  · rw [effective_le_iff]
    have hle (port : Port) : w.contention.countByPort port ≤ w.oldWindowLength := h.count_le port
    refine ⟨le_max_left _ _, fun port _ _ => ?_, ?_, ?_⟩
    · have hport := hle port
      omega
    · have h0 := hle .port0
      have h5 := hle .port5
      have h05 := hle .port05
      rw [use05]
      omega
    · have h0 := hle .port0
      have h1 := hle .port1
      have h5 := hle .port5
      have h015 := hle .port015
      rw [use015]
      omega

/-- The divisor is zero exactly if there is no contention and the length is a number of whole turns. -/
theorem Windows.Kept.divisor_eq_zero_iff {cfg : WindowsConfig} {w : Windows} (h : Kept cfg w)
    (htotal : 0 < w.cpcontrTotal) :
    signExtend (w.getEffectiveCriticalPathLength cfg w.getCriticalPathLength) = 0 ↔
      cfg.doFunctionalUnitContention = false ∧ 2 ^ 32 ∣ w.criticalPathTail - w.criticalPathHead := by
  have hbooked := h.booked
  have hsize := cfg.doubleWindowSize_lt
  have hold := h.ring.oldWindowLength_le
  rw [hbooked.length_eq, ← hbooked.total, getEffectiveCriticalPathLength]
  change signExtend (if cfg.doFunctionalUnitContention then
    w.contention.getEffectiveCriticalPathLength (signExtend w.cpcontrTotal) else signExtend w.cpcontrTotal) = 0 ↔ _
  cases cfg.doFunctionalUnitContention with
  | false =>
    rw [if_neg Bool.false_ne_true, signExtend_signExtend]
    exact (and_iff_right rfl).symm
  | true =>
    rw [if_pos rfl]
    refine ⟨fun hzero => ?_, fun hfalse => (by cases hfalse.1)⟩
    rw [signExtend_eq_zero_iff, Nat.dvd_iff_mod_eq_zero] at hzero
    obtain ⟨hpos, hge, hle⟩ := h.effective htotal (signExtend w.cpcontrTotal)
    have hcases := signExtend_cases w.cpcontrTotal
    omega

/-! ### The checks of `dispatchWindow` -/

/-- The fractions are computed if the divisor is not zero, or not needed. -/
theorem IntervalTimer.cpContrFractions_ok {t : IntervalTimer} (hbooked : Booked cfg.toWindowsConfig t.windows)
    (h : t.windows.cpcontrTotal = 0 ∨ signExtend (t.windows.getEffectiveCriticalPathLength cfg.toWindowsConfig
      t.windows.getCriticalPathLength) ≠ 0) : t.cpContrFractions cfg = .ok () := by
  have hfraction (type : CpContrType) : ∃ n, t.windows.getCpContrFraction type (signExtend
      (t.windows.getEffectiveCriticalPathLength cfg.toWindowsConfig t.windows.getCriticalPathLength)) = .ok n := by
    rw [getCpContrFraction, if_neg (Nat.not_lt.2 (hbooked.bytype_le type))]
    split_ifs with htotal hzero
    · exact ⟨_, rfl⟩
    · exact absurd hzero (h.resolve_left htotal)
    · exact ⟨_, rfl⟩
  rw [cpContrFractions]
  generalize [CpContrType.fpAddSub, .fpMulDiv, .loadL1, .loadL2, .loadL3, .loadLX, .store, .generic, .branch] = types
  induction types with
  | nil => rfl
  | cons type types ih =>
    obtain ⟨n, hn⟩ := hfraction type
    change (t.windows.getCpContrFraction type (signExtend _) >>= fun _ => .ok ()) >>= _ = _
    rw [hn]
    exact ih

/-- The first division goes wrong. -/
theorem IntervalTimer.cpContrFractions_error {t : IntervalTimer} (hbooked : Booked cfg.toWindowsConfig t.windows)
    (htotal : 0 < t.windows.cpcontrTotal) (hzero : signExtend (t.windows.getEffectiveCriticalPathLength
      cfg.toWindowsConfig t.windows.getCriticalPathLength) = 0) : t.cpContrFractions cfg = .error .divisionByZero := by
  have hfraction : t.windows.getCpContrFraction .fpAddSub (signExtend
      (t.windows.getEffectiveCriticalPathLength cfg.toWindowsConfig t.windows.getCriticalPathLength)) =
      .error .divisionByZero := by
    rw [getCpContrFraction, if_neg (Nat.not_lt.2 (hbooked.bytype_le _)), if_neg htotal.ne', if_pos hzero]
  rw [cpContrFractions]
  change (t.windows.getCpContrFraction .fpAddSub (signExtend _) >>= fun _ => .ok ()) >>= _ = _
  rw [hfraction]
  rfl

/-- A cycle without latency ends with its dispatch rate used up, there is no contention, and the length of the critical
path is a number of whole turns of 32 bits. -/
def WholeTurns (cfg : IntervalConfig) (s : IntervalState) : IntervalEvent → Prop
  | .finish => cfg.doFunctionalUnitContention = false ∧
      0 < s.timer.windows.criticalPathTail - s.timer.windows.criticalPathHead ∧
      2 ^ 32 ∣ s.timer.windows.criticalPathTail - s.timer.windows.criticalPathHead ∧
      ∃ c ∈ s.cycle, c.goesOn cfg s.timer.windows = false ∧ c.latency = 0 ∧ c.dispatchRate ≤ c.microOpsExecuted
  | _ => False

instance (cfg : IntervalConfig) (s : IntervalState) (e : IntervalEvent) : Decidable (WholeTurns cfg s e) :=
  match e with
  | .finish => inferInstanceAs (Decidable (_ ∧ _ ∧ _ ∧ ∃ c ∈ s.cycle, _))
  | .add _ => .isFalse not_false
  | .setPeriod _ => .isFalse not_false
  | .begin => .isFalse not_false
  | .dispatch => .isFalse not_false

/-- The division at the end of the cycle goes wrong. -/
theorem finish_divides (h : PathInv cfg s) (hturns : WholeTurns cfg s .finish) :
    (intervalMachine cfg).step s .finish = .error .divisionByZero := by
  obtain ⟨hoff, hpos, hdvd, c, hc, hgoes, hlatency, hrate⟩ := hturns
  have hbooked := Kept.booked h
  rw [Option.mem_def] at hc
  have hzero := (Kept.divisor_eq_zero_iff h (by rwa [hbooked.total])).2 ⟨hoff, hdvd⟩
  rw [← hbooked.total] at hpos
  simp only [intervalMachine]
  rw [hc]
  dsimp only
  rw [if_neg (by simp [hgoes]), finishCycle, if_pos hlatency]
  dsimp only
  rw [if_pos hrate, IntervalTimer.cpContrFractions_error hbooked hpos hzero]
  rfl

/-- Any other cycle finishes. -/
theorem finish_ok (h : PathInv cfg s) {c : Cycle} (hc : s.cycle = some c) (hgoes : c.goesOn cfg s.timer.windows = false)
    (hturns : ¬ WholeTurns cfg s .finish) :
    ∃ t, finishCycle cfg s.timer c = .ok t ∧ (intervalMachine cfg).step s .finish = .ok ⟨t, none⟩ := by
  have hbooked := Kept.booked h
  have hfinish : ∃ t, finishCycle cfg s.timer c = .ok t := by
    rw [finishCycle]
    split_ifs with hlatency hrate
    · have hchecked : s.timer.cpContrFractions cfg = .ok () := by
        apply IntervalTimer.cpContrFractions_ok hbooked
        by_contra hzero
        rw [not_or, not_not] at hzero
        have htotal := Nat.pos_of_ne_zero hzero.1
        obtain ⟨hoff, hdvd⟩ := (Kept.divisor_eq_zero_iff h htotal).1 hzero.2
        rw [hbooked.total] at htotal
        exact hturns ⟨hoff, htotal, hdvd, c, hc, hgoes, hlatency, hrate⟩
      rw [hchecked]
      exact ⟨_, rfl⟩
    · exact ⟨_, rfl⟩
    · exact ⟨_, rfl⟩
  obtain ⟨t, ht⟩ := hfinish
  refine ⟨t, ht, ?_⟩
  simp only [intervalMachine]
  rw [hc]
  dsimp only
  rw [if_neg (by simp [hgoes]), ht]
  rfl

/-- Only the end of a cycle divides. -/
theorem step_divides_iff (h : PathInv cfg s) (e : IntervalEvent) :
    (intervalMachine cfg).step s e = .error .divisionByZero ↔ WholeTurns cfg s e := by
  cases e with
  | finish =>
    refine ⟨fun herror => ?_, finish_divides h⟩
    by_contra hturns
    cases hc : s.cycle with
    | none => simp [intervalMachine, hc] at herror
    | some c =>
      by_cases hgoes : c.goesOn cfg s.timer.windows = true
      · simp [intervalMachine, hc, hgoes] at herror
      · obtain ⟨t, -, hok⟩ := finish_ok h hc (by simpa using hgoes) hturns
        rw [hok] at herror
        cases herror
  | add u =>
    simp only [intervalMachine, WholeTurns, iff_false]
    split
    · simp
    · split_ifs
      · simp
      · simp
      · split <;> simp
  | setPeriod period =>
    simp only [intervalMachine, WholeTurns, iff_false]
    split <;> simp
  | begin =>
    simp only [intervalMachine, WholeTurns, iff_false]
    split
    · simp
    · split_ifs <;> simp
  | dispatch =>
    simp only [intervalMachine, WholeTurns, iff_false]
    split
    · simp
    · split_ifs <;> simp

/-- Over every run the bookkeeping is right, before and after every step, and there is no division by zero, as long as no
cycle ends with whole turns. -/
theorem criticalPath_bookkeeping_iff (cfg : IntervalConfig) (period : ℕ) (events : List IntervalEvent) :
    (intervalMachine cfg).Guarded (fun s e => Booked cfg.toWindowsConfig s.timer.windows ∧
        (∀ s', (intervalMachine cfg).step s e = .ok s' → Booked cfg.toWindowsConfig s'.timer.windows) ∧
        (intervalMachine cfg).step s e ≠ .error .divisionByZero) (.start cfg period) events ↔
      (intervalMachine cfg).Guarded (fun s e => ¬ WholeTurns cfg s e) (.start cfg period) events := by
  apply (intervalMachine cfg).guarded_congr (P := PathInv cfg) _ _ (.start cfg period)
    ((intervalMachine cfg).guarded_true _ _)
  · exact fun _ _ _ h _ hstep => h.step hstep
  · intro s e h _
    rw [← step_divides_iff h]
    exact ⟨fun hright => hright.2.2, fun hne => ⟨Kept.booked h, fun s' hstep => Kept.booked (h.step hstep), hne⟩⟩

theorem twoPlaces_size : 2 * 2 < 2 ^ 31 := by norm_num

theorem twoPlaces_cutoff : 2 ^ 32 - 1 < 2 ^ 32 := by norm_num

/-- A window of two places without contention, where no extension is a long one. -/
def twoPlaces : IntervalConfig where
  windowSize := 2
  doubleWindowSize_lt := twoPlaces_size
  doFunctionalUnitContention := false
  longLatencyCutoff := 2 ^ 32 - 1
  longLatencyCutoff_lt := twoPlaces_cutoff
  dispatchWidth := 1
  branchMispredictionPenalty := 0
  memDepMask := -8
  lllDepMask := -64
  numOutstandingLoadstores := 0
  memory := fun _ => ⟨0, .dram⟩

/-- A load of half a turn that reads and writes one register. -/
def halfTurn : IntervalMicroOp :=
  { WindowEntry.unfilled.uop with
    isLoad := true
    subtype := .load
    dCacheHitWhere := .dram
    execLatency := 2 ^ 31
    sourceRegisters := [0]
    destinationRegisters := [0]
    period := 1 }

/-- Each load needs the one before it, and two of them take a whole turn. -/
def wholeTurnEvents : List IntervalEvent :=
  [.add halfTurn, .add halfTurn, .begin, .dispatch, .finish, .add halfTurn, .begin, .dispatch]

theorem criticalPath_wholeTurn :
    ¬ (intervalMachine twoPlaces).Guarded (fun s e => Booked twoPlaces.toWindowsConfig s.timer.windows ∧
        (∀ s', (intervalMachine twoPlaces).step s e = .ok s' → Booked twoPlaces.toWindowsConfig s'.timer.windows) ∧
        (intervalMachine twoPlaces).step s e ≠ .error .divisionByZero) (.start twoPlaces 1)
      (wholeTurnEvents ++ [.finish]) := by
  intro h
  have hrun := (intervalMachine twoPlaces).run_final
    (show ((intervalMachine twoPlaces).run (.start twoPlaces 1) wholeTurnEvents).isOk = true by decide +kernel)
  have hpath := (intervalMachine twoPlaces).run_induction (P := PathInv twoPlaces) (fun _ _ _ h hstep => h.step hstep)
    (.start twoPlaces 1) hrun
  apply (h.at_event hrun).2.2
  rw [step_divides_iff hpath]
  decide +kernel

end LifeSim.Interval
