import LifeSim.Lib.Rotation
import LifeSim.Sched.ReservedEvents
import LifeSim.Sched.PeriodicReads

/-!
# Round robin on a reserved core

When the quantum of a reserved core is over, `periodic` gives the core to the thread that has been waiting the longest.
The core's own threads, beginning with the one on the core and then in the order in which they left it, form a ring, and
every switch turns it by one place.
-/

namespace LifeSim.Sched

open LifeSim.Lib

variable {cfg : Config} {s s' a b e : Sim} {t u r c d core time n : ℕ} {clock : ℕ → ℕ} {ring rest : List ℕ}

/-! ### The thread that is picked -/

/-- What the search of `reschedule` has found among the first threads: the first one with the highest score. -/
structure BestOf (s : Sim) (time core n : ℕ) (best : Option ℕ × ℤ) : Prop where
  bound : ∀ u < n, eligible s core u = true → score s time u ≤ best.2
  first : ∀ t, best.1 = some t → eligible s core t = true ∧ best.2 = score s time t ∧
    ∀ u < t, eligible s core u = true → score s time u < best.2
  start : best.1 = none → best.2 = -2 ^ 63

theorem bestOf_range (s : Sim) (time core n : ℕ) :
    BestOf s time core n ((List.range n).foldl (consider s time core) (none, -2 ^ 63)) := by
  induction n with
  | zero => exact ⟨fun u hu => absurd hu (Nat.not_lt_zero u), fun t ht => absurd ht (Option.some_ne_none t).symm,
    fun _ => rfl⟩
  | succ n ih =>
    rw [List.range_succ, List.foldl_append, List.foldl_cons, List.foldl_nil]
    generalize (List.range n).foldl (consider s time core) (none, -2 ^ 63) = best at ih
    rw [consider]
    split_ifs with hn
    · refine ⟨fun u hu helig => ?_, fun t ht => ?_, fun hnone => absurd hnone (Option.some_ne_none n)⟩
      · rcases Nat.lt_succ_iff_lt_or_eq.1 hu with hlt | rfl
        · exact (ih.bound u hlt helig).trans hn.2.le
        · exact le_rfl
      · obtain rfl := Option.some.inj ht
        exact ⟨hn.1, rfl, fun u hu helig => (ih.bound u hu helig).trans_lt hn.2⟩
    · refine ⟨fun u hu helig => ?_, ih.first, ih.start⟩
      rcases Nat.lt_succ_iff_lt_or_eq.1 hu with hlt | rfl
      · exact ih.bound u hlt helig
      · exact not_lt.1 fun hlt => hn ⟨helig, hlt⟩

/-- A thread of the core's own that waits for it. -/
def Queued (c : ℕ) (s : Sim) (t : ℕ) : Prop := Own c s t ∧ s.coreThread c ≠ some t

/-- A thread left its core before another one did, in whole picoseconds; ties go to the lower number. -/
def Sooner (s : Sim) (t u : ℕ) : Prop :=
  (s.info.get t).lastScheduledOut / 1000 < (s.info.get u).lastScheduledOut / 1000 ∨
    (s.info.get t).lastScheduledOut / 1000 = (s.info.get u).lastScheduledOut / 1000 ∧ t < u

/-- The waiting thread that left the core first. -/
structure NextInLine (c : ℕ) (s : Sim) (t : ℕ) : Prop where
  queued : Queued c s t
  first : ∀ u, Queued c s u → u ≠ t → Sooner s t u

theorem Sooner.asymm (h : Sooner s t u) (h' : Sooner s u t) : False := by
  rw [Sooner] at h h'
  omega

theorem NextInLine.unique (h : NextInLine c s t) (hu : Queued c s u) (hfirst : t ≠ u → Sooner s u t) : t = u := by
  by_contra hne
  exact (h.first u hu (Ne.symm hne)).asymm (hfirst hne)

/-- The times on record are those of the past, and the clock has not come to the end of a 64-bit word. -/
structure Punctual (c : ℕ) (s : Sim) (time : ℕ) : Prop where
  ins : ∀ t, Own c s t → (s.info.get t).lastScheduledIn ≤ time
  outs : ∀ t, Own c s t → (s.info.get t).lastScheduledOut + 1000 ≤ time
  fits : time < 2 ^ 64

theorem Reserved.waits (h : Reserved c s) (ht : Queued c s t) : (s.info.get t).coreRunning = none := by
  cases hplace : (s.info.get t).coreRunning with
  | none => rfl
  | some d =>
    obtain rfl := h.runs t d ht.1 hplace
    exact absurd ((h.here t).1 hplace) ht.2

theorem score_queued (h : Reserved c s) (htimes : Punctual c s time) (ht : Queued c s t) :
    score s time t = ((time / 1000 : ℕ) : ℤ) - (((s.info.get t).lastScheduledOut / 1000 : ℕ) : ℤ) := by
  have hout := htimes.outs t ht.1
  have hfits := htimes.fits
  rw [score, ThreadInfo.isRunning, h.waits ht]
  change Int.bmod (((time / 1000 : ℕ) : ℤ) - (((s.info.get t).lastScheduledOut / 1000 : ℕ) : ℤ)) (2 ^ 64) = _
  exact Int.bmod_eq_of_le_mul_two (by omega) (by omega)

theorem score_running (h : Reserved c s) (htimes : Punctual c s time) (ht : s.coreThread c = some t) :
    score s time t ≤ 0 := by
  have hin := htimes.ins t (h.guest t ht)
  have hfits := htimes.fits
  rw [score, ThreadInfo.isRunning, (h.here t).2 ht]
  change Int.bmod ((((s.info.get t).lastScheduledIn / 1000 : ℕ) : ℤ) - ((time / 1000 : ℕ) : ℤ)) (2 ^ 64) ≤ 0
  rw [Int.bmod_eq_of_le_mul_two (by omega) (by omega)]
  omega

/-- `reschedule` picks the waiting thread that left the core first. -/
theorem pickThread_next (h : Reserved c s) (hstarted : ∀ t, Own c s t → Started s t) (htimes : Punctual c s time)
    (hqueued : ∃ t, Queued c s t) : ∃ t, pickThread s time c = some t ∧ NextInLine c s t := by
  have hbest := bestOf_range s time c s.runnable.size
  have heligible (t : ℕ) (ht : Queued c s t) : t < s.runnable.size ∧ eligible s c t = true :=
    ⟨(h.live t (hstarted t ht.1).1).2, eligible_iff.2 ⟨ht.1.2, (hstarted t ht.1).1, .inl (h.waits ht)⟩⟩
  have hpick : pickThread s time c = ((List.range s.runnable.size).foldl (consider s time c) (none, -2 ^ 63)).1 := rfl
  generalize (List.range s.runnable.size).foldl (consider s time c) (none, -2 ^ 63) = best at hbest hpick
  have hpositive : 0 < best.2 := by
    obtain ⟨w, hw⟩ := hqueued
    have hbound := hbest.bound w (heligible w hw).1 (heligible w hw).2
    have hout := htimes.outs w hw.1
    rw [score_queued h htimes hw] at hbound
    omega
  rw [hpick]
  cases ht : best.1 with
  | none =>
    rw [hbest.start ht] at hpositive
    exact absurd hpositive (by decide)
  | some t =>
    obtain ⟨helig, hscore, hfirst⟩ := hbest.first t ht
    have hqueued : Queued c s t := by
      refine ⟨h.picked_own (hpick.trans ht), fun hrun => ?_⟩
      rw [hscore] at hpositive
      exact absurd hpositive (not_lt.2 (score_running h htimes hrun))
    refine ⟨t, rfl, hqueued, fun u hu hne => ?_⟩
    have hbound := hbest.bound u (heligible u hu).1 (heligible u hu).2
    have hbefore := fun hlt => hfirst u hlt (heligible u hu).2
    rw [hscore, score_queued h htimes hqueued, score_queued h htimes hu] at hbound hbefore
    rw [Sooner]
    omega

/-! ### One periodic call -/

/-- The core gets a new quantum in this call: the last one is over, or the core is empty. -/
def Expired (c : ℕ) (s : Sim) (time : ℕ) : Prop := s.quantumLeft c < time - s.lastPeriodic ∨ s.coreThread c = none

theorem periodicCore_sealed {delta : ℕ} (h : Reserved c s) (hd : d ≠ c) :
    Ensures (periodicCore cfg time delta s d) (Sealed c s) fun _ => True := by
  rw [periodicCore]
  split_ifs
  · exact reschedule_sealed cfg time h hd
  · exact .ok (.setQuantum hd _)

/-- The rounds of `periodic` for other cores. -/
theorem periodicCores_sealed {delta : ℕ} {l : List ℕ} (h : Reserved c s) (hl : c ∉ l) :
    Ensures (l.foldlM (periodicCore cfg time delta) s) (fun b => Sealed c s b ∧ Frame s b) fun _ => True := by
  refine Ensures.foldlM (fun a d hd ha => ?_) ⟨.refl c s, .refl s⟩
  have hdc : d ≠ c := fun heq => hl (heq ▸ hd)
  exact ((periodicCore_sealed (ha.1.reserved h) hdc).and (periodicCore_frame cfg time delta a d)).mono
    (fun b hb => ⟨ha.1.trans hb.1, ha.2.trans hb.2⟩) fun _ _ => trivial

/-- The round of `periodic` for the core: it is rescheduled when its quantum is over, unless its thread is starting up. -/
structure Served (c time : ℕ) (s s' : Sim) : Prop where
  kept : ¬ Expired c s time → ∃ quantum, s' = s.setQuantum c quantum
  turned : Expired c s time →
    (∃ r, s.coreThread c = some r ∧ s.status r = .initializing ∧ s' = s) ∨ Turned c time s s'

theorem periodicCore_served (h : Reserved c s) :
    Ensures (periodicCore cfg time (time - s.lastPeriodic) s c) (Served c time s) fun _ => True := by
  rw [periodicCore]
  split_ifs with hexpired
  · exact (reschedule_own h).mono (fun b hb => ⟨fun hnot => absurd hexpired hnot, fun _ => hb⟩) fun _ _ => trivial
  · exact .ok ⟨fun _ => ⟨_, rfl⟩, fun hexp => absurd hexp hexpired⟩

theorem Expired.of_sealed (h : Sealed c s a) : Expired c a time ↔ Expired c s time := by
  rw [Expired, Expired, h.quantumLeft, h.lastPeriodic, h.coreThread]

theorem Served.own (h : Served c time s s') (t : ℕ) : Own c s' t ↔ Own c s t := by
  by_cases hexpired : Expired c s time
  · rcases h.turned hexpired with ⟨-, -, -, rfl⟩ | hturned
    · exact Iff.rfl
    · exact hturned.own t
  · obtain ⟨quantum, rfl⟩ := h.kept hexpired
    exact Iff.rfl

theorem Served.reserved (h : Served c time s s') (hs : Reserved c s) : Reserved c s' := by
  by_cases hexpired : Expired c s time
  · rcases h.turned hexpired with ⟨-, -, -, rfl⟩ | hturned
    · exact hs
    · exact hturned.reserved hs
  · obtain ⟨quantum, rfl⟩ := h.kept hexpired
    exact hs.of_same rfl rfl rfl rfl

theorem latestOut_mono {last : ℕ} (hlast : latestOut c last + 1000 ≤ time) :
    latestOut c last ≤ time ∧ latestOut c time = time + 1000 * c := by
  have hpos : time ≠ 0 := by omega
  exact ⟨(Nat.le_add_right _ _).trans hlast, if_neg hpos⟩

/-- The core's own threads left it no later than now. -/
theorem Served.outs (h : Served c time s s') (hs : Timely c s) (hlast : latestOut c s.lastPeriodic + 1000 ≤ time)
    (ht : Own c s t) : (s'.info.get t).lastScheduledOut ≤ latestOut c time := by
  obtain ⟨hle, hnow⟩ := latestOut_mono hlast
  have hkept : (s.info.get t).lastScheduledOut ≤ latestOut c time :=
    ((hs.outs t ht).trans hle).trans (hnow ▸ Nat.le_add_right time _)
  by_cases hexpired : Expired c s time
  · rcases h.turned hexpired with ⟨-, -, -, rfl⟩ | hturned
    · exact hkept
    · rw [hturned.info, turnedEntry]
      split_ifs
      · exact hkept
      · exact hkept
      · exact hnow.ge
      · exact hkept
  · obtain ⟨quantum, rfl⟩ := h.kept hexpired
    exact hkept

/-- A periodic call: before and after the round for the core, only others are concerned. -/
def Passed (c time : ℕ) (s s' : Sim) : Prop :=
  ∃ a b e, Sealed c s a ∧ (∀ t, Own c s t → Started s t → Started a t) ∧ Served c time a b ∧ Frame a b ∧
    Sealed c b e ∧ Frame b e ∧ s' = { e with lastPeriodic := time }

theorem periodic_passed (hpolicy : cfg.policy = .pinned) (hc : c < cfg.numCores) (h : Reserved c s)
    {moves : Option (List (ℕ × ℕ))} {dvfs : ℕ → ℤ}
    (halone : intervenes cfg s time = true → LeavesCoreAlone cfg c s moves dvfs) :
    Ensures (periodic cfg clock time s moves dvfs) (Passed c time s) fun _ => True := by
  have hreshuffle : reshuffle cfg clock time s = .ok s := by
    rw [reshuffle, if_neg]
    rw [hpolicy]
    exact fun hbig => Policy.noConfusion hbig.1
  obtain ⟨before, after, hcores⟩ := List.append_of_mem (List.mem_range.2 hc)
  have hnodup : (before ++ c :: after).Nodup := hcores ▸ List.nodup_range
  obtain ⟨hbefore, hafter⟩ : c ∉ before ∧ c ∉ after := by
    rw [List.nodup_middle, List.nodup_cons, List.mem_append, not_or] at hnodup
    exact hnodup.1
  rw [periodic, hreshuffle, ok_bind, periodicBase]
  refine (intervene_sealed hpolicy h halone).bind fun i hi => ?_
  obtain ⟨hi, hstarted⟩ := hi
  rw [hcores, List.foldlM_append]
  refine Ensures.bind (Q := fun e => ∃ a b, Sealed c s a ∧ (∀ t, Own c s t → Started s t → Started a t) ∧
    Served c time a b ∧ Frame a b ∧ Sealed c b e ∧ Frame b e) ?_ fun e hall => .ok ?_
  · refine (periodicCores_sealed (hi.reserved h) hbefore).bind fun a ha => ?_
    obtain ⟨ha, hframe⟩ := ha
    rw [List.foldlM_cons, ← ha.lastPeriodic]
    refine ((periodicCore_served (ha.reserved (hi.reserved h))).and (periodicCore_frame ..)).bind fun b hb => ?_
    obtain ⟨hb, hserved⟩ := hb
    refine (periodicCores_sealed (hb.reserved (ha.reserved (hi.reserved h))) hafter).mono
      (fun e he => ⟨a, b, hi.trans ha, fun t ht hrun => hframe.started (hstarted t ht hrun), hb, hserved, he.1, he.2⟩)
      fun _ _ => trivial
  · obtain ⟨a, b, hsealed, hrun, hserved, hframe, he, hrest⟩ := hall
    exact ⟨a, b, e, hsealed, hrun, hserved, hframe, he, hrest, rfl⟩

theorem Passed.own (h : Passed c time s s') (t : ℕ) : Own c s' t ↔ Own c s t := by
  obtain ⟨a, b, e, ha, -, hb, -, he, -, rfl⟩ := h
  exact ((he.own t).trans (hb.own t)).trans (ha.own t)

theorem Passed.started (h : Passed c time s s') (ht : Own c s t) (hrun : Started s t) : Started s' t := by
  obtain ⟨a, b, e, -, hstarted, -, hb, -, he, rfl⟩ := h
  exact he.started (hb.started (hstarted t ht hrun))

theorem Passed.timely (h : Passed c time s s') (hs : Timely c s) (hlast : latestOut c s.lastPeriodic + 1000 ≤ time) :
    Timely c s' := by
  obtain ⟨a, b, e, ha, -, hb, -, he, -, rfl⟩ := h
  have hta := hs.of_sealed ha
  refine ⟨(he.reserved (hb.reserved hta.reserved)).of_same rfl rfl rfl rfl, fun t ht => ?_⟩
  have htb : Own c b t := (he.own t).1 ht
  change (e.info.get t).lastScheduledOut ≤ latestOut c time
  rw [he.info t htb]
  exact hb.outs hta (ha.lastPeriodic ▸ hlast) ((hb.own t).1 htb)

theorem Passed.kept (h : Passed c time s s') (hexpired : ¬ Expired c s time) :
    s'.coreThread c = s.coreThread c ∧ ∀ t, Own c s t → s'.info.get t = s.info.get t := by
  obtain ⟨a, b, e, ha, -, hb, -, he, -, rfl⟩ := h
  obtain ⟨quantum, rfl⟩ := hb.kept fun hexp => hexpired ((Expired.of_sealed ha).1 hexp)
  refine ⟨he.coreThread.trans ha.coreThread, fun t ht => ?_⟩
  exact (he.info t ((ha.own t).2 ht)).trans (ha.info t ht)

theorem Sealed.queued (h : Sealed c s a) : Queued c a t ↔ Queued c s t := by
  rw [Queued, Queued, h.own, h.coreThread]

theorem Sooner.congr (ht : a.info.get t = s.info.get t) (hu : a.info.get u = s.info.get u) :
    Sooner a t u ↔ Sooner s t u := by
  rw [Sooner, Sooner, ht, hu]

theorem Sealed.nextInLine (h : Sealed c s a) (ht : NextInLine c a t) : NextInLine c s t where
  queued := h.queued.1 ht.queued
  first u hu hne := (Sooner.congr (h.info t (h.queued.1 ht.queued).1) (h.info u hu.1)).1 (ht.first u (h.queued.2 hu) hne)

theorem Sealed.punctual (h : Sealed c s a) (htimes : Punctual c s time) : Punctual c a time where
  ins t ht := by
    rw [h.own] at ht
    rw [h.info t ht]
    exact htimes.ins t ht
  outs t ht := by
    rw [h.own] at ht
    rw [h.info t ht]
    exact htimes.outs t ht
  fits := htimes.fits

/-- The core gets the next thread in line. The others keep their entries, and the one that ran has left the core now. -/
structure HandedOn (c time : ℕ) (s s' : Sim) (t : ℕ) : Prop where
  next : NextInLine c s t
  coreThread : s'.coreThread c = some t
  waiting : ∀ u, Queued c s u → u ≠ t → s'.info.get u = s.info.get u
  left : ∀ r, s.coreThread c = some r → (s'.info.get r).lastScheduledOut = time + 1000 * c

theorem Passed.handedOn (h : Passed c time s s') (hs : Reserved c s) (hstarted : ∀ t, Own c s t → Started s t)
    (htimes : Punctual c s time) (hqueued : ∃ t, Queued c s t) (hexpired : Expired c s time) :
    ∃ t, HandedOn c time s s' t := by
  obtain ⟨a, b, e, ha, hrun, hb, -, he, -, rfl⟩ := h
  have hsa := ha.reserved hs
  have hstarted' (t : ℕ) (ht : Own c a t) : Started a t := hrun t ((ha.own t).1 ht) (hstarted t ((ha.own t).1 ht))
  obtain ⟨t, hpick, hnext⟩ := pickThread_next hsa hstarted' (ha.punctual htimes) (hqueued.imp fun u hu => ha.queued.2 hu)
  have hturned : Turned c time a b := by
    refine (hb.turned ((Expired.of_sealed ha).2 hexpired)).resolve_left fun hkept => ?_
    obtain ⟨r, hr, hinit, -⟩ := hkept
    exact (hstarted' r (hsa.guest r hr)).2 hinit
  have hne : pickThread a time c ≠ a.coreThread c := fun heq => hnext.queued.2 (heq.symm.trans hpick)
  have hentry (u : ℕ) (hu : Own c s u) : e.info.get u = turnedEntry a time c u := by
    rw [he.info u ((hb.own u).2 ((ha.own u).2 hu)), hturned.info]
  refine ⟨t, ha.nextInLine hnext, ?_, fun u hu hut => ?_, fun r hr => ?_⟩
  · exact he.coreThread.trans ((congrFun hturned.coreThread c).trans ((Function.update_self ..).trans hpick))
  · refine (hentry u hu.1).trans ?_
    rw [turnedEntry, if_neg hne, if_neg, if_neg (ha.queued.2 hu).2]
    · exact ha.info u hu.1
    · rw [hpick]
      exact fun heq => hut (Option.some.inj heq).symm
  · have hra : a.coreThread c = some r := ha.coreThread.trans hr
    change (e.info.get r).lastScheduledOut = _
    rw [hentry r (hs.guest r hr), turnedEntry, if_neg hne, if_neg, if_pos hra]
    · rfl
    · rw [← hra]
      exact hne

/-! ### The ring -/

/-- The core's own threads in the order in which they have been on the core: the one on the core, if any, then those that
wait. -/
structure InOrder (c : ℕ) (s : Sim) (ring : List ℕ) : Prop where
  nodup : ring.Nodup
  mem : ∀ t, t ∈ ring ↔ Own c s t
  order : s.coreThread c = none ∧ ring.Pairwise (Sooner s) ∨
    ∃ r rest, s.coreThread c = some r ∧ ring = r :: rest ∧ rest.Pairwise (Sooner s)

/-- Where the next thread in line is in the ring. -/
def place (c : ℕ) (s : Sim) : ℕ := if s.coreThread c = none then 0 else 1

theorem InOrder.kept (h : InOrder c s ring) (hown : ∀ t, Own c s' t ↔ Own c s t)
    (hcore : s'.coreThread c = s.coreThread c) (hinfo : ∀ t, Own c s t → s'.info.get t = s.info.get t) :
    InOrder c s' ring := by
  have hsorted (l : List ℕ) (hl : ∀ t ∈ l, Own c s t) (hpair : l.Pairwise (Sooner s)) : l.Pairwise (Sooner s') :=
    hpair.imp_of_mem fun ht hu => (Sooner.congr (hinfo _ (hl _ ht)) (hinfo _ (hl _ hu))).2
  refine ⟨h.nodup, fun t => (h.mem t).trans (hown t).symm, ?_⟩
  rw [hcore]
  rcases h.order with ⟨hnone, hpair⟩ | ⟨r, rest, hr, rfl, hpair⟩
  · exact .inl ⟨hnone, hsorted _ (fun t => (h.mem t).1) hpair⟩
  · exact .inr ⟨r, rest, hr, rfl, hsorted rest (fun t ht => (h.mem t).1 (List.mem_cons_of_mem r ht)) hpair⟩

/-- From an empty core the first thread of the ring goes first. -/
theorem InOrder.begin (h : InOrder c s ring) (hidle : s.coreThread c = none) (hown : ∀ t, Own c s' t ↔ Own c s t)
    (hhanded : HandedOn c time s s' t) : ring[0]? = some t ∧ InOrder c s' ring := by
  have hpair : ring.Pairwise (Sooner s) := by
    rcases h.order with ⟨-, hpair⟩ | ⟨r, -, hr, -⟩
    · exact hpair
    · rw [hidle] at hr
      exact absurd hr (Option.some_ne_none r).symm
  have hqueued (u : ℕ) (hu : u ∈ ring) : Queued c s u :=
    ⟨(h.mem u).1 hu, by rw [hidle]; exact (Option.some_ne_none u).symm⟩
  have hmem := (h.mem t).2 hhanded.next.queued.1
  cases ring with
  | nil => exact absurd hmem List.not_mem_nil
  | cons w rest =>
    rw [List.pairwise_cons] at hpair
    have htw : t = w := by
      refine hhanded.next.unique (hqueued w List.mem_cons_self) fun hne => hpair.1 t ?_
      exact (List.mem_cons.1 hmem).resolve_left hne
    subst htw
    refine ⟨rfl, h.nodup, fun u => (h.mem u).trans (hown u).symm, .inr ⟨t, rest, hhanded.coreThread, rfl, ?_⟩⟩
    have hkeep (u : ℕ) (hu : u ∈ rest) : s'.info.get u = s.info.get u := by
      refine hhanded.waiting u (hqueued u (List.mem_cons_of_mem t hu)) fun heq => ?_
      exact (List.nodup_cons.1 h.nodup).1 (heq ▸ hu)
    exact hpair.2.imp_of_mem fun ht hu => (Sooner.congr (hkeep _ ht) (hkeep _ hu)).2

/-- Otherwise the ring turns by one place. -/
theorem InOrder.turn (h : InOrder c s ring) (hr : s.coreThread c = some r) (hown : ∀ t, Own c s' t ↔ Own c s t)
    (htimes : Punctual c s time) (hhanded : HandedOn c time s s' t) :
    ring[1]? = some t ∧ InOrder c s' (ring.rotate 1) := by
  obtain ⟨rest, rfl, hpair⟩ : ∃ rest, ring = r :: rest ∧ rest.Pairwise (Sooner s) := by
    rcases h.order with ⟨hnone, -⟩ | ⟨r', rest, hr', hring, hpair⟩
    · rw [hr] at hnone
      exact absurd hnone (Option.some_ne_none r)
    · rw [hr] at hr'
      rw [Option.some.inj hr']
      exact ⟨rest, hring, hpair⟩
  obtain ⟨hrest, hnodup⟩ := List.nodup_cons.1 h.nodup
  have hqueued (u : ℕ) (hu : u ∈ rest) : Queued c s u := by
    refine ⟨(h.mem u).1 (List.mem_cons_of_mem r hu), fun heq => hrest ?_⟩
    rw [hr] at heq
    rw [Option.some.inj heq]
    exact hu
  have hmem : t ∈ rest := by
    refine (List.mem_cons.1 ((h.mem t).2 hhanded.next.queued.1)).resolve_left fun heq => ?_
    rw [heq] at hhanded
    exact hhanded.next.queued.2 hr
  cases rest with
  | nil => exact absurd hmem List.not_mem_nil
  | cons w ws =>
    rw [List.pairwise_cons] at hpair
    have htw : t = w := by
      refine hhanded.next.unique (hqueued w List.mem_cons_self) fun hne => hpair.1 t ?_
      exact (List.mem_cons.1 hmem).resolve_left hne
    subst htw
    have hkeep (u : ℕ) (hu : u ∈ ws) : s'.info.get u = s.info.get u := by
      refine hhanded.waiting u (hqueued u (List.mem_cons_of_mem t hu)) fun heq => ?_
      exact (List.nodup_cons.1 hnodup).1 (heq ▸ hu)
    have hrotate : (r :: t :: ws).rotate 1 = t :: (ws ++ [r]) := rfl
    refine ⟨rfl, List.nodup_rotate.2 h.nodup, fun u => ?_, .inr ⟨t, ws ++ [r], hhanded.coreThread, hrotate, ?_⟩⟩
    · rw [List.mem_rotate]
      exact (h.mem u).trans (hown u).symm
    · rw [List.pairwise_append]
      refine ⟨hpair.2.imp_of_mem fun ht hu => (Sooner.congr (hkeep _ ht) (hkeep _ hu)).2, List.pairwise_singleton _ _,
        fun u hu v hv => ?_⟩
      obtain rfl := List.mem_singleton.1 hv
      have hout := htimes.outs u (hqueued u (List.mem_cons_of_mem t hu)).1
      -- whoever waits has left the core at least a picosecond ago
      rw [Sooner, hkeep u hu, hhanded.left v hr]
      omega

/-- The core's own threads. -/
def ownThreads (c : ℕ) (s : Sim) : List ℕ := (List.range s.numThreads).filter fun t => (s.info.get t).affinity c

theorem mem_ownThreads : t ∈ ownThreads c s ↔ Own c s t := by
  rw [ownThreads, List.mem_filter, List.mem_range, Own]

theorem ownThreads_nodup (c : ℕ) (s : Sim) : (ownThreads c s).Nodup := List.nodup_range.filter _

theorem InOrder.length_eq (h : InOrder c s ring) : ring.length = (ownThreads c s).length := by
  refine ((List.perm_ext_iff_of_nodup h.nodup (ownThreads_nodup c s)).2 fun t => ?_).length_eq
  rw [h.mem, mem_ownThreads]

/-- What an event may do for the threads of a core to be its own from their creation on and always runnable: it does not
change their affinity, stall them, end them or make them yield, and gives no other thread affinity for the core. A
periodic call comes at least `c + 1` picoseconds after the one before; the first one comes a picosecond after the
beginning. -/
def respects (cfg : Config) (c : ℕ) (s : Sim) (call : Call) : Prop :=
  match call.event with
  | .create _ => ∀ s', step cfg s call = .ok s' → Own c s' s.numThreads →
      ∀ d, (s'.info.get s.numThreads).affinity d = true → d = c
  | .start _ => True
  | .stall t reason => reason = .unscheduled ∨ ¬ Own c s t
  | .resume _ => True
  | .exit t _ _ => ¬ Own c s t ∧ ¬ changesPeriod cfg s
  | .yield t => ¬ Own c s t
  | .setAffinity _ t mask => s.numThreads ≤ t ∨ ¬ Own c s t ∧ ∃ cores, mask = some cores ∧ c ∉ cores
  | .periodic moves dvfs =>
    latestOut c s.lastPeriodic + 1000 ≤ call.time ∧ call.time + 1000 * c < 2 ^ 64 ∧
      (∀ t, Own c s t → (s.info.get t).lastScheduledIn ≤ call.time) ∧
      (intervenes cfg s call.time = true → LeavesCoreAlone cfg c s moves dvfs)
  | .setFrequency core mhz => freqInHz mhz = 0 → ¬ Own c s core

def Call.isPeriodic (call : Call) : Bool :=
  match call.event with
  | .periodic _ _ => true
  | _ => false

/-- All threads of the core have started and there are several. -/
structure Settled (c : ℕ) (s : Sim) : Prop where
  timely : Timely c s
  started : ∀ t, Own c s t → Started s t
  several : ∃ t u, Own c s t ∧ Own c s u ∧ t ≠ u

theorem Settled.exists_queued (h : Settled c s) : ∃ t, Queued c s t := by
  obtain ⟨t, u, ht, hu, hne⟩ := h.several
  by_cases hc : s.coreThread c = some t
  · refine ⟨u, hu, fun heq => hne ?_⟩
    rw [hc] at heq
    exact Option.some.inj heq
  · exact ⟨t, ht, hc⟩

/-- What is known of a periodic call to the core and its threads. -/
structure Round (c time : ℕ) (s s' : Sim) : Prop where
  settled : Settled c s'
  punctual : Punctual c s time
  own : ∀ t, Own c s' t ↔ Own c s t
  kept : ¬ Expired c s time → s'.coreThread c = s.coreThread c ∧ ∀ t, Own c s t → s'.info.get t = s.info.get t
  handedOn : Expired c s time → ∃ t, HandedOn c time s s' t

theorem Settled.round (hpolicy : cfg.policy = .pinned) (hc : c < cfg.numCores) {call : Call} (h : Settled c s)
    (hperiodic : call.isPeriodic = true) (hcall : respects cfg c s call) (hstep : step cfg s call = .ok s') :
    Round c call.time s s' := by
  obtain ⟨event, time, clock⟩ := call
  cases event with
  | periodic moves dvfs =>
    obtain ⟨hlast, hfits, hins, halone⟩ := hcall
    have hpassed : Passed c time s s' := (periodic_passed hpolicy hc h.timely.reserved halone).of_ok hstep
    have htimes : Punctual c s time :=
      ⟨hins, fun t ht => (Nat.add_le_add_right (h.timely.outs t ht) 1000).trans hlast,
        (Nat.le_add_right time _).trans_lt hfits⟩
    refine ⟨⟨hpassed.timely h.timely hlast, fun t ht => ?_, ?_⟩, htimes, hpassed.own, hpassed.kept,
      hpassed.handedOn h.timely.reserved h.started htimes h.exists_queued⟩
    · have hown := (hpassed.own t).1 ht
      exact hpassed.started hown (h.started t hown)
    · obtain ⟨t, u, ht, hu, hne⟩ := h.several
      exact ⟨t, u, (hpassed.own t).2 ht, (hpassed.own u).2 hu, hne⟩
  | create | start | stall | resume | exit | yield | setAffinity | setFrequency => exact absurd hperiodic Bool.false_ne_true

/-- The call reads inside the tables of threads, if it is a periodic one. -/
def reads (cfg : Config) (s : Sim) (call : Call) : Prop :=
  match call.event with
  | .periodic moves dvfs => PeriodicReads cfg s call.time moves dvfs
  | _ => True

end LifeSim.Sched
