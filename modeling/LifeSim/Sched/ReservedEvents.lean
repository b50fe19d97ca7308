import LifeSim.Sched.Reserved
import LifeSim.Sched.Pins

/-!
# Events around a reserved core

Under `SchedulerPinned` the events of other threads do not concern a core that is reserved, unless they give one of these
threads affinity for it. The core's own threads may be created and start at any time; one of them then gets the core if
it is empty.
-/

namespace LifeSim.Sched

open LifeSim.Lib

variable {cfg : Config} {s s' a b : Sim} {t u c d core time : ℕ} {clock : ℕ → ℕ}

/-! ### Other threads -/

/-- The entry of a thread that has not been created changes. -/
theorem Sealed.modifyFuture (hu : s.numThreads ≤ u) {f : ThreadInfo → ThreadInfo}
    (hf : ∀ i, (f i).coreRunning = i.coreRunning ∧ (f i).lastScheduledOut = i.lastScheduledOut) :
    Sealed c s (s.modifyInfo u f) := by
  have hentry (t : ℕ) (ht : t < s.numThreads) : (s.modifyInfo u f).info.get t = s.info.get t := by
    rw [Sim.modifyInfo, Table.get_set, if_neg (ht.trans_le hu).ne]
  have hplace (t : ℕ) : ((s.modifyInfo u f).info.get t).coreRunning = (s.info.get t).coreRunning ∧
      ((s.modifyInfo u f).info.get t).lastScheduledOut = (s.info.get t).lastScheduledOut := by
    rw [Sim.modifyInfo, Table.get_set]
    split_ifs with ht
    · rw [ht]
      exact hf _
    · exact ⟨rfl, rfl⟩
  have hown (t : ℕ) : Own c (s.modifyInfo u f) t ↔ Own c s t :=
    and_congr_right fun ht => by rw [hentry t ht]
  refine ⟨rfl, rfl, rfl, rfl, hown, fun t ht => hentry t ht.1, fun h => ⟨fun t d ht => ?_, fun t d ht => ?_, fun t => ?_,
    fun t ht => (hown t).2 (h.guest t ht), fun d t hd ht => ?_, h.live, fun t ht => ?_, h.size⟩⟩
  · rw [hentry t ht.1]
    exact h.alone t d ((hown t).1 ht)
  · rw [hentry t ht.1]
    exact h.runs t d ((hown t).1 ht)
  · rw [(hplace t).1]
    exact h.here t
  · rw [hown]
    exact h.away d t hd ht
  · rw [(hplace t).1, (hplace t).2]
    exact h.future t ht

/-- A thread that is none of the core's own runs on another core, if on any. -/
theorem Reserved.elsewhere (h : Reserved c s) (hu : ¬ Own c s u) (hd : (s.info.get u).coreRunning = some d) : d ≠ c := by
  rintro rfl
  exact hu (h.guest u ((h.here u).1 hd))

theorem applyAffinity_sealed (h : Reserved c s) (hcreated : u < s.numThreads) (hu : ¬ Own c s u) :
    Ensures (applyAffinity cfg clock s u) (Sealed c s) fun _ => True := by
  rw [applyAffinity]
  split
  · rename_i d hd
    split_ifs
    · exact .ok (.refl c s)
    · exact .error trivial
    · exact .ok (.setQuantum (h.elsewhere hu hd) 0)
  · split_ifs
    · split
      · rename_i free hfree
        refine reschedule_sealed cfg _ h ?_
        rintro rfl
        exact hu ⟨hcreated, (findFreeCoreForThread_some hfree).2.1⟩
      · exact .ok (.refl c s)
    · exact .ok (.refl c s)
    · exact .error trivial

/-- A thread that is none of the core's own stalls or exits. -/
theorem leaveCore_sealed (h : Reserved c s) (hu : ¬ Own c s u) :
    Ensures (leaveCore cfg time s u) (Sealed c s) fun _ => True := by
  rw [leaveCore]
  split_ifs
  · split
    · rename_i d hd
      exact reschedule_sealed cfg time h (h.elsewhere hu hd)
    · exact .ok (.refl c s)
  · exact .error trivial

theorem stallThread_sealed (hpolicy : cfg.policy = .pinned) (h : Reserved c s) (hu : ¬ Own c s u) (reason : StallType) :
    Ensures (stallThread cfg clock time s u reason) (Sealed c s) fun _ => True := by
  have hnotBig : ¬ cfg.policy = .bigSmall := by
    rw [hpolicy]
    exact Policy.noConfusion
  have hstalled : Sealed c s (s.setStalled u reason) := .of_alike ⟨rfl, rfl, rfl, rfl, rfl, rfl⟩
  rw [stallThread]
  split_ifs with hcreated hreason hsize
  · exact .ok hstalled
  · have hstopped : Sealed c s ((s.setStalled u reason).setRunnable u false) :=
      hstalled.trans (Sealed.setRunnable (s := s.setStalled u reason) hcreated hsize false)
    rw [threadStall, replaceBigThread, if_neg fun hbig => hnotBig hbig.1, ok_bind, demote,
      if_neg fun hbig => hnotBig hbig.1, ok_bind]
    exact (leaveCore_sealed (hstopped.reserved h) fun hown => hu ((hstopped.own u).1 hown)).mono
      (fun b hb => hstopped.trans hb) fun _ _ => trivial
  · exact .error trivial
  · exact .error trivial

theorem setFrequency_sealed (hpolicy : cfg.policy = .pinned) (h : Reserved c s) {mhz : ℕ}
    (hu : freqInHz mhz = 0 → ¬ Own c s core) :
    Ensures (setFrequency cfg clock s core mhz) (Sealed c s) fun _ => True := by
  rw [setFrequency]
  split_ifs with hcores hfreq
  · exact .ok (.refl c s)
  · exact .ok (.refl c s)
  · refine (stallThread_sealed hpolicy h (hu (Nat.eq_zero_of_not_pos hfreq)) .broken).bind fun a ha => .ok ?_
    exact ha.trans (.of_alike ⟨rfl, rfl, rfl, rfl, rfl, rfl⟩)

theorem migrateThread_sealed (h : Reserved c s) (hu : ¬ Own c s u) (hd : d ≠ c) :
    Ensures (migrateThread cfg clock d s u) (Sealed c s) fun _ => True := by
  rw [migrateThread]
  split_ifs
  · dsimp only
    generalize hf : (fun i : ThreadInfo => { i.setAffinitySingle d with explicitAffinity := true }) = f
    have hplace (i : ThreadInfo) : (f i).coreRunning = i.coreRunning ∧ (f i).lastScheduledOut = i.lastScheduledOut := by
      rw [← hf]
      exact ⟨rfl, rfl⟩
    have hsingle (i : ThreadInfo) : (f i).affinity c = false := by
      rw [← hf]
      exact Function.update_of_ne (Ne.symm hd) ..
    split_ifs with hfuture
    · exact .ok (Sealed.modifyFuture (s := s) hfuture hplace)
    · have hcreated : u < s.numThreads := Nat.lt_of_not_le hfuture
      have hmoved : Sealed c s (s.modifyInfo u f) := by
        refine .modifyInfo hcreated hu (fun haff => absurd haff (Bool.eq_false_iff.1 (hsingle _))) fun hrun => ?_
        rw [(hplace _).1] at hrun
        exact hu (h.guest u ((h.here u).1 hrun))
      exact (applyAffinity_sealed (hmoved.reserved h) hcreated fun hown => hu ((hmoved.own u).1 hown)).mono
        (fun b hb => hmoved.trans hb) fun _ _ => trivial
  · exact .error trivial
  · exact .error trivial

/-- A new mapping that moves none of the core's own threads, and nobody to the core. -/
theorem changeMapping_sealed (h : Reserved c s) {moves : Option (List (ℕ × ℕ))}
    (hmoves : ∀ lines, moves = some lines → ∀ move ∈ lines, move.2 ≠ c ∧ ∀ t ∈ s.threadsOnCore move.1, ¬ Own c s t) :
    Ensures (changeMapping cfg clock s moves) (Sealed c s) fun _ => True := by
  refine changeMapping_keeps (.refl c s) (fun a lists ha => ha.trans (.of_alike ⟨rfl, rfl, rfl, rfl, rfl, rfl⟩)) trivial
    fun lines hlines move hmove t ht a ha => ?_
  obtain ⟨hdest, hforeign⟩ := hmoves lines hlines move hmove
  have hnot : ¬ Own c a t := fun hown => hforeign t ht ((ha.own t).1 hown)
  exact (migrateThread_sealed (ha.reserved h) hnot hdest).mono (fun b hb => ha.trans hb) fun _ _ => trivial

/-! ### The core's own threads -/

/-- The latest time a thread can have left the core: that of the last periodic call, with the penalty. -/
def latestOut (c last : ℕ) : ℕ := if last = 0 then 0 else last + 1000 * c

/-- The core is reserved, and its threads left it in a periodic call, if at all. -/
structure Timely (c : ℕ) (s : Sim) : Prop where
  reserved : Reserved c s
  outs : ∀ t, Own c s t → (s.info.get t).lastScheduledOut ≤ latestOut c s.lastPeriodic

theorem Timely.of_sealed (h : Timely c s) (hs : Sealed c s s') : Timely c s' where
  reserved := hs.reserved h.reserved
  outs t ht := by
    rw [hs.own] at ht
    rw [hs.info t ht, hs.lastPeriodic]
    exact h.outs t ht

/-- The empty core has got a thread. -/
theorem Turned.timely (ht : Turned c time s b) (h : Timely c s) (hidle : s.coreThread c = none) : Timely c b where
  reserved := ht.reserved h.reserved
  outs t hown := by
    rw [ht.own] at hown
    rw [ht.info, ht.lastPeriodic, turnedEntry, hidle, if_neg (Option.some_ne_none t).symm]
    split_ifs
    · exact h.outs t hown
    · exact h.outs t hown
    · exact h.outs t hown

/-- The core's own threads are the same and the invariant holds. -/
structure Steady (c : ℕ) (s s' : Sim) : Prop where
  own : ∀ t, Own c s' t ↔ Own c s t
  timely : Timely c s'

theorem Sealed.growRunnable (s : Sim) (t : ℕ) : Sealed c s (growRunnable s t) := by
  rw [Sched.growRunnable]
  split_ifs
  · refine ⟨rfl, rfl, rfl, rfl, fun _ => Iff.rfl, fun _ _ => rfl, fun h => ?_⟩
    refine ⟨h.alone, h.runs, h.here, h.guest, h.away, fun u hu => ?_, h.future, h.size⟩
    change (if u < s.runnable.size then s.runnable.get u else false) = true at hu
    split_ifs at hu with hlt
    exact ⟨(h.live u hu).1, Nat.lt_add_right 16 hlt⟩
  · exact .refl c s

/-- A thread has been added, with an entry that says it is nowhere. -/
structure Born (s a : Sim) : Prop where
  numThreads : a.numThreads = s.numThreads + 1
  coreThread : a.coreThread = s.coreThread
  quantumLeft : a.quantumLeft = s.quantumLeft
  lastPeriodic : a.lastPeriodic = s.lastPeriodic
  runnable : a.runnable = s.runnable
  info : ∀ t < s.numThreads, a.info.get t = s.info.get t
  future : ∀ t, s.numThreads ≤ t → (a.info.get t).coreRunning = none ∧ (a.info.get t).lastScheduledOut = 0
  size : s.numThreads < a.info.size

theorem Born.own (hb : Born s a) (ht : t < s.numThreads) : Own c a t ↔ Own c s t := by
  rw [Own, Own, hb.info t ht, hb.numThreads]
  exact and_congr_left fun _ => iff_of_true (Nat.lt_succ_of_lt ht) ht

/-- The new thread may run on the core alone, or not on the core. -/
theorem Born.timely (hb : Born s a) (h : Timely c s)
    (hnew : Own c a s.numThreads → ∀ d, (a.info.get s.numThreads).affinity d = true → d = c) : Timely c a := by
  have hcases (t : ℕ) (ht : Own c a t) : t < s.numThreads ∧ Own c s t ∨ t = s.numThreads := by
    rcases Nat.lt_succ_iff_lt_or_eq.1 (ht.1.trans_eq hb.numThreads) with hlt | heq
    · exact .inl ⟨hlt, (hb.own hlt).1 ht⟩
    · exact .inr heq
  refine ⟨⟨fun t d ht => ?_, fun t d ht => ?_, fun t => ?_, fun t ht => ?_, fun d t hd ht => ?_, fun t ht => ?_,
    fun t ht => ?_, ?_⟩, fun t ht => ?_⟩
  · rcases hcases t ht with ⟨hlt, hown⟩ | rfl
    · rw [hb.info t hlt]
      exact h.reserved.alone t d hown
    · exact hnew ht d
  · rcases hcases t ht with ⟨hlt, hown⟩ | rfl
    · rw [hb.info t hlt]
      exact h.reserved.runs t d hown
    · rw [(hb.future _ le_rfl).1]
      exact fun heq => absurd heq.symm (Option.some_ne_none d)
  · rw [hb.coreThread]
    by_cases ht : t < s.numThreads
    · rw [hb.info t ht]
      exact h.reserved.here t
    · rw [(hb.future t (Nat.le_of_not_lt ht)).1]
      exact iff_of_false (Option.some_ne_none c).symm fun hc => ht (h.reserved.guest t hc).1
  · rw [hb.coreThread] at ht
    have hown := h.reserved.guest t ht
    exact (hb.own hown.1).2 hown
  · rw [hb.coreThread] at ht
    obtain ⟨hlt, hnot⟩ := h.reserved.away d t hd ht
    exact ⟨hlt.trans_le (hb.numThreads ▸ Nat.le_succ _), fun hown => hnot ((hb.own hlt).1 hown)⟩
  · rw [hb.runnable] at ht ⊢
    exact ⟨(h.reserved.live t ht).1.trans_le (hb.numThreads ▸ Nat.le_succ _), (h.reserved.live t ht).2⟩
  · rw [hb.numThreads] at ht
    exact hb.future t (Nat.le_of_succ_le ht)
  · rw [hb.numThreads]
    exact hb.size
  · rw [hb.lastPeriodic]
    rcases hcases t ht with ⟨hlt, hown⟩ | rfl
    · rw [hb.info t hlt]
      exact h.outs t hown
    · rw [(hb.future _ le_rfl).2]
      exact Nat.zero_le _

/-- One of the core's own threads is recorded as running on it when it is empty. -/
theorem Timely.enter (h : Timely c s) (ht : Own c s t) (hfree : s.coreThread c = none) (quantum : ℕ) :
    Timely c (((s.modifyInfo t (ThreadInfo.setCoreRunning (some c))).setCoreThread c (some t)).setQuantum c quantum) := by
  let b := ((s.modifyInfo t (ThreadInfo.setCoreRunning (some c))).setCoreThread c (some t)).setQuantum c quantum
  have hself : b.info.get t = (s.info.get t).setCoreRunning (some c) := by
    change (s.info.set t _).get t = _
    rw [Table.get_set, if_pos rfl]
  have hother (u : ℕ) (hu : u ≠ t) : b.info.get u = s.info.get u := by
    change (s.info.set t _).get u = _
    rw [Table.get_set, if_neg hu]
  have hcore : b.coreThread c = some t := Function.update_self ..
  have haway (d : ℕ) (hd : d ≠ c) : b.coreThread d = s.coreThread d := Function.update_of_ne hd ..
  have haffinity (u : ℕ) : (b.info.get u).affinity = (s.info.get u).affinity := by
    by_cases hu : u = t
    · rw [hu, hself]
      rfl
    · rw [hother u hu]
  have hout (u : ℕ) : (b.info.get u).lastScheduledOut = (s.info.get u).lastScheduledOut := by
    by_cases hu : u = t
    · rw [hu, hself]
      rfl
    · rw [hother u hu]
  have hown (u : ℕ) : Own c b u ↔ Own c s u := and_congr_right fun _ => by rw [haffinity]
  refine ⟨⟨fun u d hu => ?_, fun u d hu => ?_, fun u => ?_, fun u hu => ?_, fun d u hd hu => ?_, h.reserved.live,
    fun u hu => ?_, h.reserved.size⟩, fun u hu => ?_⟩
  · rw [haffinity]
    exact h.reserved.alone u d ((hown u).1 hu)
  · by_cases hut : u = t
    · rw [hut, hself]
      exact fun heq => (Option.some.inj heq).symm
    · rw [hother u hut]
      exact h.reserved.runs u d ((hown u).1 hu)
  · rw [hcore]
    by_cases hut : u = t
    · rw [hut, hself]
      exact iff_of_true rfl rfl
    · rw [hother u hut, h.reserved.here u, hfree]
      exact iff_of_false (Option.some_ne_none u).symm fun heq => hut (Option.some.inj heq).symm
  · rw [hcore] at hu
    rw [← Option.some.inj hu, hown]
    exact ht
  · rw [haway d hd] at hu
    rw [hown]
    exact h.reserved.away d u hd hu
  · rw [hout, hother u fun heq => absurd ht.1 (Nat.not_lt.2 (heq ▸ hu))]
    exact h.reserved.future u hu
  · rw [hout]
    exact h.outs u ((hown u).1 hu)

/-- A thread that is runnable and has reported that it started. -/
def Started (s : Sim) (t : ℕ) : Prop := s.runnable.get t = true ∧ s.status t ≠ .initializing

theorem Frame.started (h : Frame s s') (ht : Started s t) : Started s' t := by
  refine ⟨by rw [h.runnable, ht.1], ?_⟩
  rcases h.status t with hsame | ⟨hrun, -⟩
  · rw [hsame]
    exact ht.2
  · rw [hrun]
    exact State.noConfusion

/-- A new mapping stalls nobody. -/
theorem changeMapping_started (cfg : Config) (clock : ℕ → ℕ) (s : Sim) (moves : Option (List (ℕ × ℕ))) :
    Ensures (changeMapping cfg clock s moves) (fun b => ∀ t, Started s t → Started b t) fun _ => True := by
  refine changeMapping_keeps (fun _ => id) (fun _ _ ha => ha) trivial fun lines _ move _ u _ a ha => ?_
  rw [migrateThread]
  split_ifs
  · dsimp only
    split_ifs
    · exact .ok ha
    · exact (applyAffinity_frame ..).mono (fun b hb t ht => hb.started (ha t ht)) fun _ _ => trivial
  · exact .error trivial
  · exact .error trivial

/-- A frequency of zero stalls the thread with the number of the core, and no other thread. -/
theorem setFrequency_started (hpolicy : cfg.policy = .pinned) {mhz : ℕ} (hu : freqInHz mhz = 0 → u ≠ core)
    (ht : Started s u) : Ensures (setFrequency cfg clock s core mhz) (fun b => Started b u) fun _ => True := by
  have hnotBig : ¬ cfg.policy = .bigSmall := by
    rw [hpolicy]
    exact Policy.noConfusion
  rw [setFrequency]
  split_ifs with hcores hfreq
  · exact .ok ht
  · exact .ok ht
  · have hne := hu (Nat.eq_zero_of_not_pos hfreq)
    have hstopped : Started ((s.setStalled core .broken).setRunnable core false) u := by
      refine ⟨?_, ?_⟩
      · rw [Sim.setRunnable, Table.get_set, if_neg hne]
        exact ht.1
      · change Function.update s.status core .stalled u ≠ _
        rw [Function.update_of_ne hne]
        exact ht.2
    refine Ensures.bind (Q := fun a => Started a u) ?_ fun a ha => .ok ha
    rw [stallThread]
    split_ifs with hcreated hreason
    · exact .ok ⟨ht.1, hstopped.2⟩
    · rw [threadStall, replaceBigThread, if_neg fun hbig => hnotBig hbig.1, ok_bind, demote,
        if_neg fun hbig => hnotBig hbig.1, ok_bind]
      exact (leaveCore_frame ..).mono (fun b hb => hb.started hstopped) fun _ _ => trivial
    · exact .error trivial
    · exact .error trivial

/-- The new mapping moves none of the core's own threads, and nobody to the core; the new frequencies stop none of its
threads. -/
structure LeavesCoreAlone (cfg : Config) (c : ℕ) (s : Sim) (moves : Option (List (ℕ × ℕ))) (dvfs : ℕ → ℤ) : Prop where
  moves : ∀ lines, moves = some lines → ∀ move ∈ lines, move.2 ≠ c ∧ ∀ t ∈ s.threadsOnCore move.1, ¬ Own c s t
  frequencies : ∀ core < cfg.numCores, freqInHz (readUInt64 (dvfs core)) = 0 → ¬ Own c s core

theorem updateDVFS_sealed (hpolicy : cfg.policy = .pinned) (h : Reserved c s) {dvfs : ℕ → ℤ}
    (hdvfs : ∀ core < cfg.numCores, freqInHz (readUInt64 (dvfs core)) = 0 → ¬ Own c s core) :
    Ensures (updateDVFS cfg clock s dvfs) (fun b => Sealed c s b ∧ ∀ t, Own c s t → Started s t → Started b t)
      fun _ => True := by
  rw [updateDVFS]
  refine Ensures.foldlM (fun a core hcore ha => ?_) ⟨.refl c s, fun _ _ => id⟩
  have hcore := List.mem_range.1 hcore
  have hstarted (t : ℕ) (ht : Own c s t) (hrun : Started s t) :
      Ensures (setFrequency cfg clock a core (readUInt64 (dvfs core))) (fun b => Started b t) fun _ => True :=
    setFrequency_started hpolicy (fun hzero heq => hdvfs core hcore hzero (heq ▸ ht)) (ha.2 t ht hrun)
  have hsealed : Ensures (setFrequency cfg clock a core (readUInt64 (dvfs core))) (Sealed c a) fun _ => True :=
    setFrequency_sealed hpolicy (ha.1.reserved h) fun hzero hown => hdvfs core hcore hzero ((ha.1.own core).1 hown)
  cases hset : setFrequency cfg clock a core (readUInt64 (dvfs core)) with
  | error f => exact .error trivial
  | ok b => exact .ok ⟨ha.1.trans (hsealed.of_ok hset), fun t ht hrun => (hstarted t ht hrun).of_ok hset⟩

/-- The intervention does not concern the core. -/
theorem intervene_sealed (hpolicy : cfg.policy = .pinned) (h : Reserved c s) {moves : Option (List (ℕ × ℕ))}
    {dvfs : ℕ → ℤ} (halone : intervenes cfg s time = true → LeavesCoreAlone cfg c s moves dvfs) :
    Ensures (intervene cfg clock time s moves dvfs)
      (fun b => Sealed c s b ∧ ∀ t, Own c s t → Started s t → Started b t) fun _ => True := by
  rw [intervene]
  split_ifs with hintervenes
  · have halone := halone hintervenes
    refine ((changeMapping_sealed h halone.moves).and (changeMapping_started cfg clock s moves)).bind
      fun a ha => ?_
    obtain ⟨ha, hstarted⟩ := ha
    refine (updateDVFS_sealed hpolicy (ha.reserved h) fun core hcore hzero hown => ?_).bind fun b hb => .ok ⟨?_, ?_⟩
    · exact halone.frequencies core hcore hzero ((ha.own core).1 hown)
    · exact (ha.trans hb.1).trans (.of_alike ⟨rfl, rfl, rfl, rfl, rfl, rfl⟩)
    · exact fun t ht hrun => hb.2 t ((ha.own t).2 ht) (hstarted t hrun)
  · exact .ok ⟨.refl c s, fun _ _ => id⟩

end LifeSim.Sched
