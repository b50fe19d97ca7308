import LifeSim.Sched.Placement

/-!
# Every event keeps the placement records in agreement

The events of the scheduler one after the other, without the change of hyper-period. Between
events no thread is pending, so that the scheduler's two tables, `Thread` and `Core` all tell
the same story, and neither the assertion of `Thread::setCore` nor the depth of the recursion
through the resume hook is ever a problem.
-/

namespace LifeSim.Sched

open LifeSim.Lib

variable {cfg : Config} {s s' a b : Sim} {pend : Set ℕ} {t u c core time : ℕ} {clock : ℕ → ℕ}

theorem safe_bounds : Safe .bounds := ⟨nofun, nofun⟩

theorem safe_index : Safe .index := ⟨nofun, nofun⟩

theorem safe_noThread : Safe .noThread := ⟨nofun, nofun⟩

theorem safe_notRunning : Safe .notRunning := ⟨nofun, nofun⟩

/-- The new entries of a grown `m_thread_info` belong to threads that do not run. -/
theorem Linked.resizeInfo (h : Linked cfg pend s) {n : ℕ} (hn : s.info.size ≤ n) :
    Linked cfg pend { s with info := s.info.resize n .fresh } := by
  refine h.of_eq rfl rfl rfl (fun u => ?_) hn le_rfl h.live
  dsimp only
  rw [Table.get_resize]
  split
  · rfl
  · rename_i hu
    refine (Option.eq_none_iff_forall_not_mem.2 fun c hc => hu ?_).symm
    exact (h.bound c u ((h.running c u).2 hc)).2.2

theorem Linked.grownInfo (h : Linked cfg pend s) (t : ℕ) : Linked cfg pend { s with info := grownInfo s t } := by
  unfold Sched.grownInfo
  split
  · exact h.resizeInfo (by omega)
  · exact h

theorem Recorded.linked {mask : Option (List ℕ)} (hr : Recorded cfg t mask s a) (h : Linked cfg pend s) :
    Linked cfg pend a := by
  have hrun : a.runnable = s.runnable := by rw [hr.same]
  have hnum : a.numThreads = s.numThreads := by rw [hr.same]
  refine (h.grownInfo t).of_eq (by rw [hr.same]) (by rw [hr.same]) (by rw [hr.same]) (fun u => ?_)
    (by rw [hr.size]) hnum.ge (by rw [hrun, hnum]; exact h.live)
  by_cases hu : u = t
  · rw [hu]; exact hr.running
  · rw [hr.other u hu]

/-- The core a running thread is on. -/
theorem Linked.coreThread_of_running (h : Linked cfg pend s) (hc : (s.info.get t).coreRunning = some c) :
    s.coreThread c = some t ∧ c < cfg.numCores :=
  have hct := (h.running c t).2 hc
  ⟨hct, (h.bound c t hct).1⟩

/-- Rescheduling with no thread pending. -/
theorem reschedule_settled (h : Linked cfg ∅ s) (hcore : core < cfg.numCores) :
    Ensures (reschedule cfg s time core) (Linked cfg ∅) Safe := by
  have hempty : (∅ : Set ℕ) \ {u | s.coreThread core = some u} = ∅ := Set.empty_sdiff _
  exact hempty ▸ reschedule_linked h hcore nofun

theorem fill_linked (h : Linked cfg pend s) (hfind : findFreeCoreForThread cfg s t = some core) :
    Ensures (reschedule cfg s time core) (Linked cfg pend) Safe := by
  obtain ⟨hcore, -, hfree⟩ := findFreeCoreForThread_some hfind
  exact (reschedule_fill cfg time pend s core h hcore hfree (freeCores_le ..)).mono (fun _ hb => hb.1)
    fun _ hf => hf

theorem threadYield_linked (h : Linked cfg ∅ s) : Ensures (threadYield cfg clock s t) (Linked cfg ∅) Safe := by
  unfold threadYield
  split
  · split
    · exact .ok h
    · rename_i core hc
      refine (reschedule_settled (h.setQuantum core 0) (h.coreThread_of_running hc).2).bind fun a ha => ?_
      split
      · exact .ok ha
      · split
        · rename_i hfind; exact fill_linked ha hfind
        · exact .ok ha
  · exact .error safe_bounds

theorem applyAffinity_linked (h : Linked cfg pend s) :
    Ensures (applyAffinity cfg clock s t) (Linked cfg pend) Safe := by
  unfold applyAffinity
  split
  · split
    · split
      · exact .ok h
      · exact .error safe_bounds
    · exact .ok (h.setQuantum ..)
  · split
    · split
      · split
        · rename_i hfind; exact fill_linked h hfind
        · exact .ok h
      · exact .ok h
    · exact .error safe_bounds

/-- A thread that calls for itself yields, which needs that no thread is pending. -/
theorem threadSetAffinity_linked {calling : Option ℕ} {mask : Option (List ℕ)} (h : Linked cfg pend s)
    (hcall : calling = none ∨ pend = ∅) :
    Ensures (threadSetAffinity cfg clock s calling t mask) (Linked cfg pend) Safe := by
  refine ((recordAffinity_spec cfg s t mask).mono (fun a ha => ha.linked h) ?_).bind fun a ha => ?_
  · rintro _ rfl
    exact ⟨nofun, nofun⟩
  · split
    · exact .ok ha
    · split
      · rename_i hself
        rcases hcall with hnone | hempty
        · rw [hnone] at hself; cases hself
        · subst hempty; exact threadYield_linked ha
      · exact applyAffinity_linked ha

theorem moveTo_linked (h : Linked cfg pend s) (big : Bool) :
    Ensures (moveTo cfg clock big s t) (Linked cfg pend) Safe := by
  refine (threadSetAffinity_linked h (.inl rfl)).bind fun a ha => .ok ?_
  exact ha.of_same rfl rfl rfl rfl rfl rfl

theorem pickBigThread_linked (h : Linked cfg pend s) :
    Ensures (pickBigThread cfg clock s) (Linked cfg pend) Safe := by
  unfold pickBigThread
  split
  · split
    · exact .ok h
    · have hrng : Linked cfg pend { s with rng := rngNext s.rng } := h.of_same rfl rfl rfl rfl rfl rfl
      exact moveTo_linked hrng true
  · exact .error safe_bounds

theorem replaceBigThread_linked (h : Linked cfg pend s) :
    Ensures (replaceBigThread cfg clock s t) (Linked cfg pend) Safe := by
  unfold replaceBigThread
  split
  · exact pickBigThread_linked h
  · exact .ok h

/-- A new thread: it neither runs nor is runnable, and has its entries. -/
structure Fresh (cfg : Config) (t : ℕ) (s : Sim) : Prop where
  linked : Linked cfg ∅ s
  waits : (s.info.get t).coreRunning = none
  idle : s.runnable.get t = false
  created : t < s.numThreads
  size : t < s.info.size

/-- Changes to affinities and to the tables of the mapping. -/
theorem Fresh.of_same (h : Fresh cfg t s) (hthread : s'.threadCore = s.threadCore)
    (howner : s'.coreOwner = s.coreOwner) (hcore : s'.coreThread = s.coreThread)
    (hrunning : ∀ u, (s'.info.get u).coreRunning = (s.info.get u).coreRunning)
    (hsize : s'.info.size = s.info.size) (hnum : s'.numThreads = s.numThreads)
    (hrun : s'.runnable = s.runnable) : Fresh cfg t s' where
  linked := h.linked.of_eq hthread howner hcore hrunning hsize.ge hnum.ge (by
    rw [hrun, hnum]
    exact h.linked.live)
  waits := by rw [hrunning]; exact h.waits
  idle := by rw [hrun]; exact h.idle
  created := by rw [hnum]; exact h.created
  size := by rw [hsize]; exact h.size

/-- A thread that is not runnable is not scheduled when its affinity changes. -/
theorem applyAffinity_fresh (h : Fresh cfg t s) : Ensures (applyAffinity cfg clock s t) (Fresh cfg t) Safe := by
  unfold applyAffinity
  rw [h.waits]
  dsimp only
  split
  · rw [if_neg (by rw [h.idle]; nofun)]
    exact .ok h
  · exact .error safe_bounds

theorem moveTo_fresh (h : Fresh cfg t s) (big : Bool) :
    Ensures (moveTo cfg clock big s t) (Fresh cfg t) Safe := by
  refine Ensures.bind (Q := Fresh cfg t) ?_ fun a ha => .ok ?_
  · refine ((recordAffinity_spec cfg s t _).mono (fun _ ha => ha) ?_).bind fun a ha => ?_
    · rintro _ rfl
      exact ⟨nofun, nofun⟩
    have hgrown : grownInfo s t = s.info := if_neg (Nat.not_le_of_lt h.size)
    have hfresh : Fresh cfg t a := by
      refine ⟨ha.linked h.linked, ?_, ?_, ?_, ?_⟩
      · rw [ha.running, hgrown]; exact h.waits
      · rw [ha.same]; exact h.idle
      · rw [ha.same]; exact h.created
      · rw [ha.size, hgrown]; exact h.size
    rw [if_neg (Nat.not_le_of_lt hfresh.created), if_neg nofun]
    exact applyAffinity_fresh hfresh
  · exact ⟨ha.linked.of_same rfl rfl rfl rfl rfl rfl, ha.waits, ha.idle, ha.created, ha.size⟩

theorem threadSetInitialAffinity_fresh (h : Fresh cfg t s) :
    Ensures (threadSetInitialAffinity cfg clock s t) (Fresh cfg t) Safe := by
  unfold threadSetInitialAffinity
  split
  · exact moveTo_fresh h false
  · split
    · unfold setMappedAffinity
      dsimp only
      split
      · refine .ok (h.of_same rfl rfl rfl (fun u => ?_) rfl rfl rfl)
        dsimp only
        rw [Table.get_set]
        split
        · rename_i hu; rw [hu]; rfl
        · rfl
      · exact .error safe_index
    · have hsafe : ∀ f, f = .diverges ∨ f = .index → Safe f := by rintro _ (rfl | rfl) <;> exact ⟨nofun, nofun⟩
      refine ((searchFreeCore_faults ..).mono (fun _ h => h) hsafe).bind fun core _ => ?_
      refine ((getNextCore_faults ..).mono (fun _ h => h) hsafe).bind fun next _ => .ok ?_
      refine h.of_same rfl rfl rfl (fun u => ?_) rfl rfl rfl
      rw [Sim.modifyInfo, Table.get_set]
      split
      · rename_i hu; rw [hu]; rfl
      · rfl

/-- The core that `threadCreate` returns is already marked as running the new thread. -/
def Placed (cfg : Config) (t : ℕ) (r : Sim × Option ℕ) : Prop :=
  match r.2 with
  | some core => Linked cfg {t} r.1 ∧ r.1.coreThread core = some t
  | none => Linked cfg ∅ r.1

theorem takeFreeCore_placed (h : Fresh cfg t s) : Placed cfg t (takeFreeCore cfg s t) := by
  unfold takeFreeCore
  split
  · rename_i core hfind
    obtain ⟨hcore, -, hfree⟩ := findFreeCoreForThread_some hfind
    have ha := h.linked.announce hfree hcore h.waits h.created h.size 0
    refine ⟨?_, by simp [Sim.setQuantum, Sim.setCoreThread]⟩
    rw [← LawfulSingleton.insert_empty_eq t]
    refine ha.of_eq rfl rfl rfl (fun u => ?_) le_rfl le_rfl ha.live
    by_cases hu : u = t
    · simp [Sim.setQuantum, Sim.setCoreThread, Sim.modifyInfo, ThreadInfo.scheduledIn, ThreadInfo.setCoreRunning, hu]
    · simp [Sim.setQuantum, Sim.setCoreThread, Sim.modifyInfo, hu]
  · refine h.linked.of_eq rfl rfl rfl (fun u => ?_) le_rfl le_rfl h.linked.live
    by_cases hu : u = t
    · simp [Sim.modifyInfo, ThreadInfo.setCoreRunning, hu, h.waits]
    · simp [Sim.modifyInfo, hu]

theorem threadCreate_placed (h : Linked cfg ∅ s)
    (hwaits : (s.info.get t).coreRunning = none) (hidle : s.runnable.get t = false) (ht : t < s.numThreads) :
    Ensures (threadCreate cfg clock s t) (Placed cfg t) Safe := by
  unfold threadCreate
  dsimp only
  generalize hgrown : growInfo s t = a
  have ha : Linked cfg ∅ a ∧ (a.info.get t).coreRunning = none ∧ a.runnable.get t = false ∧
      t < a.numThreads := by
    rw [← hgrown]
    unfold growInfo
    split
    · refine ⟨h.resizeInfo (by omega), ?_, hidle, ht⟩
      rw [Table.get_resize]
      split
      · exact hwaits
      · rfl
    · exact ⟨h, hwaits, hidle, ht⟩
  split
  · rename_i hsize
    have hfresh : Fresh cfg t a := ⟨ha.1, ha.2.1, ha.2.2.1, ha.2.2.2, hsize⟩
    split
    · unfold holdBack
      dsimp only
      split
      · refine .ok (ha.1.of_eq rfl rfl rfl (fun u => ?_) le_rfl le_rfl ha.1.live)
        by_cases hu : u = t
        · simp [Sim.modifyInfo, ThreadInfo.setCoreRunning, countThread, hu, ha.2.1]
        · simp [Sim.modifyInfo, countThread, hu]
      · exact .error safe_index
    · refine Ensures.bind (Q := Fresh cfg t) ?_ fun b hb => .ok (takeFreeCore_placed hb)
      unfold ensureAffinity
      split
      · exact .ok hfresh
      · exact threadSetInitialAffinity_fresh hfresh
  · exact .error safe_bounds

theorem createThread_linked (h : Linked cfg ∅ s) (app : ℕ) :
    Ensures (createThread cfg clock s app) (Linked cfg ∅) Safe := by
  have hwaits : (s.info.get s.numThreads).coreRunning = none := by
    refine Option.eq_none_iff_forall_not_mem.2 fun c hc => ?_
    have := (h.bound c _ ((h.running c _).2 hc)).2.1
    omega
  have hidle : s.runnable.get s.numThreads = false := by
    by_contra hrun
    have := h.live _ (by simpa using hrun)
    omega
  refine Ensures.bind (threadCreate_placed (h.of_eq rfl rfl rfl (fun _ => rfl) le_rfl (Nat.le_succ _)
    fun u hu => Nat.lt_succ_of_lt (h.live u hu)) hwaits hidle (Nat.lt_succ_self _)) ?_
  rintro ⟨a, core⟩ ha
  cases core with
  | none => exact .ok ha
  | some core =>
    have hempty : ({s.numThreads} : Set ℕ) \ {s.numThreads} = ∅ := sdiff_self
    refine (ha.1.enter rfl ha.2).bind fun b hb => .ok ?_
    exact (hempty ▸ hb.1).setState ..

theorem onThreadStart_linked (h : Linked cfg ∅ s) :
    Ensures (onThreadStart cfg time s t) (Linked cfg ∅) Safe := by
  unfold onThreadStart
  split
  · rename_i ht
    refine Ensures.bind (Q := Linked cfg ∅) ?_ fun a ha => ?_
    · unfold hookThreadStart
      dsimp only
      generalize hgrown : growRunnable (s.setStatus t .running) t = a
      have ha : Linked cfg ∅ a ∧ t < a.numThreads := by
        rw [← hgrown]
        unfold growRunnable
        split
        · refine ⟨(h.setStatus t .running).of_eq rfl rfl rfl (fun _ => rfl) le_rfl le_rfl fun u hu => ?_, ht⟩
          rw [Table.get_resize] at hu
          split at hu
          · exact h.live u hu
          · cases hu
        · exact ⟨h.setStatus t .running, ht⟩
      split
      · exact (scheduleIfFree_linked (reschedule_fill cfg time) (ha.1.setRunnable fun _ => ha.2)
          (freeCores_le ..)).mono (fun _ hb => hb.1) fun _ hf => hf
      · exact .error safe_bounds
    · split
      · exact .ok ((ha.setState ..).setStatus ..)
      · exact .ok (ha.setStalled ..)
  · exact .error safe_noThread

/-- A thread that stalls with no thread pending gives up its core. -/
theorem leaveCore_linked (h : Linked cfg ∅ s) : Ensures (leaveCore cfg time s t) (Linked cfg ∅) Safe := by
  unfold leaveCore
  split
  · split
    · rename_i core hc
      exact reschedule_settled h (h.coreThread_of_running hc).2
    · exact .ok h
  · exact .error safe_bounds

theorem stallThread_linked (h : Linked cfg ∅ s) (reason : StallType) :
    Ensures (stallThread cfg clock time s t reason) (Linked cfg ∅) Safe := by
  unfold stallThread
  split
  · split
    · exact .ok (h.setStalled ..)
    · split
      · have hstalled : Linked cfg ∅ ((s.setStalled t reason).setRunnable t false) :=
          (h.setStalled t reason).setRunnable nofun
        refine (replaceBigThread_linked hstalled).bind fun a ha => ?_
        refine Ensures.bind (Q := Linked cfg ∅) ?_ fun b hb => leaveCore_linked hb
        unfold demote
        split
        · exact moveTo_linked ha false
        · exact .ok ha
      · exact .error safe_bounds
  · exact .error safe_noThread

theorem wakeThread_linked (h : Linked cfg ∅ s) :
    Ensures (wakeThread cfg time s t) (fun b => Linked cfg ∅ b ∧ Keeps s b) Safe := by
  unfold wakeThread
  split
  · rename_i ht
    exact resumeThread_linked (reschedule_fill cfg time) h ht (freeCores_le ..)
  · exact .error safe_noThread

/-- Waking a thread changes the status of threads to running only. -/
theorem wakeThread_status (cfg : Config) (time : ℕ) (s : Sim) (t : ℕ) :
    Ensures (wakeThread cfg time s t) (fun b => ∀ u, b.status u = s.status u ∨ b.status u = .running)
      fun _ => True := by
  unfold wakeThread resumeThread
  dsimp only
  split
  · split
    · refine (scheduleIfFree_frame ..).mono (fun b hb u => ?_) fun _ _ => trivial
      have hu : ((s.setStatus t .running).setRunnable t true).status u = s.status u ∨
          ((s.setStatus t .running).setRunnable t true).status u = .running := by
        by_cases hut : u = t
        · exact .inr (by simp [Sim.setRunnable, Sim.setStatus, hut])
        · exact .inl (by simp [Sim.setRunnable, Sim.setStatus, hut])
      rcases hb.status u with h | ⟨h, -, -⟩
      · rw [h]; exact hu
      · exact .inr h
    · exact .error trivial
  · exact .error trivial

/-- A thread on its way out: it has let go of its core and is no longer runnable. -/
structure Leaving (cfg : Config) (t : ℕ) (s : Sim) : Prop where
  linked : Linked cfg {t} s
  stopped : s.runnable.get t = false
  started : s.status t ≠ .initializing

/-- Changing another thread's affinity while a thread leaves. -/
theorem moveTo_leaving (h : Leaving cfg t s) (big : Bool) :
    Ensures (moveTo cfg clock big s u) (Leaving cfg t) Safe := by
  refine ((threadSetAffinity_linked h.linked (.inl rfl)).and (threadSetAffinity_spec ..)).bind ?_
  rintro b ⟨hb, a, ha, hframe⟩
  refine .ok ⟨hb.of_same rfl rfl rfl rfl rfl rfl, ?_, ?_⟩
  · rw [show Sim.runnable { b with threadIsBig := _ } = b.runnable from rfl, hframe.runnable, ha.same]
    exact h.stopped
  · have hsame : a.status = s.status := by rw [ha.same]
    rw [show Sim.status { b with threadIsBig := _ } = b.status from rfl]
    rcases hframe.status t with hst | ⟨hst, -, -⟩
    · rw [hst, hsame]; exact h.started
    · rw [hst]; nofun

theorem replaceBigThread_leaving (h : Leaving cfg t s) :
    Ensures (replaceBigThread cfg clock s u) (Leaving cfg t) Safe := by
  unfold replaceBigThread
  split
  · unfold pickBigThread
    split
    · split
      · exact .ok h
      · have hrng : Leaving cfg t { s with rng := rngNext s.rng } :=
          ⟨h.linked.of_same rfl rfl rfl rfl rfl rfl, h.stopped, h.started⟩
        exact moveTo_leaving hrng true
    · exact .error safe_bounds
  · exact .ok h

/-- Once the scheduler has rescheduled the core of the leaving thread, all records agree again. -/
theorem leaveCore_leaving (time : ℕ) (h : Leaving cfg t s) : Ensures (leaveCore cfg time s t) (Linked cfg ∅) Safe := by
  unfold leaveCore
  split
  · split
    · rename_i core hc
      obtain ⟨hct, hcore⟩ := h.linked.coreThread_of_running hc
      have hempty : ({t} : Set ℕ) \ {u | s.coreThread core = some u} = ∅ := by
        rw [Set.sdiff_eq_empty]
        rintro _ rfl
        exact hct
      refine hempty ▸ reschedule_linked h.linked hcore ?_
      rintro _ rfl -
      exact ⟨h.started, h.stopped⟩
    · rename_i hnone
      exact absurd hnone (h.linked.pending t rfl)
  · exact .error safe_bounds

/-- The wake-ups fill empty cores only, so the thread is still on its core afterwards and lets go
of it. -/
theorem beginExit_leaving (time : ℕ) (h : Linked cfg ∅ s) (hcore : s.threadCore t = some core) (wake : List ℕ) :
    Ensures (beginExit cfg time s t core wake) (Leaving cfg t) Safe := by
  have hct : s.coreThread core = some t := (h.running core t).2 ((h.thread t core).1 hcore).1
  refine Ensures.bind (Q := fun b => Linked cfg ∅ b ∧ b.coreThread core = some t ∧
    b.status t ≠ .initializing) ?_ fun a ha => ?_
  · refine Ensures.foldlM (fun a u _ ha => ?_) ⟨h.setStatus t .idle, hct, by simp [Sim.setStatus]⟩
    refine ((wakeThread_linked ha.1).and (wakeThread_status ..)).mono ?_ fun _ hf => hf
    rintro b ⟨⟨hb, hkeeps⟩, hstatus⟩
    refine ⟨hb, hkeeps core t ha.2.1, ?_⟩
    rcases hstatus t with hst | hst
    · rw [hst]; exact ha.2.2
    · simp [hst]
  · refine (((ha.1.setState core .idle).release ha.2.1).and (setCore_frame ..)).bind ?_
    rintro b ⟨⟨hb, -⟩, hframe⟩
    split
    · refine .ok ⟨?_, by simp [Sim.setRunnable], ?_⟩
      · rw [← LawfulSingleton.insert_empty_eq t]
        exact hb.setRunnable (by simp)
      · rw [show (b.setRunnable t false).status t = b.status t from rfl]
        rcases hframe.status t with hst | ⟨hst, -, -⟩
        · rw [hst]; exact ha.2.2
        · simp [hst]
    · exact .error safe_bounds

theorem onThreadExit_linked (hper : cfg.periodicWorkload = false) (h : Linked cfg ∅ s) (wake : List ℕ)
    (file : List (ℕ × ℕ × ℕ)) : Ensures (onThreadExit cfg clock time s t wake file) (Linked cfg ∅) Safe := by
  unfold onThreadExit
  split
  · split
    · exact .error safe_notRunning
    · rename_i core hcore
      split
      · refine (beginExit_leaving time h hcore wake).bind fun a ha => ?_
        refine (replaceBigThread_leaving ha).bind fun b hb => ?_
        refine (leaveCore_leaving _ hb).bind fun d hd => ?_
        rw [countExit, if_neg (by simp [hper])]
        exact .ok hd
      · exact .error safe_notRunning
  · exact .error safe_noThread

theorem changeMapping_linked (h : Linked cfg ∅ s) (moves : Option (List (ℕ × ℕ))) :
    Ensures (changeMapping cfg clock s moves) (Linked cfg ∅) Safe := by
  refine changeMapping_keeps h (fun a lists ha => ha.of_same rfl rfl rfl rfl rfl rfl) safe_index
    fun lines _ move _ u _ a ha => ?_
  unfold migrateThread
  split
  · split
    · have hpinned := ha.modifyInfo u
        (f := fun i => { i.setAffinitySingle move.2 with explicitAffinity := true }) fun _ => rfl
      dsimp only
      split
      · exact .ok hpinned
      · exact applyAffinity_linked hpinned
    · exact .error safe_bounds
  · exact .error safe_index

theorem setFrequency_linked (h : Linked cfg ∅ s) (mhz : ℕ) :
    Ensures (setFrequency cfg clock s core mhz) (Linked cfg ∅) Safe := by
  unfold setFrequency
  split
  · exact .ok h
  · split
    · exact .ok h
    · exact (stallThread_linked h .broken).bind fun a ha => .ok (ha.setState ..)

theorem periodic_linked (h : Linked cfg ∅ s) (moves : Option (List (ℕ × ℕ))) (dvfs : ℕ → ℤ) :
    Ensures (periodic cfg clock time s moves dvfs) (Linked cfg ∅) Safe := by
  refine Ensures.bind (Q := Linked cfg ∅) ?_ fun a ha => ?_
  · unfold reshuffle
    split
    · refine Ensures.bind (Q := Linked cfg ∅) ?_ fun a ha => ?_
      · refine Ensures.foldlM (fun a u _ ha => ?_) h
        split
        · exact moveTo_linked ha false
        · exact .ok ha
      · refine Ensures.bind (Q := Linked cfg ∅) ?_ fun b hb => .ok (hb.of_same rfl rfl rfl rfl rfl rfl)
        exact Ensures.foldlM (fun b _ _ hb => pickBigThread_linked hb) ha
    · exact .ok h
  · refine Ensures.bind (Q := Linked cfg ∅) ?_ fun b hb => ?_
    · unfold intervene
      split
      · refine (changeMapping_linked ha moves).bind fun b hb => ?_
        refine Ensures.bind (Q := Linked cfg ∅) ?_ fun d hd => .ok (hd.of_same rfl rfl rfl rfl rfl rfl)
        exact Ensures.foldlM (fun d c _ hd => setFrequency_linked hd _) hb
      · exact .ok ha
    · refine Ensures.bind (Q := Linked cfg ∅) ?_ fun d hd => .ok (hd.of_same rfl rfl rfl rfl rfl rfl)
      refine Ensures.foldlM (fun d c hc hd => ?_) hb
      unfold periodicCore
      split
      · exact reschedule_settled hd (List.mem_range.1 hc)
      · exact .ok (hd.setQuantum ..)

/-- The event is an exit, which may change the hyper-period. -/
def Event.isExit : Event → Bool
  | .exit .. => true
  | _ => false

/-- Every event, without the change of hyper-period. -/
theorem step_linked {call : Call} (hper : cfg.periodicWorkload = false ∨ call.event.isExit = false)
    (h : Linked cfg ∅ s) : Ensures (step cfg s call) (Linked cfg ∅) Safe := by
  unfold step
  split
  · exact createThread_linked h _
  · exact onThreadStart_linked h
  · exact stallThread_linked h _
  · exact (wakeThread_linked h).mono (fun _ hb => hb.1) fun _ hf => hf
  · rename_i heq
    rw [heq] at hper
    exact onThreadExit_linked (hper.resolve_right nofun) h _ _
  · split
    · exact threadYield_linked h
    · exact .error safe_noThread
  · exact threadSetAffinity_linked h (.inr rfl)
  · exact periodic_linked h _ _
  · exact setFrequency_linked h _

theorem initial_linked (cfg : Config) (map : ℕ → ℕ → Option ℕ) : Linked cfg ∅ (initial map) where
  running _ _ := ⟨nofun, nofun⟩
  thread _ _ := ⟨nofun, nofun⟩
  owner _ _ := ⟨nofun, nofun⟩
  pending _ := nofun
  bound _ _ := nofun
  live _ := nofun

theorem reachable_linked (hper : cfg.periodicWorkload = false) {map : ℕ → ℕ → Option ℕ}
    (h : (machine cfg).Reachable (initial map) s) : Linked cfg ∅ s :=
  h.invariant (initial_linked cfg map) fun _ _ _ hs hstep => (step_linked (.inl hper) hs).of_ok hstep

/-- A run without exits, for every configuration. -/
theorem linked_of_run {calls : List Call} (hcalls : ∀ call ∈ calls, call.event.isExit = false)
    (h : Linked cfg ∅ s) (hrun : (machine cfg).run s calls = .ok s') : Linked cfg ∅ s' := by
  induction calls generalizing s with
  | nil => cases hrun; exact h
  | cons call calls ih =>
    obtain ⟨a, ha, hrest⟩ := (machine cfg).run_cons_ok hrun
    obtain ⟨hcall, hcalls⟩ := List.forall_mem_cons.1 hcalls
    exact ih hcalls ((step_linked (.inr hcall) h).of_ok ha) hrest

/-- In every reachable state the thread of a core and the core of a thread are inverse to each
other, in the scheduler as well as in `Thread` and `Core`; no event makes `Thread::setCore` enter
an occupied core, and the recursion through the resume hook ends. -/
theorem pinned_bijection (cfg : Config) (hper : cfg.periodicWorkload = false) (map : ℕ → ℕ → Option ℕ)
    (s : Sim) (hs : (machine cfg).Reachable (initial map) s) :
    (∀ c t, s.coreThread c = some t ↔ (s.info.get t).coreRunning = some c) ∧
    (∀ c d t, s.coreThread c = some t → s.coreThread d = some t → c = d) ∧
    (∀ t, s.threadCore t = (s.info.get t).coreRunning) ∧
    (∀ c, s.coreOwner c = s.coreThread c) ∧
    ∀ call, (machine cfg).step s call ≠ .error .coreBusy ∧ (machine cfg).step s call ≠ .error .recursion := by
  have h := reachable_linked hper hs
  refine ⟨h.running, fun c d t => h.core_unique, fun t => ?_, fun c => ?_, fun call => ⟨fun he => ?_, fun he => ?_⟩⟩
  · exact Option.ext fun c => by simpa using h.thread t c
  · exact Option.ext fun t => by simpa using h.owner c t
  · exact ((step_linked (.inl hper) h).of_error he).1 rfl
  · exact ((step_linked (.inl hper) h).of_error he).2 rfl

/-- Two cores, round-robin placement, none of the switches of the modified simulator. -/
def twoCores : Config where
  policy := .pinned
  numCores := 2
  quantum := 1000
  modifiedCode := false
  periodicWorkload := false
  interleaving := 1
  coreMask := fun _ => true
  numApps := 1
  numAppPerHyperPeriod := 1
  numThreadsPerHyperPeriod := 1
  runtimeIntervention := false
  interval := 0
  bigCore := fun _ => false

/-- An event at a time that is the same on all cores. -/
def Event.at (event : Event) (time : ℕ) : Call := ⟨event, time, fun _ => time⟩

/-- Three threads share two cores: the first stalls, the third takes over its core. -/
def threeThreads : List Call :=
  [(Event.create 0).at 0, (Event.start 0).at 0, (Event.create 0).at 0, (Event.start 1).at 0,
    (Event.create 0).at 0, (Event.start 2).at 0, (Event.stall 0 .mutex).at 500]

theorem pinned_bijection_threeThreads :
    let s := (machine twoCores).final (initial fun _ _ => none) threeThreads
    s.coreThread 0 = some 2 ∧ s.threadCore 2 = some 0 ∧
      ∀ t, s.threadCore t = (s.info.get t).coreRunning := by
  have hrun : (machine twoCores).run (initial fun _ _ => none) threeThreads = .ok _ :=
    (machine twoCores).run_final (by decide +kernel)
  exact ⟨by decide +kernel, by decide +kernel, (pinned_bijection twoCores rfl _ _ ⟨_, hrun⟩).2.2.1⟩

end LifeSim.Sched
