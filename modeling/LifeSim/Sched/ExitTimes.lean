import LifeSim.Sched.Bijection

/-!
# When the cores were left for the last time

With `USE_RMU`, `threadExit` writes the time of the exit into `end_times`, at the index of the core on which the thread
runs. It does so after it has rescheduled that core, and rescheduling takes the thread off the core if the core has the
thread on record. Then the index is `INVALID_CORE_ID`, which is outside the vector.
-/

namespace LifeSim.Sched

open LifeSim.Lib

variable {cfg : Config} {s s' a b : Sim} {t u c core time depth : ℕ} {clock : ℕ → ℕ}

/-! ### What rescheduling does to a thread that cannot run -/

/-- Nothing was done to a thread. -/
structure Untouched (t : ℕ) (s s' : Sim) : Prop where
  info : s'.info.get t = s.info.get t
  coreThread : ∀ c, s'.coreThread c = some t ↔ s.coreThread c = some t
  runnable : s'.runnable.get t = s.runnable.get t

namespace Untouched

theorem refl (t : ℕ) (s : Sim) : Untouched t s s := ⟨rfl, fun _ => Iff.rfl, rfl⟩

theorem trans (h : Untouched t s a) (h' : Untouched t a b) : Untouched t s b :=
  ⟨h'.info.trans h.info, fun c => (h'.coreThread c).trans (h.coreThread c), h'.runnable.trans h.runnable⟩

/-- The entry of another thread changes. -/
theorem modifyInfo (hu : u ≠ t) (f : ThreadInfo → ThreadInfo) : Untouched t s (s.modifyInfo u f) := by
  refine ⟨?_, fun _ => Iff.rfl, rfl⟩
  rw [Sim.modifyInfo, Table.get_set, if_neg hu.symm]

/-- A core that is not the thread's gets another thread. -/
theorem setCoreThread {new : Option ℕ} (hold : s.coreThread core ≠ some t) (hnew : new ≠ some t) :
    Untouched t s (s.setCoreThread core new) := by
  refine ⟨rfl, fun c => ?_, rfl⟩
  change Function.update s.coreThread core new c = some t ↔ _
  by_cases hc : c = core
  · rw [hc, Function.update_self]
    exact iff_of_false hnew hold
  · rw [Function.update_of_ne hc]

theorem vacate (s : Sim) (u : ℕ) : Untouched t s (vacate s u) := by
  rw [Sched.vacate]
  split
  · exact ⟨rfl, fun _ => Iff.rfl, rfl⟩
  · exact refl t s

end Untouched

theorem setCore_untouched (s : Sim) (u : ℕ) (core : Option ℕ) :
    Ensures (setCore s u core) (Untouched t s) fun _ => True := by
  have hletGo : Untouched t s (letGo s u) := by
    rw [letGo]
    split
    · exact ⟨rfl, fun _ => Iff.rfl, rfl⟩
    · exact .refl t s
  cases core with
  | none => exact .ok ⟨hletGo.info, hletGo.coreThread, hletGo.runnable⟩
  | some c =>
    rw [setCore]
    dsimp only
    split_ifs
    · exact .ok ⟨hletGo.info, hletGo.coreThread, hletGo.runnable⟩
    · exact .error trivial

theorem moveThread_untouched {resume : Sim → ℕ → Except Fault Sim} (s : Sim) (u : ℕ) (core : Option ℕ)
    (hres : ∀ a, Untouched t s a → Ensures (resume a u) (Untouched t a) fun _ => True) :
    Ensures (moveThread resume s u core) (Untouched t s) fun _ => True := by
  have hvacate := Untouched.vacate (t := t) s u
  cases core with
  | none => exact (setCore_untouched (vacate s u) u none).mono (fun _ ha => hvacate.trans ha) fun _ _ => trivial
  | some c =>
    rw [moveThread]
    refine Ensures.bind (Q := Untouched t s) ?_ fun a ha => ?_
    · rw [wakeUnscheduled]
      split_ifs
      · exact (hres _ hvacate).mono (fun _ ha => hvacate.trans ha) fun _ _ => trivial
      · exact .ok hvacate
    · refine (setCore_untouched (t := t) a u (some c)).bind fun b hb => .ok ?_
      have hab := ha.trans hb
      split_ifs
      · exact hab
      · exact ⟨hab.info, hab.coreThread, hab.runnable⟩

/-- Another thread is put on a core that has it on record already. -/
theorem schedule_untouched {resume : Sim → ℕ → Except Fault Sim} (hu : u ≠ t) (hcore : s.coreThread core = some u)
    (hruns : (s.info.get u).coreRunning = none ∨ (s.info.get u).coreRunning = some core)
    (hres : ∀ a, Untouched t s a → Ensures (resume a u) (Untouched t a) fun _ => True) :
    Ensures (schedule resume s time core (some u)) (Untouched t s) fun _ => True := by
  have hne : s.coreThread core ≠ some t := by
    rw [hcore]
    exact fun heq => hu (Option.some.inj heq)
  have hforget : Untouched t s (forgetOldCore s u) := by
    rw [forgetOldCore]
    rcases hruns with hruns | hruns
    · rw [hruns]
      exact .refl t s
    · rw [hruns]
      exact .setCoreThread hne (Option.some_ne_none t).symm
  have hentry := hforget.trans (.modifyInfo hu (ThreadInfo.scheduledIn core time))
  exact (moveThread_untouched _ u (some core) fun a ha => hres a (hentry.trans ha)).mono
    (fun _ ha => hentry.trans ha) fun _ _ => trivial

/-- What a nested call does to a thread that cannot run: nothing. -/
def Spares (t : ℕ) (resume : Sim → ℕ → Except Fault Sim) : Prop :=
  ∀ a u, u ≠ t → a.runnable.get t = false → Ensures (resume a u) (Untouched t a) fun _ => True

/-- The search does not choose a thread that cannot run. -/
theorem pickThread_ne (hrun : s.runnable.get t = false) : pickThread s time core ≠ some t := by
  intro hpick
  have hel := (eligible_iff.1 (pickThread_eligible hpick).2).2.1
  rw [hrun] at hel
  cases hel

/-- The thread that was running is off its core. -/
structure Unscheduled (current : Option ℕ) (s a : Sim) : Prop where
  out : ∀ u, current = some u → (a.info.get u).coreRunning = none
  others : ∀ u, current ≠ some u → a.info.get u = s.info.get u
  coreThread : a.coreThread = s.coreThread
  runnable : a.runnable = s.runnable

theorem unschedule_spec (s : Sim) (time core : ℕ) (current : Option ℕ) :
    Ensures (unschedule s time core current) (Unscheduled current s) fun _ => True := by
  cases current with
  | none => exact .ok ⟨fun _ hu => absurd hu (Option.some_ne_none _).symm, fun _ _ => rfl, rfl, rfl⟩
  | some v =>
    obtain ⟨m, hm⟩ : ∃ m, m = s.modifyInfo v (ThreadInfo.scheduledOut (time + 1000 * core)) := ⟨_, rfl⟩
    have hentry (u : ℕ) : m.info.get u = if u = v then (s.info.get u).scheduledOut (time + 1000 * core)
        else s.info.get u := by
      rw [hm, Sim.modifyInfo, Table.get_set]
      split_ifs with hu
      · rw [hu]
      · rfl
    have hletGo (x : Sim) : (letGo x v).info = x.info ∧ (letGo x v).coreThread = x.coreThread ∧
        (letGo x v).runnable = x.runnable := by
      rw [letGo]
      split
      · exact ⟨rfl, rfl, rfl⟩
      · exact ⟨rfl, rfl, rfl⟩
    have hvacate : (vacate m v).info = m.info := by
      rw [vacate]
      split
      · rfl
      · rfl
    obtain ⟨hinfo, hcoreThread, hrunnable⟩ := hletGo (vacate m v)
    rw [unschedule, ← hm]
    refine .ok ⟨fun u hu => ?_, fun u hu => ?_, ?_, ?_⟩
    · cases hu
      change ((letGo (vacate m v) v).info.get v).coreRunning = none
      rw [hinfo, hvacate, hentry, if_pos rfl]
      rfl
    · change (letGo (vacate m v) v).info.get u = _
      rw [hinfo, hvacate, hentry, if_neg]
      rintro rfl
      exact hu rfl
    · refine (hcoreThread.trans (vacate_coreThread m v)).trans ?_
      rw [hm]
      rfl
    · refine (hrunnable.trans (vacate_runnable m v)).trans ?_
      rw [hm]
      rfl

/-- The thread that was chosen is put on the core. -/
theorem schedule_new_untouched {resume : Sim → ℕ → Except Fault Sim} (hres : Spares t resume)
    (hrun : s.runnable.get t = false) (hdiff : s.coreThread core ≠ pickThread s time core)
    (ha : Unscheduled (s.coreThread core) s a) :
    Ensures (schedule resume (a.setCoreThread core (pickThread s time core)) time core (pickThread s time core))
      (Untouched t (a.setCoreThread core (pickThread s time core))) fun _ => True := by
  have hne : pickThread s time core ≠ some t := pickThread_ne hrun
  cases hnew : pickThread s time core with
  | none => exact .ok (.refl t _)
  | some u =>
    rw [hnew] at hne hdiff
    have hu : u ≠ t := fun heq => hne (congrArg some heq)
    have hruns := (eligible_iff.1 (pickThread_eligible hnew).2).2.2
    rw [← ha.others u hdiff] at hruns
    refine schedule_untouched hu (Function.update_self ..) hruns fun b hb => hres b u hu ?_
    exact (hb.runnable.trans (congrArg (·.get t) ha.runnable)).trans hrun

/-- The core of another thread, or an empty one, is rescheduled. -/
theorem rescheduleBody_untouched {resume : Sim → ℕ → Except Fault Sim} (hres : Spares t resume)
    (hrun : s.runnable.get t = false) (hcore : s.coreThread core ≠ some t) :
    Ensures (rescheduleBody cfg resume s time core) (Untouched t s) fun _ => True := by
  rw [rescheduleBody]
  dsimp only
  split_ifs with hinit hsize hsame
  · exact .ok (.refl t s)
  · exact .error trivial
  · exact .ok ⟨rfl, fun _ => Iff.rfl, rfl⟩
  · refine Ensures.bind (Q := Untouched t s) ?_ fun b hb => .ok ⟨hb.info, hb.coreThread, hb.runnable⟩
    refine (unschedule_spec s time core _).bind fun a ha => ?_
    have hout : Untouched t s a :=
      ⟨ha.others t hcore, fun c => by rw [ha.coreThread], congrArg (·.get t) ha.runnable⟩
    have hset : Untouched t a (a.setCoreThread core (pickThread s time core)) := by
      refine .setCoreThread ?_ (pickThread_ne hrun)
      rw [ha.coreThread]
      exact hcore
    exact (schedule_new_untouched hres hrun hsame ha).mono (fun _ hb => (hout.trans hset).trans hb) fun _ _ => trivial

theorem scheduleIfFree_untouched {resched : Sim → ℕ → Except Fault Sim} (hrun : s.runnable.get t = false)
    (hre : ∀ a core, a.runnable.get t = false → a.coreThread core ≠ some t →
      Ensures (resched a core) (Untouched t a) fun _ => True) :
    Ensures (scheduleIfFree cfg resched s u) (Untouched t s) fun _ => True := by
  rw [scheduleIfFree]
  split
  · split
    · rename_i core hfind
      refine hre s core hrun ?_
      rw [(findFreeCoreForThread_some hfind).2.2]
      exact (Option.some_ne_none t).symm
    · exact .ok (.refl t s)
  · exact .error trivial

theorem resumeThread_spares {resched : Sim → ℕ → Except Fault Sim}
    (hre : ∀ a core, a.runnable.get t = false → a.coreThread core ≠ some t →
      Ensures (resched a core) (Untouched t a) fun _ => True) : Spares t (resumeThread cfg resched) := by
  intro a u hu hrun
  have hmark : Untouched t a ((a.setStatus u .running).setRunnable u true) := by
    refine ⟨rfl, fun _ => Iff.rfl, ?_⟩
    rw [Sim.setRunnable, Table.get_set, if_neg hu.symm]
    rfl
  rw [resumeThread]
  split_ifs
  · exact (scheduleIfFree_untouched (hmark.runnable.trans hrun) hre).mono (fun _ hb => hmark.trans hb) fun _ _ => trivial
  · exact .error trivial

theorem rescheduleDepth_untouched (cfg : Config) (time depth : ℕ) (hrun : s.runnable.get t = false)
    (hcore : s.coreThread core ≠ some t) :
    Ensures (rescheduleDepth cfg time depth s core) (Untouched t s) fun _ => True := by
  induction depth generalizing s core with
  | zero => exact .error trivial
  | succ depth ih => exact rescheduleBody_untouched (resumeThread_spares fun a core ha hc => ih ha hc) hrun hcore

/-- The core that has the thread on record is rescheduled: the thread is off the core. -/
theorem reschedule_out (hrun : s.runnable.get t = false) (hstatus : s.status t ≠ .initializing)
    (hcore : s.coreThread core = some t) :
    Ensures (reschedule cfg s time core) (fun b => (b.info.get t).coreRunning = none) fun _ => True := by
  rw [reschedule, rescheduleDepth, rescheduleBody]
  dsimp only
  split_ifs with hinit hsize hsame
  · rw [hcore, Option.any_some, decide_eq_true_eq] at hinit
    exact absurd hinit hstatus
  · exact .error trivial
  · exact absurd (hsame.symm.trans hcore) (pickThread_ne hrun)
  · refine Ensures.bind (Q := fun b => (b.info.get t).coreRunning = none) ?_ fun b hb => .ok hb
    refine (unschedule_spec s time core _).bind fun a ha => ?_
    have hres : Spares t (resumeThread cfg (rescheduleDepth cfg time cfg.numCores)) :=
      resumeThread_spares fun a core ha hc => rescheduleDepth_untouched cfg time cfg.numCores ha hc
    refine (schedule_new_untouched hres hrun hsame ha).mono (fun b hb => ?_) fun _ _ => trivial
    rw [hb.info]
    exact ha.out t hcore

theorem reschedule_untouched (cfg : Config) (time : ℕ) (hrun : s.runnable.get t = false)
    (hcore : s.coreThread core ≠ some t) : Ensures (reschedule cfg s time core) (Untouched t s) fun _ => True :=
  rescheduleDepth_untouched cfg time _ hrun hcore

/-! ### Promoting another thread -/

theorem applyAffinity_untouched (hrun : s.runnable.get t = false) :
    Ensures (applyAffinity cfg clock s u) (Untouched t s) fun _ => True := by
  rw [applyAffinity]
  split
  · split_ifs
    · exact .ok (.refl t s)
    · exact .error trivial
    · exact .ok ⟨rfl, fun _ => Iff.rfl, rfl⟩
  · split_ifs
    · split
      · rename_i core hfind
        refine reschedule_untouched cfg _ hrun ?_
        rw [(findFreeCoreForThread_some hfind).2.2]
        exact (Option.some_ne_none t).symm
      · exact .ok (.refl t s)
    · exact .ok (.refl t s)
    · exact .error trivial

/-- What may have happened to the table when another thread got an affinity: it has grown. -/
structure Regrown (t : ℕ) (s b : Sim) : Prop where
  entry : t < s.info.size → b.info.get t = s.info.get t
  grown : s.info.size ≤ t → t < b.info.size → b.info.get t = .fresh
  coreThread : ∀ c, b.coreThread c = some t ↔ s.coreThread c = some t
  runnable : b.runnable.get t = s.runnable.get t
  status : b.status t = s.status t ∨ b.status t = .running

theorem Regrown.refl (t : ℕ) (s : Sim) : Regrown t s s :=
  ⟨fun _ => rfl, fun hle hlt => absurd hle (Nat.not_le.2 hlt), fun _ => Iff.rfl, rfl, .inl rfl⟩

theorem moveTo_regrown (hu : u ≠ t) (hrun : s.runnable.get t = false) (big : Bool) :
    Ensures (moveTo cfg clock big s u) (Regrown t s) fun _ => True := by
  rw [moveTo, threadSetAffinity]
  refine Ensures.bind (Q := Regrown t s) ?_ fun b hb =>
    .ok ⟨hb.entry, hb.grown, hb.coreThread, hb.runnable, hb.status⟩
  refine ((recordAffinity_spec cfg s u _).mono (fun _ h => h) fun _ _ => trivial).bind fun a ha => ?_
  have hsame : a.runnable = s.runnable ∧ a.coreThread = s.coreThread ∧ a.status = s.status := by
    rw [ha.same]
    exact ⟨rfl, rfl, rfl⟩
  have hgrown : (t < s.info.size → a.info.get t = s.info.get t) ∧
      (s.info.size ≤ t → t < a.info.size → a.info.get t = .fresh) := by
    rw [ha.other t hu.symm, ha.size, grownInfo]
    split_ifs
    · exact ⟨fun hlt => if_pos hlt, fun hle _ => if_neg (Nat.not_lt.2 hle)⟩
    · exact ⟨fun _ => rfl, fun hle hlt => absurd hle (Nat.not_le.2 hlt)⟩
  have hrun' : a.runnable.get t = false := by
    rw [hsame.1]
    exact hrun
  have hafter (b : Sim) (hb : Untouched t a b) (hframe : Frame a b) : Regrown t s b := by
    refine ⟨fun hlt => hb.info.trans (hgrown.1 hlt), fun hle hlt => hb.info.trans (hgrown.2 hle ?_), fun c => ?_, ?_, ?_⟩
    · rwa [hframe.info_size] at hlt
    · rw [hb.coreThread, hsame.2.1]
    · rw [hb.runnable, hsame.1]
    · rw [← hsame.2.2]
      exact (hframe.status t).imp_right fun h => h.1
  split_ifs with hcreated hcalling
  · exact .ok (hafter a (.refl t a) (.refl a))
  · cases hcalling
  · exact ((applyAffinity_untouched hrun').and
      ((applyAffinity_frame cfg clock a u).mono (fun _ h => h) fun _ _ => trivial)).mono
      (fun b hb => hafter b hb.1 hb.2) fun _ _ => trivial

theorem replaceBigThread_regrown (hrun : s.runnable.get t = false) :
    Ensures (replaceBigThread cfg clock s u) (Regrown t s) fun _ => True := by
  rw [replaceBigThread]
  split_ifs
  · rw [pickBigThread]
    split_ifs
    · split
      · exact .ok (.refl t s)
      · rename_i v vs hcandidates
        have hlt : rngNext s.rng / 2 ^ 16 % (vs.length + 1) < (v :: vs).length := Nat.mod_lt _ (Nat.succ_pos _)
        have hmem : (v :: vs).getD (rngNext s.rng / 2 ^ 16 % (vs.length + 1)) v ∈ v :: vs := by
          rw [List.getD_eq_getElem _ _ hlt]
          exact List.getElem_mem _
        have hne : (v :: vs).getD (rngNext s.rng / 2 ^ 16 % (vs.length + 1)) v ≠ t := by
          intro heq
          rw [heq, ← hcandidates, promotable, List.mem_filter, Bool.and_eq_true, hrun] at hmem
          cases hmem.2.2
        rw [moveToBig]
        exact (moveTo_regrown (s := { s with rng := rngNext s.rng }) hne hrun true).mono
          (fun b hb => ⟨hb.entry, hb.grown, hb.coreThread, hb.runnable, hb.status⟩) fun _ _ => trivial
    · exact .error trivial
  · exact .ok (.refl t s)

/-! ### The record of the exit -/

/-- `end_times[m_thread_info[thread_id].getCoreRunning()] = time`. -/
def storeEndTime (cfg : Config) (time : ℕ) (s : Sim) (t : ℕ) (endTimes : ℕ → ℕ) : Except Fault (ℕ → ℕ) :=
  match (s.info.get t).coreRunning with
  | some core => if core < cfg.numCores then .ok (Function.update endTimes core time) else .error .index
  | none => .error .index

/-- `threadExit` until the time is recorded. -/
def giveUpCore (cfg : Config) (clock : ℕ → ℕ) (time : ℕ) (s : Sim) (t : ℕ) : Except Fault Sim := do
  let s ← replaceBigThread cfg clock s t
  leaveCore cfg time s t

/-- The thread is still on its core for the scheduler, but the core has another thread on record, or none. -/
structure OffRecord (cfg : Config) (s : Sim) (t core : ℕ) : Prop where
  entry : t < s.info.size
  core_lt : core < cfg.numCores
  running : (s.info.get t).coreRunning = some core
  other : s.coreThread core ≠ some t

/-- The time is recorded for this core and for no other. -/
theorem storeEndTime_iff : (∀ endTimes, storeEndTime cfg time s t endTimes = .ok (Function.update endTimes core time)) ↔
    (s.info.get t).coreRunning = some core ∧ core < cfg.numCores := by
  constructor
  · intro hstore
    have hlater := hstore fun _ => time + 1
    rw [storeEndTime] at hlater
    cases hrunning : (s.info.get t).coreRunning with
    | none =>
      rw [hrunning] at hlater
      cases hlater
    | some c =>
      rw [hrunning] at hlater
      change (if c < cfg.numCores then _ else _) = _ at hlater
      split_ifs at hlater with hlt
      have hc : c = core := by
        by_contra hne
        have heq := congrFun (Except.ok.inj hlater) core
        rw [Function.update_self, Function.update_of_ne (Ne.symm hne)] at heq
        omega
      exact ⟨congrArg some hc, hc ▸ hlt⟩
  · rintro ⟨hrunning, hlt⟩ endTimes
    rw [storeEndTime, hrunning]
    exact if_pos hlt

/-- Where the thread is for the scheduler after it has given up its core. -/
theorem giveUpCore_spec (time core : ℕ) (hrun : s.runnable.get t = false) (hstatus : s.status t ≠ .initializing) :
    Ensures (giveUpCore cfg clock time s t)
      (fun b => (b.info.get t).coreRunning = some core ∧ core < cfg.numCores ↔ OffRecord cfg s t core)
      fun _ => True := by
  refine (replaceBigThread_regrown (t := t) hrun).bind fun m hm => ?_
  have hrun' : m.runnable.get t = false := hm.runnable.trans hrun
  have hstatus' : m.status t ≠ .initializing := by
    rcases hm.status with hst | hst
    · rwa [hst]
    · rw [hst]
      exact State.noConfusion
  rw [leaveCore]
  split_ifs with hsize
  · cases hrunning : (m.info.get t).coreRunning with
    | none =>
      refine .ok (iff_of_false (fun h => ?_) fun h => ?_)
      · rw [hrunning] at h
        cases h.1
      · have hsame := h.running
        rw [← hm.entry h.entry, hrunning] at hsame
        cases hsame
    | some c =>
      by_cases hrecord : m.coreThread c = some t
      · refine (reschedule_out hrun' hstatus' hrecord).mono (fun b hb => iff_of_false (fun h => ?_) fun h => ?_)
          fun _ _ => trivial
        · rw [hb] at h
          cases h.1
        · have hsame := h.running
          rw [← hm.entry h.entry, hrunning] at hsame
          cases hsame
          exact h.other ((hm.coreThread _).1 hrecord)
      · refine (reschedule_untouched cfg time hrun' hrecord).mono (fun b hb => ?_) fun _ _ => trivial
        have hentry : t < s.info.size := by
          by_contra hle
          rw [hm.grown (Nat.not_lt.1 hle) hsize] at hrunning
          cases hrunning
        rw [hb.info, hm.entry hentry]
        rw [hm.entry hentry] at hrunning
        constructor
        · rintro ⟨hcore, hlt⟩
          cases hrunning.symm.trans hcore
          exact ⟨hentry, hlt, hcore, fun heq => hrecord ((hm.coreThread _).2 heq)⟩
        · exact fun h => ⟨h.running, h.core_lt⟩
  · exact .error trivial

/-! ### Runs -/

/-- The simulator with the vector `end_times`, and a history of the exits: core and time, the last one first. -/
structure Rmu where
  sim : Sim
  endTimes : ℕ → ℕ
  exits : List (ℕ × ℕ)

/-- `ThreadManager::onThreadExit`, with `threadExit` as it is under `USE_RMU`. -/
def exitWithRecord (cfg : Config) (clock : ℕ → ℕ) (time : ℕ) (r : Rmu) (t : ℕ) (wake : List ℕ)
    (file : List (ℕ × ℕ × ℕ)) : Except Fault Rmu :=
  if t < r.sim.numThreads then
    match r.sim.threadCore t with
    | none => .error .notRunning
    | some core =>
      if r.sim.status t = .running then do
        let s ← beginExit cfg time r.sim t core wake
        let s ← giveUpCore cfg clock time s t
        let endTimes ← storeEndTime cfg time s t r.endTimes
        let s ← countExit cfg time s file
        .ok ⟨s, endTimes, (core, time) :: r.exits⟩
      else .error .notRunning
  else .error .noThread

def rmuStep (cfg : Config) (r : Rmu) (call : Call) : Except Fault Rmu :=
  match call.event with
  | .exit t wake file => exitWithRecord cfg call.clock call.time r t wake file
  | _ => do
    let s ← step cfg r.sim call
    .ok { r with sim := s }

def rmuMachine (cfg : Config) : Machine Rmu Call Fault := ⟨rmuStep cfg⟩

def rmuInitial (coreThreadMap : ℕ → ℕ → Option ℕ) : Rmu := ⟨initial coreThreadMap, fun _ => 0, []⟩

/-- The time of the last exit on a core; zero is what the vector holds at first. -/
def lastExit (core : ℕ) : List (ℕ × ℕ) → ℕ
  | [] => 0
  | e :: exits => if e.1 = core then e.2 else lastExit core exits

/-- The exit gets as far as the record: the thread ran on `core`, `threadExit` was called in `a`, and `b` is the state in
which the time is recorded. -/
structure Recording (cfg : Config) (r : Rmu) (call : Call) (t core : ℕ) (a b : Sim) : Prop where
  exit : ∃ wake file, call.event = .exit t wake file ∧ beginExit cfg call.time r.sim t core wake = .ok a
  created : t < r.sim.numThreads
  onCore : r.sim.threadCore t = some core
  running : r.sim.status t = .running
  gaveUp : giveUpCore cfg call.clock call.time a t = .ok b

/-- The exit is recorded for the core on which the thread ran, and for no other. -/
def ExitStored (cfg : Config) (r : Rmu) (call : Call) : Prop :=
  ∀ t core a b, Recording cfg r call t core a b →
    ∀ endTimes, storeEndTime cfg call.time b t endTimes = .ok (Function.update endTimes core call.time)

/-- When `threadExit` is called, the thread is still on its core for the scheduler, but the core does not have it on
record. -/
def ExitOffRecord (cfg : Config) (r : Rmu) (call : Call) : Prop :=
  ∀ t core a b, Recording cfg r call t core a b → OffRecord cfg a t core

/-- Whatever was woken up, the thread that exits can no longer run. -/
theorem beginExit_stopped (cfg : Config) (time : ℕ) (s : Sim) (t core : ℕ) (wake : List ℕ) :
    Ensures (beginExit cfg time s t core wake)
      (fun a => a.runnable.get t = false ∧ a.status t ≠ .initializing) fun _ => True := by
  rw [beginExit]
  refine Ensures.bind (Q := fun b => b.status t ≠ .initializing) ?_ fun a ha => ?_
  · refine Ensures.foldlM (fun a u _ ha => (wakeThread_status ..).mono (fun b hb => ?_) fun _ hf => hf) ?_
    · rcases hb t with hst | hst
      · rwa [hst]
      · rw [hst]
        exact State.noConfusion
    · change Function.update s.status t .idle t ≠ .initializing
      rw [Function.update_self]
      exact State.noConfusion
  · refine ((setCore_frame (a.setState core .idle) t none).mono (fun _ h => h) fun _ _ => trivial).bind fun b hb => ?_
    split_ifs
    · refine .ok ⟨?_, ?_⟩
      · rw [Sim.setRunnable, Table.get_set, if_pos rfl]
      · rcases hb.status t with hst | ⟨hst, -, -⟩
        · exact hst.trans_ne ha
        · exact hst.trans_ne State.noConfusion
    · exact .error trivial

theorem exitStored_iff (r : Rmu) (call : Call) : ExitStored cfg r call ↔ ExitOffRecord cfg r call := by
  refine forall₅_congr fun t core a b h => ?_
  obtain ⟨wake, file, -, hbegin⟩ := h.exit
  obtain ⟨hrun, hstatus⟩ := (beginExit_stopped cfg call.time r.sim t core wake).of_ok hbegin
  rw [storeEndTime_iff]
  exact (giveUpCore_spec call.time core hrun hstatus).of_ok h.gaveUp

/-- An exit that is carried out. -/
theorem exitWithRecord_ok {r r' : Rmu} {call : Call} {wake : List ℕ} {file : List (ℕ × ℕ × ℕ)}
    (hevent : call.event = .exit t wake file)
    (h : exitWithRecord cfg call.clock call.time r t wake file = .ok r') :
    ∃ core a b, Recording cfg r call t core a b ∧ storeEndTime cfg call.time b t r.endTimes = .ok r'.endTimes ∧
      r'.exits = (core, call.time) :: r.exits ∧ step cfg r.sim call = .ok r'.sim := by
  rw [exitWithRecord] at h
  cases hcore : r.sim.threadCore t with
  | none =>
    rw [hcore] at h
    split_ifs at h
  | some core =>
    rw [hcore] at h
    split_ifs at h with hcreated hrunning
    obtain ⟨a, ha, h⟩ := exists_of_bind_ok h
    obtain ⟨b, hb, h⟩ := exists_of_bind_ok h
    obtain ⟨endTimes, hstore, h⟩ := exists_of_bind_ok h
    obtain ⟨s, hs, h⟩ := exists_of_bind_ok h
    cases h
    refine ⟨core, a, b, ⟨⟨wake, file, hevent, ha⟩, hcreated, hcore, hrunning, hb⟩, hstore, rfl, ?_⟩
    obtain ⟨m, hm, hleave⟩ := exists_of_bind_ok hb
    rw [step, hevent]
    change onThreadExit cfg call.clock call.time r.sim t wake file = .ok s
    rw [onThreadExit, if_pos hcreated, hcore]
    dsimp only
    rw [if_pos hrunning, ha, ok_bind, threadExit, hm, ok_bind, hleave, ok_bind, hs]

/-- Apart from the record, the simulator does what it does without it. -/
theorem rmuStep_sim {r r' : Rmu} {call : Call} (h : rmuStep cfg r call = .ok r') :
    step cfg r.sim call = .ok r'.sim := by
  rw [rmuStep] at h
  split at h
  · rename_i t wake file hevent
    obtain ⟨-, -, -, -, -, -, hstep⟩ := exitWithRecord_ok hevent h
    exact hstep
  · obtain ⟨s, hs, h⟩ := exists_of_bind_ok h
    cases h
    exact hs

theorem rmu_reachable {map : ℕ → ℕ → Option ℕ} {r : Rmu} (h : (rmuMachine cfg).Reachable (rmuInitial map) r) :
    (machine cfg).Reachable (initial map) r.sim := by
  refine h.invariant (P := fun r => (machine cfg).Reachable (initial map) r.sim) ((machine cfg).reachable_refl _) ?_
  intro r call r' hr hstep
  have hsim : (machine cfg).step r.sim call = .ok r'.sim := rmuStep_sim hstep
  exact hr.step hsim

/-- One event keeps the vector in agreement with the history, if its exit is recorded as it should be. -/
theorem rmuStep_lastExit {r r' : Rmu} {call : Call} (h : ∀ c, r.endTimes c = lastExit c r.exits)
    (hstored : ExitStored cfg r call) (hstep : rmuStep cfg r call = .ok r') (c : ℕ) :
    r'.endTimes c = lastExit c r'.exits := by
  rw [rmuStep] at hstep
  split at hstep
  · rename_i t wake file hevent
    obtain ⟨core, a, b, hrecording, hstore, hexits, -⟩ := exitWithRecord_ok hevent hstep
    rw [hstored t core a b hrecording r.endTimes] at hstore
    rw [← Except.ok.inj hstore, hexits, lastExit, ← h c]
    by_cases hc : core = c
    · rw [if_pos hc, ← hc, Function.update_self]
    · rw [if_neg hc, Function.update_of_ne (Ne.symm hc)]
  · obtain ⟨s, -, hstep⟩ := exists_of_bind_ok hstep
    cases hstep
    exact h c

/-- When exits are recorded as they should be; in runs where they are, the vector holds the time of the last exit on each
core. If the records of the scheduler agree with each other, that is without changes of hyper-period, no exit is. -/
theorem endTimes_exact (cfg : Config) (map : ℕ → ℕ → Option ℕ) (calls : List Call) :
    ((rmuMachine cfg).Guarded (ExitStored cfg) (rmuInitial map) calls ↔
      (rmuMachine cfg).Guarded (ExitOffRecord cfg) (rmuInitial map) calls) ∧
    ((rmuMachine cfg).Guarded (ExitOffRecord cfg) (rmuInitial map) calls →
      ∀ r, (rmuMachine cfg).run (rmuInitial map) calls = .ok r → ∀ c, r.endTimes c = lastExit c r.exits) ∧
    (cfg.periodicWorkload = false → ∀ r, (rmuMachine cfg).run (rmuInitial map) calls = .ok r →
      ∀ call t core a b, Recording cfg r call t core a b → ¬ OffRecord cfg a t core) := by
  refine ⟨?_, fun hguarded r hrun => ?_, fun hper r hrun call t core a b h hoff => ?_⟩
  · exact (rmuMachine cfg).guarded_congr (fun _ _ _ _ _ _ => trivial) (fun r call _ _ => exitStored_iff r call) trivial
      ((rmuMachine cfg).guarded_true _ calls)
  · refine (rmuMachine cfg).guarded_induction (P := fun r => ∀ c, r.endTimes c = lastExit c r.exits) ?_
      (fun _ => rfl) hguarded hrun
    intro r call r' hr hcall hstep
    exact rmuStep_lastExit hr ((exitStored_iff r call).2 hcall) hstep
  · obtain ⟨wake, file, -, hbegin⟩ := h.exit
    have hlinked := reachable_linked hper (rmu_reachable ⟨calls, hrun⟩)
    have hleaving := (beginExit_leaving call.time hlinked h.onCore wake).of_ok hbegin
    exact hoff.other ((hleaving.linked.running core t).2 hoff.running)

/-- One thread is created and started. -/
def beforeExit : Rmu :=
  (rmuMachine twoCores).final (rmuInitial fun _ _ => none) [(Event.create 0).at 0, (Event.start 0).at 0]

/-- The exit of the only thread is not recorded for its core. -/
theorem only_exit_not_stored : ¬ ∀ (cfg : Config) (map : ℕ → ℕ → Option ℕ) (calls : List Call),
    (rmuMachine cfg).Guarded (ExitStored cfg) (rmuInitial map) calls := by
  intro h
  have hguarded := h twoCores (fun _ _ => none)
    ([(Event.create 0).at 0, (Event.start 0).at 0] ++ [(Event.exit 0 [] []).at 100])
  have hrun : (rmuMachine twoCores).run (rmuInitial fun _ _ => none)
      [(Event.create 0).at 0, (Event.start 0).at 0] = .ok beforeExit := (rmuMachine twoCores).run_final
        (by decide +kernel)
  have hexit : (beginExit twoCores 100 beforeExit.sim 0 0 [] >>= fun a =>
      giveUpCore twoCores (fun _ => 100) 100 a 0).isOk = true := by decide +kernel
  obtain ⟨b, hb⟩ := exists_of_isOk hexit
  obtain ⟨a, ha, hb⟩ := exists_of_bind_ok hb
  have hrecording : Recording twoCores beforeExit ((Event.exit 0 [] []).at 100) 0 0 a b :=
    { exit := ⟨[], [], rfl, ha⟩
      created := by decide +kernel
      onCore := by decide +kernel
      running := by decide +kernel
      gaveUp := hb }
  have hoff := (exitStored_iff _ _).1 (hguarded.at_event hrun) 0 0 a b hrecording
  have hlinked := reachable_linked (rfl : twoCores.periodicWorkload = false) (rmu_reachable ⟨_, hrun⟩)
  have hleaving := (beginExit_leaving 100 hlinked hrecording.onCore []).of_ok ha
  exact hoff.other ((hleaving.linked.running 0 0).2 hoff.running)

end LifeSim.Sched
