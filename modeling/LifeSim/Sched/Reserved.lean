import LifeSim.Sched.FineSteps

/-!
# A core with threads of its own

Some threads may run on one core and on no other. What happens to the other threads and cores does not concern them: the
core keeps its thread and its quantum, and the entries of its own threads stay as they are. `Sealed` says this of a step,
`Reserved` is the invariant that it rests on and keeps.
-/

namespace LifeSim.Sched

open LifeSim.Lib

variable {cfg : Config} {s s' a b : Sim} {t u c d core time depth : ℕ} {clock : ℕ → ℕ}

/-- A thread that has been created and may run on the core. -/
def Own (c : ℕ) (s : Sim) (t : ℕ) : Prop := t < s.numThreads ∧ (s.info.get t).affinity c = true

/-- The threads that may run on a core may run nowhere else, and no other thread runs on it. A thread that has not been
created is not on any core and never was. -/
structure Reserved (c : ℕ) (s : Sim) : Prop where
  alone : ∀ t d, Own c s t → (s.info.get t).affinity d = true → d = c
  runs : ∀ t d, Own c s t → (s.info.get t).coreRunning = some d → d = c
  here : ∀ t, (s.info.get t).coreRunning = some c ↔ s.coreThread c = some t
  guest : ∀ t, s.coreThread c = some t → Own c s t
  away : ∀ d t, d ≠ c → s.coreThread d = some t → t < s.numThreads ∧ ¬ Own c s t
  live : ∀ t, s.runnable.get t = true → t < s.numThreads ∧ t < s.runnable.size
  future : ∀ t, s.numThreads ≤ t → (s.info.get t).coreRunning = none ∧ (s.info.get t).lastScheduledOut = 0
  size : s.numThreads ≤ s.info.size

/-- Nothing has changed about where threads run by the scheduler's records, or may run. -/
structure Alike (s s' : Sim) : Prop where
  numThreads : s'.numThreads = s.numThreads
  coreThread : s'.coreThread = s.coreThread
  quantumLeft : s'.quantumLeft = s.quantumLeft
  lastPeriodic : s'.lastPeriodic = s.lastPeriodic
  info : s'.info = s.info
  runnable : s'.runnable = s.runnable

namespace Alike

theorem refl (s : Sim) : Alike s s := ⟨rfl, rfl, rfl, rfl, rfl, rfl⟩

theorem trans (h : Alike s a) (h' : Alike a b) : Alike s b :=
  ⟨h'.numThreads.trans h.numThreads, h'.coreThread.trans h.coreThread, h'.quantumLeft.trans h.quantumLeft,
    h'.lastPeriodic.trans h.lastPeriodic, h'.info.trans h.info, h'.runnable.trans h.runnable⟩

theorem vacate (s : Sim) (u : ℕ) : Alike s (vacate s u) := by
  rw [Sched.vacate]
  split
  · exact ⟨rfl, rfl, rfl, rfl, rfl, rfl⟩
  · exact refl s

end Alike

theorem setCore_alike (s : Sim) (u : ℕ) (core : Option ℕ) : Ensures (setCore s u core) (Alike s) fun _ => True := by
  have hletGo : Alike s (letGo s u) := by
    rw [letGo]
    split
    · exact ⟨rfl, rfl, rfl, rfl, rfl, rfl⟩
    · exact .refl s
  unfold setCore
  dsimp only
  split
  · exact .ok (hletGo.trans ⟨rfl, rfl, rfl, rfl, rfl, rfl⟩)
  · split
    · exact .ok (hletGo.trans ⟨rfl, rfl, rfl, rfl, rfl, rfl⟩)
    · exact .error trivial

theorem Reserved.of_same (h : Reserved c s) (hnum : s'.numThreads = s.numThreads) (hcore : s'.coreThread = s.coreThread)
    (hinfo : s'.info = s.info) (hrun : s'.runnable = s.runnable) : Reserved c s' := by
  have hown (t : ℕ) : Own c s' t ↔ Own c s t := by rw [Own, Own, hnum, hinfo]
  refine ⟨fun t d ht => ?_, fun t d ht => ?_, fun t => ?_, fun t => ?_, fun d t hd => ?_, fun t => ?_, fun t => ?_,
    (hnum.trans_le h.size).trans_eq (congrArg Table.size hinfo).symm⟩
  · rw [hinfo]
    exact h.alone t d ((hown t).1 ht)
  · rw [hinfo]
    exact h.runs t d ((hown t).1 ht)
  · rw [hinfo, hcore]
    exact h.here t
  · rw [hcore, hown]
    exact h.guest t
  · rw [hcore, hown, hnum]
    exact h.away d t hd
  · rw [hrun, hnum]
    exact h.live t
  · rw [hnum, hinfo]
    exact h.future t

/-- A step that does not concern the core and its threads. -/
structure Sealed (c : ℕ) (s s' : Sim) : Prop where
  numThreads : s'.numThreads = s.numThreads
  coreThread : s'.coreThread c = s.coreThread c
  quantumLeft : s'.quantumLeft c = s.quantumLeft c
  lastPeriodic : s'.lastPeriodic = s.lastPeriodic
  own : ∀ t, Own c s' t ↔ Own c s t
  info : ∀ t, Own c s t → s'.info.get t = s.info.get t
  reserved : Reserved c s → Reserved c s'

namespace Sealed

theorem refl (c : ℕ) (s : Sim) : Sealed c s s := ⟨rfl, rfl, rfl, rfl, fun _ => Iff.rfl, fun _ _ => rfl, id⟩

theorem trans (h : Sealed c s a) (h' : Sealed c a b) : Sealed c s b where
  numThreads := h'.numThreads.trans h.numThreads
  coreThread := h'.coreThread.trans h.coreThread
  quantumLeft := h'.quantumLeft.trans h.quantumLeft
  lastPeriodic := h'.lastPeriodic.trans h.lastPeriodic
  own t := (h'.own t).trans (h.own t)
  info t ht := (h'.info t ((h.own t).2 ht)).trans (h.info t ht)
  reserved hs := h'.reserved (h.reserved hs)

theorem of_alike (h : Alike s s') : Sealed c s s' := by
  have hown (t : ℕ) : Own c s' t ↔ Own c s t := by rw [Own, Own, h.numThreads, h.info]
  exact ⟨h.numThreads, congrFun h.coreThread c, congrFun h.quantumLeft c, h.lastPeriodic, hown, fun t _ => by rw [h.info],
    fun hs => hs.of_same h.numThreads h.coreThread h.info h.runnable⟩

/-- The entry of a created thread that is none of the core's own changes. -/
theorem modifyInfo (hcreated : u < s.numThreads) (hu : ¬ Own c s u) {f : ThreadInfo → ThreadInfo}
    (haffinity : (f (s.info.get u)).affinity c = true → (s.info.get u).affinity c = true)
    (hrunning : (f (s.info.get u)).coreRunning ≠ some c) : Sealed c s (s.modifyInfo u f) := by
  have hentry (t : ℕ) (ht : t ≠ u) : (s.modifyInfo u f).info.get t = s.info.get t := by
    rw [Sim.modifyInfo, Table.get_set, if_neg ht]
  have hself : (s.modifyInfo u f).info.get u = f (s.info.get u) := by rw [Sim.modifyInfo, Table.get_set, if_pos rfl]
  have hown (t : ℕ) : Own c (s.modifyInfo u f) t ↔ Own c s t := by
    by_cases ht : t = u
    · rw [ht]
      refine iff_of_false (fun h => hu ⟨hcreated, haffinity ?_⟩) hu
      rw [← hself]
      exact h.2
    · rw [Own, Own, hentry t ht]
      rfl
  have hne (t : ℕ) (ht : Own c s t) : t ≠ u := fun h => hu (h ▸ ht)
  refine ⟨rfl, rfl, rfl, rfl, hown, fun t ht => hentry t (hne t ht), fun h => ?_⟩
  refine ⟨fun t d ht => ?_, fun t d ht => ?_, fun t => ?_, fun t ht => (hown t).2 (h.guest t ht), fun d t hd ht => ?_,
    h.live, fun t ht => ?_, h.size⟩
  · rw [hentry t (hne t ((hown t).1 ht))]
    exact h.alone t d ((hown t).1 ht)
  · rw [hentry t (hne t ((hown t).1 ht))]
    exact h.runs t d ((hown t).1 ht)
  · by_cases ht : t = u
    · rw [ht, hself]
      exact iff_of_false hrunning fun hcore => hu (h.guest u hcore)
    · rw [hentry t ht]
      exact h.here t
  · rw [hown]
    exact h.away d t hd ht
  · rw [hentry t fun heq => absurd hcreated (Nat.not_lt.2 (heq ▸ ht))]
    exact h.future t ht

/-- Another core gets a thread that is none of the core's own, or none. -/
theorem setCoreThread (hd : d ≠ c) {new : Option ℕ} (hnew : ∀ u, new = some u → u < s.numThreads ∧ ¬ Own c s u) :
    Sealed c s (s.setCoreThread d new) := by
  have hcore : (s.setCoreThread d new).coreThread c = s.coreThread c := Function.update_of_ne (Ne.symm hd) ..
  refine ⟨rfl, hcore, rfl, rfl, fun _ => Iff.rfl, fun _ _ => rfl, fun h => ?_⟩
  refine ⟨h.alone, h.runs, fun t => ?_, fun t ht => h.guest t (hcore ▸ ht), fun e t he ht => ?_, h.live, h.future, h.size⟩
  · rw [hcore]
    exact h.here t
  · change Function.update s.coreThread d new e = some t at ht
    by_cases hed : e = d
    · rw [hed, Function.update_self] at ht
      exact hnew t ht
    · rw [Function.update_of_ne hed] at ht
      exact h.away e t he ht

theorem setQuantum (hd : d ≠ c) (quantum : ℕ) : Sealed c s (s.setQuantum d quantum) :=
  ⟨rfl, rfl, Function.update_of_ne (Ne.symm hd) .., rfl, fun _ => Iff.rfl, fun _ _ => rfl,
    fun h => h.of_same rfl rfl rfl rfl⟩

/-- A created thread may run again. -/
theorem setRunnable (ht : t < s.numThreads) (hsize : t < s.runnable.size) (b : Bool) :
    Sealed c s (s.setRunnable t b) := by
  refine ⟨rfl, rfl, rfl, rfl, fun _ => Iff.rfl, fun _ _ => rfl, fun h => ?_⟩
  refine ⟨h.alone, h.runs, h.here, h.guest, h.away, fun u hu => ?_, h.future, h.size⟩
  by_cases hut : u = t
  · rw [hut]
    exact ⟨ht, hsize⟩
  · rw [Sim.setRunnable, Table.get_set, if_neg hut] at hu
    exact h.live u hu

end Sealed

/-- What a call through the resume hook does for a thread that is none of the core's own: nothing to the core. -/
def ResumeSealed (c : ℕ) (resume : Sim → ℕ → Except Fault Sim) : Prop :=
  ∀ a u, Reserved c a → u < a.numThreads → ¬ Own c a u → Ensures (resume a u) (Sealed c a) fun _ => True

theorem moveThread_sealed {resume : Sim → ℕ → Except Fault Sim} (hres : ResumeSealed c resume) (h : Reserved c s)
    (hcreated : u < s.numThreads) (hu : ¬ Own c s u) (core : Option ℕ) :
    Ensures (moveThread resume s u core) (Sealed c s) fun _ => True := by
  have hvacate : Sealed c s (vacate s u) := .of_alike (.vacate s u)
  cases core with
  | none => exact (setCore_alike _ u none).mono (fun b hb => hvacate.trans (.of_alike hb)) fun _ _ => trivial
  | some core =>
    rw [moveThread]
    refine Ensures.bind (Q := Sealed c s) ?_ fun a ha => ?_
    · rw [wakeUnscheduled]
      split_ifs
      · refine (hres _ u (hvacate.reserved h) ?_ fun hown => hu ((hvacate.own u).1 hown)).mono
          (fun b hb => hvacate.trans hb) fun _ _ => trivial
        rw [hvacate.numThreads]
        exact hcreated
      · exact .ok hvacate
    · refine Ensures.bind (Q := Sealed c s) ?_ fun b hb => .ok ?_
      · exact (setCore_alike _ u _).mono (fun b hb => ha.trans (.of_alike hb)) fun _ _ => trivial
      · split_ifs
        · exact hb
        · exact hb.trans (.of_alike ⟨rfl, rfl, rfl, rfl, rfl, rfl⟩)

/-- The thread on another core leaves it. -/
theorem unschedule_sealed (h : Reserved c s) (hd : d ≠ c) :
    Ensures (unschedule s time d (s.coreThread d)) (Sealed c s) fun _ => True := by
  cases hcore : s.coreThread d with
  | none => exact .ok (.refl c s)
  | some u =>
    obtain ⟨hcreated, hu⟩ := h.away d u hd hcore
    have hout : Sealed c s (s.modifyInfo u (ThreadInfo.scheduledOut (time + 1000 * d))) :=
      .modifyInfo hcreated hu id (Option.some_ne_none c).symm
    rw [unschedule]
    refine (moveThread_sealed (fun a u _ _ _ => .ok (.refl c a)) (hout.reserved h)
      (hcreated.trans_eq hout.numThreads.symm)
      (fun hown => hu ((hout.own u).1 hown)) none).mono (fun b hb => hout.trans hb) fun _ _ => trivial

/-- Another core gets a thread that is none of the core's own. -/
theorem schedule_sealed {resume : Sim → ℕ → Except Fault Sim} (hres : ResumeSealed c resume) (h : Reserved c s)
    (hd : d ≠ c) (hcreated : u < s.numThreads) (hu : ¬ Own c s u) :
    Ensures (schedule resume s time d (some u)) (Sealed c s) fun _ => True := by
  have hforget : Sealed c s (forgetOldCore s u) := by
    rw [forgetOldCore]
    split
    · rename_i old hold
      refine .setCoreThread (fun heq => hu (h.guest u ((h.here u).1 ?_))) fun v hv => absurd hv
        (Option.some_ne_none v).symm
      rw [hold, heq]
    · exact .refl c s
  have hcreated' := hcreated.trans_eq hforget.numThreads.symm
  have hu' : ¬ Own c (forgetOldCore s u) u := fun hown => hu ((hforget.own u).1 hown)
  have hin : Sealed c s ((forgetOldCore s u).modifyInfo u (ThreadInfo.scheduledIn d time)) :=
    hforget.trans (.modifyInfo hcreated' hu' id fun heq => hd (Option.some.inj heq))
  rw [schedule]
  refine (moveThread_sealed hres (hin.reserved h) (hcreated.trans_eq hin.numThreads.symm)
    (fun hown => hu ((hin.own u).1 hown)) _).mono (fun b hb => hin.trans hb) fun _ _ => trivial

/-- A thread that is picked for another core is none of the core's own. -/
theorem Reserved.picked (h : Reserved c s) (hd : d ≠ c) (hpick : pickThread s time d = some u) :
    u < s.numThreads ∧ ¬ Own c s u := by
  obtain ⟨haffinity, hrun, -⟩ := eligible_iff.1 (pickThread_eligible hpick).2
  exact ⟨(h.live u hrun).1, fun hown => hd (h.alone u d hown haffinity)⟩

/-- Rescheduling another core. -/
theorem rescheduleBody_sealed {resume : Sim → ℕ → Except Fault Sim} (hres : ResumeSealed c resume) (h : Reserved c s)
    (hd : d ≠ c) : Ensures (rescheduleBody cfg resume s time d) (Sealed c s) fun _ => True := by
  rw [rescheduleBody]
  dsimp only
  split_ifs
  · exact .ok (.refl c s)
  · exact .error trivial
  · exact .ok (.setQuantum hd _)
  · refine Ensures.bind (Q := Sealed c s) ?_ fun b hb => .ok (hb.trans (.setQuantum hd _))
    refine (unschedule_sealed h hd).bind fun a ha => ?_
    have hnew : ∀ u, pickThread s time d = some u → u < a.numThreads ∧ ¬ Own c a u := fun u hpick =>
      ⟨(h.picked hd hpick).1.trans_eq ha.numThreads.symm, fun hown => (h.picked hd hpick).2 ((ha.own u).1 hown)⟩
    have hset : Sealed c s (a.setCoreThread d (pickThread s time d)) := ha.trans (.setCoreThread hd hnew)
    cases hpick : pickThread s time d with
    | none =>
      rw [hpick] at hset
      exact .ok hset
    | some u =>
      rw [hpick] at hset
      exact (schedule_sealed hres (hset.reserved h) hd (hnew u hpick).1 (hnew u hpick).2).mono
        (fun b hb => hset.trans hb) fun _ _ => trivial

/-- A thread that is none of the core's own finds another core, if any. -/
theorem scheduleIfFree_sealed {resched : Sim → ℕ → Except Fault Sim}
    (hre : ∀ d, d ≠ c → Ensures (resched s d) (Sealed c s) fun _ => True) (hcreated : u < s.numThreads)
    (hu : ¬ Own c s u) : Ensures (scheduleIfFree cfg resched s u) (Sealed c s) fun _ => True := by
  rw [scheduleIfFree]
  split
  · split
    · rename_i d hfind
      refine hre d fun hdc => hu ⟨hcreated, ?_⟩
      rw [← hdc]
      exact (findFreeCoreForThread_some hfind).2.1
    · exact .ok (.refl c s)
  · exact .error trivial

theorem resumeThread_sealed {resched : Sim → ℕ → Except Fault Sim}
    (hre : ∀ a d, Reserved c a → d ≠ c → Ensures (resched a d) (Sealed c a) fun _ => True) :
    ResumeSealed c (resumeThread cfg resched) := by
  intro a u h hcreated hu
  rw [resumeThread]
  split_ifs with hsize
  · have hawake : Sealed c a ((a.setStatus u .running).setRunnable u true) := by
      have hrunning : Sealed c a (a.setStatus u .running) := .of_alike ⟨rfl, rfl, rfl, rfl, rfl, rfl⟩
      exact hrunning.trans (Sealed.setRunnable (s := a.setStatus u .running) hcreated hsize true)
    exact (scheduleIfFree_sealed (fun d hd => hre _ d (hawake.reserved h) hd) hcreated hu).mono
      (fun b hb => hawake.trans hb) fun _ _ => trivial
  · exact .error trivial

theorem rescheduleDepth_sealed (cfg : Config) (time depth : ℕ) (h : Reserved c s) (hd : d ≠ c) :
    Ensures (rescheduleDepth cfg time depth s d) (Sealed c s) fun _ => True := by
  induction depth generalizing s d with
  | zero => exact .error trivial
  | succ depth ih => exact rescheduleBody_sealed (resumeThread_sealed fun a d ha hd => ih ha hd) h hd

theorem reschedule_sealed (cfg : Config) (time : ℕ) (h : Reserved c s) (hd : d ≠ c) :
    Ensures (reschedule cfg s time d) (Sealed c s) fun _ => True :=
  rescheduleDepth_sealed cfg time _ h hd

/-! ### The core itself -/

/-- One of the core's own threads enters it. It finds no other core on the way. -/
theorem moveThread_own {resched : Sim → ℕ → Except Fault Sim} (hcore : s.coreThread c = some t)
    (halone : ∀ d, (s.info.get t).affinity d = true → d = c) (hrun : s.runnable.get t = true) :
    Ensures (moveThread (resumeThread cfg resched) s t (some c)) (Alike s) fun _ => True := by
  have hvacate : Alike s (vacate s t) := .vacate s t
  have hrunnable : (vacate s t).runnable.set t true = (vacate s t).runnable := by
    rw [Table.set, hvacate.runnable, ← hrun, Function.update_eq_self]
  rw [moveThread]
  refine Ensures.bind (Q := Alike s) ?_ fun a ha => ?_
  · rw [wakeUnscheduled]
    split_ifs
    · rw [resumeThread]
      have hawake : Alike s (((vacate s t).setStatus t .running).setRunnable t true) :=
        hvacate.trans ⟨rfl, rfl, rfl, rfl, rfl, hrunnable⟩
      split_ifs
      · rw [scheduleIfFree]
        split
        · split
          · rename_i d hfind
            obtain ⟨-, haffinity, hfree⟩ := findFreeCoreForThread_some hfind
            rw [hawake.info] at haffinity
            rw [halone d haffinity, hawake.coreThread, hcore] at hfree
            exact absurd hfree (Option.some_ne_none t)
          · exact .ok hawake
        · exact .error trivial
      · exact .error trivial
    · exact .ok hvacate
  · refine Ensures.bind (Q := Alike s) ?_ fun b hb => .ok ?_
    · exact (setCore_alike _ t _).mono (fun b hb => ha.trans hb) fun _ _ => trivial
    · split_ifs
      · exact hb
      · exact hb.trans ⟨rfl, rfl, rfl, rfl, rfl, rfl⟩

/-- The entry of a thread after a core has been given to the thread picked for it. -/
def turnedEntry (s : Sim) (time c : ℕ) (t : ℕ) : ThreadInfo :=
  if pickThread s time c = s.coreThread c then s.info.get t
  else if pickThread s time c = some t then (s.info.get t).scheduledIn c time
  else if s.coreThread c = some t then (s.info.get t).scheduledOut (time + 1000 * c)
  else s.info.get t

/-- A core has been given to the thread picked for it. -/
structure Turned (c time : ℕ) (s s' : Sim) : Prop where
  numThreads : s'.numThreads = s.numThreads
  coreThread : s'.coreThread = Function.update s.coreThread c (pickThread s time c)
  lastPeriodic : s'.lastPeriodic = s.lastPeriodic
  info : ∀ t, s'.info.get t = turnedEntry s time c t
  size : s'.info.size = s.info.size
  runnable : s'.runnable = s.runnable

theorem turnedEntry_affinity (s : Sim) (time c t : ℕ) : (turnedEntry s time c t).affinity = (s.info.get t).affinity := by
  rw [turnedEntry]
  split_ifs <;> rfl

/-- The thread on a core has left it. -/
def unscheduled (s : Sim) (time core : ℕ) : Option ℕ → Sim
  | none => s
  | some t => s.modifyInfo t (ThreadInfo.scheduledOut (time + 1000 * core))

theorem unschedule_alike (s : Sim) (time core : ℕ) (current : Option ℕ) :
    Ensures (unschedule s time core current) (Alike (unscheduled s time core current)) fun _ => True := by
  cases current with
  | none => exact .ok (.refl s)
  | some t =>
    rw [unschedule, moveThread]
    exact (setCore_alike _ t none).mono (fun b hb => (Alike.vacate _ t).trans hb) fun _ _ => trivial

theorem unscheduled_info (s : Sim) (time core : ℕ) (current : Option ℕ) (t : ℕ) :
    (unscheduled s time core current).info.get t =
      if current = some t then (s.info.get t).scheduledOut (time + 1000 * core) else s.info.get t := by
  cases current with
  | none => rw [if_neg (Option.some_ne_none t).symm, unscheduled]
  | some r =>
    rw [unscheduled, Sim.modifyInfo, Table.get_set]
    by_cases ht : t = r
    · rw [if_pos ht, if_pos (congrArg some ht.symm), ht]
    · rw [if_neg ht, if_neg fun heq => ht (Option.some.inj heq).symm]

theorem unscheduled_same (s : Sim) (time core : ℕ) (current : Option ℕ) :
    (unscheduled s time core current).numThreads = s.numThreads ∧
      (unscheduled s time core current).coreThread = s.coreThread ∧
      (unscheduled s time core current).lastPeriodic = s.lastPeriodic ∧
      (unscheduled s time core current).runnable = s.runnable ∧
      (unscheduled s time core current).info.size = s.info.size := by
  cases current with
  | none => exact ⟨rfl, rfl, rfl, rfl, rfl⟩
  | some t => exact ⟨rfl, rfl, rfl, rfl, rfl⟩

/-- Rescheduling the core, unless the thread on it is starting up. -/
theorem reschedule_own (h : Reserved c s) :
    Ensures (reschedule cfg s time c)
      (fun b => (∃ r, s.coreThread c = some r ∧ s.status r = .initializing ∧ b = s) ∨ Turned c time s b)
      fun _ => True := by
  rw [reschedule, rescheduleDepth, rescheduleBody]
  dsimp only
  split_ifs with hinit hsize hsame
  · cases hcore : s.coreThread c with
    | none =>
      rw [hcore] at hinit
      cases hinit
    | some r =>
      rw [hcore, Option.any_some, decide_eq_true_eq] at hinit
      exact .ok (.inl ⟨r, rfl, hinit, rfl⟩)
  · exact .error trivial
  · refine .ok (.inr ⟨rfl, ?_, rfl, fun t => ?_, rfl, rfl⟩)
    · rw [← hsame, Function.update_eq_self]
      rfl
    · rw [turnedEntry, if_pos hsame.symm]
      rfl
  · refine Ensures.bind (Q := Turned c time s) ?_ fun b hb => .ok (.inr ⟨hb.numThreads, hb.coreThread, hb.lastPeriodic,
      hb.info, hb.size, hb.runnable⟩)
    rw [switchThread]
    refine (unschedule_alike ..).bind fun a ha => ?_
    obtain ⟨hnum, hcores, hlast, hrunnable, hsize'⟩ := unscheduled_same s time c (s.coreThread c)
    have hinfo (t : ℕ) := (congrArg (fun info => info.get t) ha.info).trans (unscheduled_info s time c (s.coreThread c) t)
    cases hpick : pickThread s time c with
    | none =>
      refine .ok ⟨ha.numThreads.trans hnum, ?_, ha.lastPeriodic.trans hlast, fun t => ?_,
        (congrArg Table.size ha.info).trans hsize', ha.runnable.trans hrunnable⟩
      · rw [hpick, Sim.setCoreThread, ha.coreThread, hcores]
      · rw [turnedEntry, hpick, if_neg fun heq => hsame (hpick.trans heq).symm, if_neg (Option.some_ne_none t).symm]
        exact hinfo t
    | some t =>
      rw [hpick] at hsame
      obtain ⟨haffinity, hrun, hplace⟩ := eligible_iff.1 (pickThread_eligible hpick).2
      have hown : Own c s t := ⟨(h.live t hrun).1, haffinity⟩
      have hentry : a.info.get t = s.info.get t := (hinfo t).trans (if_neg hsame)
      have hwaits : (s.info.get t).coreRunning = none :=
        hplace.resolve_right fun hc => hsame ((h.here t).1 hc)
      have hforget : forgetOldCore (a.setCoreThread c (some t)) t = a.setCoreThread c (some t) := by
        have hnone : ((a.setCoreThread c (some t)).info.get t).coreRunning = none := by
          change (a.info.get t).coreRunning = none
          rw [hentry, hwaits]
        rw [forgetOldCore, hnone]
      rw [schedule, hforget]
      refine (moveThread_own (Function.update_self ..) (fun d hd => h.alone t d hown ?_) ?_).mono (fun b hb => ?_)
        fun _ _ => trivial
      · rw [Sim.modifyInfo, Table.get_set, if_pos rfl] at hd
        change (a.info.get t).affinity d = true at hd
        rwa [hentry] at hd
      · change a.runnable.get t = true
        rw [ha.runnable, hrunnable, hrun]
      · refine ⟨hb.numThreads.trans (ha.numThreads.trans hnum), hb.coreThread.trans ?_, hb.lastPeriodic.trans
          (ha.lastPeriodic.trans hlast), fun u => ?_, (congrArg Table.size hb.info).trans
          ((congrArg Table.size ha.info).trans hsize'), hb.runnable.trans (ha.runnable.trans hrunnable)⟩
        · change Function.update a.coreThread c (some t) = _
          rw [hpick, ha.coreThread, hcores]
        · rw [hb.info, turnedEntry, hpick, if_neg (Ne.symm hsame), Sim.modifyInfo, Table.get_set]
          by_cases hu : u = t
          · rw [if_pos hu, if_pos (congrArg some hu.symm), hu]
            change (a.info.get t).scheduledIn c time = _
            rw [hentry]
          · rw [if_neg hu, if_neg fun heq => hu (Option.some.inj heq).symm]
            exact hinfo u

theorem Turned.own (ht : Turned c time s b) (t : ℕ) : Own c b t ↔ Own c s t := by
  rw [Own, Own, ht.numThreads, ht.info, turnedEntry_affinity]

/-- The thread that is picked for the core is one of its own. -/
theorem Reserved.picked_own (h : Reserved c s) (hpick : pickThread s time c = some t) : Own c s t := by
  obtain ⟨haffinity, hrun, -⟩ := eligible_iff.1 (pickThread_eligible hpick).2
  exact ⟨(h.live t hrun).1, haffinity⟩

/-- The core is still reserved for its own threads. -/
theorem Turned.reserved (ht : Turned c time s b) (h : Reserved c s) : Reserved c b := by
  have hcore : b.coreThread c = pickThread s time c := by rw [ht.coreThread, Function.update_self]
  refine ⟨fun t d hown => ?_, fun t d hown => ?_, fun t => ?_, fun t hc => ?_, fun d t hd hc => ?_, fun t hrun => ?_,
    fun t hfuture => ?_, (ht.numThreads.trans_le h.size).trans_eq ht.size.symm⟩
  · rw [ht.info, turnedEntry_affinity]
    exact h.alone t d ((ht.own t).1 hown)
  · rw [ht.info, turnedEntry]
    split_ifs
    · exact h.runs t d ((ht.own t).1 hown)
    · exact fun heq => (Option.some.inj heq).symm
    · exact fun heq => absurd heq.symm (Option.some_ne_none d)
    · exact h.runs t d ((ht.own t).1 hown)
  · rw [hcore, ht.info, turnedEntry]
    split_ifs with hsame hnew hold
    · rw [hsame]
      exact h.here t
    · exact iff_of_true rfl hnew
    · exact iff_of_false (Option.some_ne_none c).symm hnew
    · exact iff_of_false (fun hrun => hold ((h.here t).1 hrun)) hnew
  · rw [hcore] at hc
    exact (ht.own t).2 (h.picked_own hc)
  · rw [ht.coreThread, Function.update_of_ne hd] at hc
    rw [ht.own, ht.numThreads]
    exact h.away d t hd hc
  · rw [ht.runnable] at hrun ⊢
    rw [ht.numThreads]
    exact h.live t hrun
  · rw [ht.numThreads] at hfuture
    have hnew : pickThread s time c ≠ some t := fun hpick =>
      absurd (h.picked_own hpick).1 (Nat.not_lt.2 hfuture)
    have hold : s.coreThread c ≠ some t := fun hc => absurd (h.guest t hc).1 (Nat.not_lt.2 hfuture)
    rw [ht.info, turnedEntry, if_neg hnew, if_neg hold, ite_self]
    exact h.future t hfuture

end LifeSim.Sched
