import Mathlib.Data.List.Pairwise
import LifeSim.Sched.Bijection

/-!
# The change of hyper-period

When the last thread of a hyper-period exits, the threads that wait for the next one are put
on the cores of the new mapping without going through `reschedule`. The loop overwrites the
thread recorded for the core and then calls `moveThread`, so the assertion of
`Thread::setCore` is the only check that the core was empty. The loop succeeds exactly when
the cores of the waiting threads are empty and no two of them are the same.
-/

namespace LifeSim.Sched

open LifeSim.Lib

variable {cfg : Config} {s s' a b : Sim} {w : Waiting} {t u v c core time : ℕ} {clock : ℕ → ℕ}

/-- A thread that is ready to be placed: it exists, has its entries and runs nowhere. -/
structure Ready (s : Sim) (t : ℕ) : Prop where
  created : t < s.numThreads
  size : t < s.info.size
  waits : (s.info.get t).coreRunning = none
  started : s.status t = .stalled → t < s.runnable.size

/-- What placing one waiting thread does. -/
structure PlacedAt (cfg : Config) (s : Sim) (u core : ℕ) (s' : Sim) : Prop where
  linked : Linked cfg ∅ s'
  coreThread : s'.coreThread = Function.update s.coreThread core (some u)
  affinity : ∀ c, (s'.info.get u).affinity c = decide (c = core)
  other : ∀ v, v ≠ u → (s'.info.get v).affinity = (s.info.get v).affinity
  status : ∀ v, v ≠ u → s'.status v = s.status v
  numThreads : s'.numThreads = s.numThreads
  info_size : s'.info.size = s.info.size
  runnable_size : s'.runnable.size = s.runnable.size
  mapping : ∀ app rank, mappedCore s' app rank = mappedCore s app rank

/-- Placing one thread leaves the others ready. -/
theorem PlacedAt.ready (h : PlacedAt cfg s u core s') (hs : Linked cfg ∅ s) (hv : Ready s v) (hne : v ≠ u) :
    Ready s' v where
  created := by rw [h.numThreads]; exact hv.created
  size := by rw [h.info_size]; exact hv.size
  waits := by
    refine Option.eq_none_iff_forall_not_mem.2 fun c hc => ?_
    rw [Option.mem_def, ← h.linked.running, h.coreThread] at hc
    by_cases hcc : c = core
    · subst hcc
      rw [Function.update_self] at hc
      exact hne (Option.some.inj hc).symm
    · rw [Function.update_of_ne hcc, hs.running, hv.waits] at hc
      cases hc
  started hst := by
    rw [h.runnable_size]
    exact hv.started (h.status v hne ▸ hst)

/-- The states of cores and the lists of the mapping do not matter for it. -/
theorem PlacedAt.finish (h : PlacedAt cfg s u core b) (st : ℕ → State) (lists : ℕ → List ℕ) :
    PlacedAt cfg s u core { b with coreState := st, threadsOnCore := lists } :=
  ⟨h.linked.of_same rfl rfl rfl rfl rfl rfl, h.coreThread, h.affinity, h.other, h.status, h.numThreads,
    h.info_size, h.runnable_size, h.mapping⟩

/-- Reading the mapping does not change what it says. -/
theorem mappedCore_touchMap (s : Sim) (app rank app' rank' : ℕ) :
    mappedCore (touchMap s app rank) app' rank' = mappedCore s app' rank' := by
  unfold mappedCore touchMap
  by_cases happ : app' = app
  · subst happ
    by_cases hrank : rank' = rank
    · simp [hrank, mappedCore]
    · simp [hrank]
  · simp [happ]

theorem announced_affinity (cfg : Config) (time : ℕ) (s : Sim) (w : Waiting) (c : ℕ) :
    ((announced cfg time s w).info.get w.thread).affinity c = decide (c = coreOf s w) := by
  by_cases hc : c = coreOf s w <;>
    simp [announced, ThreadInfo.scheduledIn, ThreadInfo.setAffinitySingle, ThreadInfo.addAffinity,
      ThreadInfo.clearAffinity, hc]

theorem announced_info_of_ne (cfg : Config) (time : ℕ) (s : Sim) (w : Waiting) (hv : v ≠ w.thread) :
    (announced cfg time s w).info.get v = s.info.get v := by
  simp [announced, hv]

/-- The states that the resume hook can leave: the only core of the thread is marked already, so
nothing else is rescheduled. -/
theorem wakeUnscheduled_announced (cfg : Config) (time : ℕ) (hr : Ready s w.thread) :
    ∃ a, wakeUnscheduled (resumeThread cfg fun s core => reschedule cfg s time core)
        (announced cfg time s w) w.thread = .ok a ∧
      (a = announced cfg time s w ∨
        a = ((announced cfg time s w).setStatus w.thread .running).setRunnable w.thread true) := by
  unfold wakeUnscheduled
  split
  · rename_i hst
    have hlt : w.thread < s.runnable.size := hr.started hst.2.1
    have hfind : findFreeCoreForThread cfg (((announced cfg time s w).setStatus w.thread .running).setRunnable
        w.thread true) w.thread = none := by
      refine List.find?_eq_none.2 fun c _ hc => ?_
      simp only [Bool.and_eq_true, Option.isNone_iff_eq_none] at hc
      have haff := announced_affinity cfg time s w c
      have hcc : c = coreOf s w := by
        rw [show (((announced cfg time s w).setStatus w.thread .running).setRunnable w.thread true).info =
          (announced cfg time s w).info from rfl, haff] at hc
        simpa using hc.1
      have hmark : (announced cfg time s w).coreThread c = some w.thread := by
        simp [announced, hcc]
      rw [show (((announced cfg time s w).setStatus w.thread .running).setRunnable w.thread true).coreThread =
          (announced cfg time s w).coreThread from rfl, hmark] at hc
      cases hc.2
    refine ⟨_, ?_, .inr rfl⟩
    unfold resumeThread scheduleIfFree
    dsimp only
    rw [if_pos (by exact hlt), if_pos (by exact hr.size), hfind]
  · exact ⟨_, rfl, .inl rfl⟩

/-- Up to the assertion, placing a waiting thread runs through. -/
theorem placeThread_eq (time : ℕ) (h : Linked cfg ∅ s) (hr : Ready s w.thread)
    (hcore : coreOf s w < cfg.numCores) :
    ∃ a, (a = announced cfg time s w ∨
        a = ((announced cfg time s w).setStatus w.thread .running).setRunnable w.thread true) ∧
      placeThread cfg time s w = (enterCore a w.thread (coreOf s w) >>= fun b =>
        .ok (if cfg.modifiedCode then pushOnCore b (coreOf s w) w.thread else b)) := by
  obtain ⟨a, ha, hcases⟩ := wakeUnscheduled_announced cfg time hr
  have hnone : s.threadCore w.thread = none := by
    refine Option.eq_none_iff_forall_not_mem.2 fun c hc => ?_
    rw [Option.mem_def, h.thread, hr.waits] at hc
    cases hc.1
  have hvacate : vacate (announced cfg time s w) w.thread = announced cfg time s w := by
    unfold vacate
    rw [show (announced cfg time s w).threadCore w.thread = none from hnone]
  refine ⟨a, hcases, ?_⟩
  rw [placeThread, if_pos hr.size, if_pos hcore, moveThread, hvacate, ha]
  rfl

theorem setCore_status {c : Option ℕ} (h : setCore s t c = .ok b) : b.status = s.status := by
  unfold setCore letGo at h
  cases hcore : s.threadCore t <;> cases c <;> simp only [hcore] at h
  · cases h; rfl
  · split at h
    · cases h; rfl
    · cases h
  · cases h; rfl
  · split at h
    · cases h; rfl
    · cases h

/-- Placing a waiting thread on an empty core. -/
theorem placeThread_ok (time : ℕ) (h : Linked cfg ∅ s) (hr : Ready s w.thread)
    (hcore : coreOf s w < cfg.numCores)
    (hfree : s.coreThread (coreOf s w) = none) :
    ∃ s', placeThread cfg time s w = .ok s' ∧
      PlacedAt cfg s w.thread (coreOf s w) s' := by
  obtain ⟨a, hcases, heq⟩ := placeThread_eq time h hr hcore
  have hann : Linked cfg {w.thread} (announced cfg time s w) := by
    have hannounce := h.announce hfree hcore hr.waits hr.created hr.size time
    rw [← LawfulSingleton.insert_empty_eq w.thread]
    refine hannounce.of_eq rfl rfl rfl (fun u => ?_) le_rfl le_rfl hannounce.live
    by_cases hu : u = w.thread
    · simp [announced, Sim.setCoreThread, Sim.modifyInfo, ThreadInfo.scheduledIn, hu]
    · rw [announced_info_of_ne cfg time s w hu]
      simp [Sim.setCoreThread, Sim.modifyInfo, hu]
  have hlinked : Linked cfg {w.thread} a := by
    rcases hcases with rfl | rfl
    · exact hann
    · exact (hann.setStatus ..).setRunnable fun _ => hr.created
  have hmark : a.coreThread = Function.update s.coreThread (coreOf s w) (some w.thread) := by
    rcases hcases with rfl | rfl <;> rfl
  have hinfo : a.info = (announced cfg time s w).info := by rcases hcases with rfl | rfl <;> rfl
  have hnum : a.numThreads = s.numThreads := by rcases hcases with rfl | rfl <;> rfl
  have hrun : a.runnable.size = s.runnable.size := by rcases hcases with rfl | rfl <;> rfl
  have hmap : a.coreThreadMap = (touchMap s w.app w.rank).coreThreadMap := by
    rcases hcases with rfl | rfl <;> rfl
  have hstatus : ∀ v, v ≠ w.thread → a.status v = s.status v := by
    rcases hcases with rfl | rfl
    · exact fun _ _ => rfl
    · exact fun v hv => Function.update_of_ne hv ..
  -- entering the core keeps all of this, and no thread is pending afterwards
  obtain ⟨b, hset, ⟨hb, hcoreThread⟩, hframe⟩ :=
    ((hlinked.enter rfl (by rw [hmark, Function.update_self])).and
      (setCore_frame a w.thread (some (coreOf s w)))).exists_ok
  have hempty : ({w.thread} : Set ℕ) \ {w.thread} = ∅ := sdiff_self
  rw [hempty] at hb
  have hplaced : PlacedAt cfg s w.thread (coreOf s w) b := by
    refine ⟨hb, by rw [hcoreThread, hmark], fun c => ?_, fun v hv => ?_, fun v hv => ?_, ?_, ?_, ?_, ?_⟩
    · rw [hframe.affinity, hinfo, announced_affinity]
    · rw [hframe.affinity, hinfo, announced_info_of_ne cfg time s w hv]
    · rw [setCore_status hset]; exact hstatus v hv
    · rw [hframe.numThreads, hnum]
    · rw [hframe.info_size, hinfo]; rfl
    · rw [hframe.runnable, hrun]
    · intro app rank
      rw [← mappedCore_touchMap s w.app w.rank, mappedCore, mappedCore,
        show b.coreThreadMap = a.coreThreadMap from congrArg (·.coreThreadMap) hframe.fixed, hmap]
  rw [heq, enterCore, hset]
  refine ⟨_, rfl, ?_⟩
  by_cases hst : b.status w.thread = .stalled <;> cases hmod : cfg.modifiedCode <;>
    simp only [hst, if_true, if_false, Bool.false_eq_true]
  · exact hplaced
  · exact hplaced.finish b.coreState _
  · exact hplaced.finish _ b.threadsOnCore
  · exact hplaced.finish ..

/-- Placing a waiting thread on an occupied core. -/
theorem placeThread_busy (h : Linked cfg ∅ s) (hr : Ready s w.thread)
    (hcore : coreOf s w < cfg.numCores)
    (hbusy : s.coreThread (coreOf s w) ≠ none) :
    placeThread cfg time s w = .error .coreBusy := by
  obtain ⟨a, hcases, heq⟩ := placeThread_eq time h hr hcore
  have hthread : a.threadCore = s.threadCore := by rcases hcases with rfl | rfl <;> rfl
  have howner : a.coreOwner = s.coreOwner := by rcases hcases with rfl | rfl <;> rfl
  have hnone : a.threadCore w.thread = none := by
    refine Option.eq_none_iff_forall_not_mem.2 fun c hc => ?_
    rw [Option.mem_def, hthread, h.thread, hr.waits] at hc
    cases hc.1
  have hoccupied : a.coreOwner (coreOf s w) ≠ none := by
    obtain ⟨v, hv⟩ := Option.ne_none_iff_exists'.1 hbusy
    rw [howner, (h.owner _ v).2 ⟨hv, Set.notMem_empty v⟩]
    nofun
  rw [heq, enterCore, setCore, letGo, hnone]
  dsimp only
  rw [if_neg hoccupied]
  rfl

theorem PlacedAt.coreOf (h : PlacedAt cfg s u core s') (w : Waiting) : coreOf s' w = coreOf s w := h.mapping ..

/-- When all their cores are empty and different, the waiting threads are placed one after the other. -/
theorem placeAll_ok (time : ℕ) {l : List Waiting} (h : Linked cfg ∅ s) (hready : ∀ w ∈ l, Ready s w.thread)
    (hthreads : l.Pairwise fun w w' => w.thread ≠ w'.thread) (hrange : ∀ w ∈ l, coreOf s w < cfg.numCores)
    (hfree : ∀ w ∈ l, s.coreThread (coreOf s w) = none)
    (hcores : l.Pairwise fun w w' => coreOf s w ≠ coreOf s w') :
    ∃ s', l.foldlM (placeThread cfg time) s = .ok s' ∧ Linked cfg ∅ s' ∧
      (∀ w ∈ l, ∀ c, (s'.info.get w.thread).affinity c = decide (c = coreOf s w)) ∧
      ∀ v, (∀ w ∈ l, v ≠ w.thread) → (s'.info.get v).affinity = (s.info.get v).affinity := by
  induction l generalizing s with
  | nil => exact ⟨s, rfl, h, nofun, fun _ _ => rfl⟩
  | cons w l ih =>
    obtain ⟨hw, hl⟩ := List.forall_mem_cons.1 hready
    obtain ⟨hw', hl'⟩ := List.pairwise_cons.1 hthreads
    obtain ⟨hcw, hcl⟩ := List.pairwise_cons.1 hcores
    obtain ⟨hrw, hrl⟩ := List.forall_mem_cons.1 hrange
    obtain ⟨hfw, hfl⟩ := List.forall_mem_cons.1 hfree
    obtain ⟨a, hplace, ha⟩ := placeThread_ok time h hw hrw hfw
    obtain ⟨b, hrest, hb, haff, hother⟩ := ih ha.linked
      (fun x hx => ha.ready h (hl x hx) (hw' x hx).symm) hl'
      (fun x hx => by rw [ha.coreOf]; exact hrl x hx)
      (fun x hx => by
        rw [ha.coreOf, ha.coreThread, Function.update_of_ne (hcw x hx).symm]
        exact hfl x hx)
      (hcl.imp fun {x y} hxy => by rwa [ha.coreOf, ha.coreOf])
    refine ⟨b, by rw [List.foldlM_cons, hplace]; exact hrest, hb, ?_, fun v hv => ?_⟩
    · refine List.forall_mem_cons.2 ⟨fun c => ?_, fun x hx c => ?_⟩
      · rw [hother _ hw', ha.affinity]
      · rw [haff x hx, ha.coreOf]
    · obtain ⟨hv, hvl⟩ := List.forall_mem_cons.1 hv
      rw [hother v hvl, ha.other v hv]

/-- If all waiting threads could be placed, their cores were empty and different. -/
theorem placeAll_separate {l : List Waiting} (h : Linked cfg ∅ s) (hready : ∀ w ∈ l, Ready s w.thread)
    (hthreads : l.Pairwise fun w w' => w.thread ≠ w'.thread)
    (hok : l.foldlM (placeThread cfg time) s = .ok s') :
    (∀ w ∈ l, coreOf s w < cfg.numCores ∧ s.coreThread (coreOf s w) = none) ∧
      l.Pairwise fun w w' => coreOf s w ≠ coreOf s w' := by
  induction l generalizing s with
  | nil => exact ⟨nofun, .nil⟩
  | cons w l ih =>
    obtain ⟨hw, hl⟩ := List.forall_mem_cons.1 hready
    obtain ⟨hw', hl'⟩ := List.pairwise_cons.1 hthreads
    have hrange : coreOf s w < cfg.numCores := by
      by_contra hout
      have hindex : placeThread cfg time s w = .error .index := by
        rw [placeThread, if_pos hw.size, if_neg hout]
      rw [List.foldlM_cons, hindex] at hok
      cases hok
    have hfree : s.coreThread (coreOf s w) = none := by
      by_contra hbusy
      rw [List.foldlM_cons, placeThread_busy h hw hrange hbusy] at hok
      cases hok
    obtain ⟨a, hplace, ha⟩ := placeThread_ok time h hw hrange hfree
    rw [List.foldlM_cons, hplace] at hok
    obtain ⟨hrest, hcores⟩ := ih ha.linked (fun x hx => ha.ready h (hl x hx) (hw' x hx).symm) hl' hok
    have hsep : ∀ x ∈ l, coreOf s x ≠ coreOf s w ∧ s.coreThread (coreOf s x) = none := by
      intro x hx
      have hx' := (hrest x hx).2
      rw [ha.coreOf, ha.coreThread] at hx'
      have hne : coreOf s x ≠ coreOf s w := by
        intro heq
        rw [heq, Function.update_self] at hx'
        cases hx'
      exact ⟨hne, by rwa [Function.update_of_ne hne] at hx'⟩
    refine ⟨List.forall_mem_cons.2 ⟨⟨hrange, hfree⟩, fun x hx => ⟨?_, (hsep x hx).2⟩⟩,
      List.pairwise_cons.2 ⟨fun x hx => (hsep x hx).1.symm, ?_⟩⟩
    · rw [← ha.coreOf]; exact (hrest x hx).1
    · exact hcores.imp fun {x y} hxy => by rwa [ha.coreOf, ha.coreOf] at hxy

/-- The core that a mapping file gives a waiting thread: the first line with its application and rank. -/
def fileCore (offset : ℕ) (file : List (ℕ × ℕ × ℕ)) (app rank : ℕ) : Option ℕ :=
  (file.find? fun line => line.2.1 + offset = app && line.2.2 = rank).map (·.1)

/-- The file fills the places of the mapping that are empty. -/
theorem insertLines_eq (offset : ℕ) (map : ℕ → ℕ → Option ℕ) (file : List (ℕ × ℕ × ℕ)) (app rank : ℕ) :
    insertLines offset map file app rank = (map app rank).or (fileCore offset file app rank) := by
  induction file generalizing map with
  | nil => simp [insertLines, fileCore]
  | cons line file ih =>
    have hstep : insertLines offset map (line :: file) = insertLines offset
        (if map (line.2.1 + offset) line.2.2 = none then
          Function.update map (line.2.1 + offset)
            (Function.update (map (line.2.1 + offset)) line.2.2 (some line.1)) else map) file := rfl
    rw [hstep, ih]
    by_cases hkey : line.2.1 + offset = app ∧ line.2.2 = rank
    · obtain ⟨rfl, rfl⟩ := hkey
      cases hmap : map (line.2.1 + offset) line.2.2 <;> simp [fileCore, hmap]
    · have hfile : fileCore offset (line :: file) app rank = fileCore offset file app rank := by
        unfold fileCore
        rw [List.find?_cons_of_neg (by simpa using hkey)]
      rw [hfile]
      split
      · congr 1
        by_cases happ : app = line.2.1 + offset
        · subst happ
          rw [Function.update_self, Function.update_of_ne fun hr => hkey ⟨rfl, hr.symm⟩]
        · rw [Function.update_of_ne happ]
      · rfl

/-- The last thread of the current hyper-period exits: `threadExit` finds the hyper-period over, no
other thread is queued for a core, and the threads of the next hyper-period wait. -/
structure LastExit (cfg : Config) (s : Sim) (t : ℕ) : Prop where
  policy : cfg.policy = .pinned
  periodic : cfg.periodicWorkload = true
  leaving : Leaving cfg t s
  ends : hyperPeriodEnds cfg { s with numThreadsExited := s.numThreadsExited + 1 } = true
  tables : s.runnable.size ≤ s.info.size
  queue : ∀ u, s.runnable.get u = true → (s.info.get u).coreRunning = none →
    ∀ c < cfg.numCores, (s.info.get u).affinity c = false
  ready : ∀ w ∈ waitingThreads cfg (s.hyperPeriodNumber + 1) s, Ready s w.thread
  threads : (waitingThreads cfg (s.hyperPeriodNumber + 1) s).Pairwise fun w w' => w.thread ≠ w'.thread

/-- Nobody is queued for the core of the leaving thread, so it becomes empty. -/
theorem leaveCore_last (time : ℕ) (h : LastExit cfg s t) :
    ∃ a, leaveCore cfg time s t = .ok a ∧ Linked cfg ∅ a ∧ Frame s a ∧
      ∀ c, a.coreThread c = if s.coreThread c = some t then none else s.coreThread c := by
  obtain ⟨core, hrun⟩ := Option.ne_none_iff_exists'.1 (h.leaving.linked.pending t rfl)
  obtain ⟨hct, hcore⟩ := h.leaving.linked.coreThread_of_running hrun
  have hsize : t < s.info.size := (h.leaving.linked.bound core t hct).2.2
  have hpick : pickThread s time core = none := by
    refine Option.eq_none_iff_forall_not_mem.2 fun u hu => ?_
    obtain ⟨haff, hrunnable, hwaits⟩ := eligible_iff.1 (pickThread_eligible hu).2
    rcases hwaits with hnone | hhere
    · rw [h.queue u hrunnable hnone core hcore] at haff
      cases haff
    · rw [← h.leaving.linked.running, hct] at hhere
      rw [← Option.some.inj hhere, h.leaving.stopped] at hrunnable
      cases hrunnable
  obtain ⟨a, ha, hlinked, hsame⟩ := (unschedule_linked h.leaving.linked time core).exists_ok
  have heq : leaveCore cfg time s t = .ok ((a.setCoreThread core none).setQuantum core cfg.quantum) := by
    rw [hct] at ha
    have hstarted : ¬ ((s.coreThread core).any fun u => s.status u = .initializing) = true := by
      simpa [hct] using h.leaving.started
    rw [leaveCore, if_pos hsize, hrun]
    dsimp only
    rw [reschedule, rescheduleDepth, rescheduleBody]
    dsimp only
    rw [if_neg hstarted, if_neg (Nat.not_lt.2 h.tables), hpick, hct, if_neg (by simp), switchThread, ha]
    rfl
  refine ⟨_, heq, (leaveCore_leaving time h.leaving).of_ok heq, ?_, fun c => ?_⟩
  · refine ((unschedule_frame s time core _).of_ok ha).trans ?_
    exact (frame_setCoreThread ..).trans (frame_setQuantum ..)
  · have hshow : ((a.setCoreThread core none).setQuantum core cfg.quantum).coreThread c =
        Function.update s.coreThread core none c := by
      simp only [Sim.setQuantum, Sim.setCoreThread, hsame]
    rw [hshow]
    by_cases hc : c = core
    · simp [hc, hct]
    · rw [Function.update_of_ne hc, if_neg]
      exact fun hcu => hc (h.leaving.linked.core_unique hcu hct)

/-- The scheduler's part of the last exit, up to the loop that places the waiting threads. -/
theorem threadExit_last (clock : ℕ → ℕ) (time : ℕ) (h : LastExit cfg s t) (file : List (ℕ × ℕ × ℕ)) :
    ∃ a, Linked cfg ∅ a ∧
      (∀ c, a.coreThread c = if s.coreThread c = some t then none else s.coreThread c) ∧
      (∀ w ∈ waitingThreads cfg (s.hyperPeriodNumber + 1) s, Ready a w.thread) ∧
      (∀ w, coreOf a w = ((s.coreThreadMap w.app w.rank).or
        (fileCore ((s.hyperPeriodNumber + 1) * cfg.numAppPerHyperPeriod) file w.app w.rank)).getD 0) ∧
      threadExit cfg clock time s t file =
        (waitingThreads cfg (s.hyperPeriodNumber + 1) s).foldlM (placeThread cfg time) a := by
  obtain ⟨b, hleave, hb, hframe, hcores⟩ := leaveCore_last time h
  have hexited : b.numThreadsExited = s.numThreadsExited := congrArg (·.numThreadsExited) hframe.fixed
  have hnumber : b.hyperPeriodNumber = s.hyperPeriodNumber := congrArg (·.hyperPeriodNumber) hframe.fixed
  have hmap : b.coreThreadMap = s.coreThreadMap := congrArg (·.coreThreadMap) hframe.fixed
  have happs : b.threadsOfApp = s.threadsOfApp := congrArg (·.threadsOfApp) hframe.fixed
  refine ⟨{ b with
      numThreadsExited := 0
      hyperPeriodNumber := s.hyperPeriodNumber + 1
      coreThreadMap := insertLines ((s.hyperPeriodNumber + 1) * cfg.numAppPerHyperPeriod) b.coreThreadMap file
      threadsOnCore := if cfg.modifiedCode then fun _ => [] else b.threadsOnCore },
    hb.of_same rfl rfl rfl rfl rfl rfl, hcores, fun w hw => ?_, fun w => ?_, ?_⟩
  · have hr := h.ready w hw
    have hready : Ready b w.thread := by
      refine ⟨?_, ?_, ?_, fun hst => ?_⟩
      · rw [hframe.numThreads]; exact hr.created
      · rw [hframe.info_size]; exact hr.size
      · refine Option.eq_none_iff_forall_not_mem.2 fun c hc => ?_
        rw [Option.mem_def, ← hb.running, hcores] at hc
        split at hc
        · cases hc
        · rw [h.leaving.linked.running, hr.waits] at hc
          cases hc
      · rw [hframe.runnable]
        rcases hframe.status w.thread with hsame | ⟨hrunning, -, -⟩
        · exact hr.started (hsame ▸ hst)
        · rw [hrunning] at hst; cases hst
    exact ⟨hready.created, hready.size, hready.waits, hready.started⟩
  · rw [← insertLines_eq, ← hmap]
    rfl
  · have hends : hyperPeriodEnds cfg { b with numThreadsExited := b.numThreadsExited + 1 } = true := by
      have := h.ends
      unfold hyperPeriodEnds at this ⊢
      simpa only [hexited, hnumber] using this
    have hbig : replaceBigThread cfg clock s t = .ok s := if_neg fun hp => by
      rw [h.policy] at hp; cases hp.1
    have hcount : countExit cfg time b file =
        nextHyperPeriod cfg time { b with numThreadsExited := b.numThreadsExited + 1 } file := by
      rw [countExit, if_pos h.periodic]
      exact if_pos hends
    rw [threadExit, hbig, ok_bind, hleave, ok_bind, hcount, nextHyperPeriod]
    dsimp only
    rw [hnumber]
    exact congrArg (List.foldlM (placeThread cfg time) _) (waitingThreads_congr happs)

/-- The core the file gives a waiting thread of the next hyper-period. -/
def target (cfg : Config) (s : Sim) (file : List (ℕ × ℕ × ℕ)) (w : Waiting) : ℕ :=
  (fileCore ((s.hyperPeriodNumber + 1) * cfg.numAppPerHyperPeriod) file w.app w.rank).getD 0

/-- The file gives every waiting thread of the next hyper-period a core that exists. -/
def CoversWaiting (cfg : Config) (s : Sim) (file : List (ℕ × ℕ × ℕ)) : Prop :=
  ∀ w ∈ waitingThreads cfg (s.hyperPeriodNumber + 1) s, ∃ core, core < cfg.numCores ∧
    fileCore ((s.hyperPeriodNumber + 1) * cfg.numAppPerHyperPeriod) file w.app w.rank = some core

/-- The transition works: the waiting threads are pinned to the cores of the file, the records of the
scheduler agree, and of two threads that share a core one waits. -/
def Remaps (cfg : Config) (clock : ℕ → ℕ) (time : ℕ) (s : Sim) (t : ℕ) (file : List (ℕ × ℕ × ℕ)) : Prop :=
  ∃ s', threadExit cfg clock time s t file = .ok s' ∧
    (∀ w ∈ waitingThreads cfg (s.hyperPeriodNumber + 1) s, ∀ c,
      (s'.info.get w.thread).affinity c = decide (c = target cfg s file w)) ∧
    (∀ c u, s'.coreThread c = some u ↔ (s'.info.get u).coreRunning = some c) ∧
    ∀ w ∈ waitingThreads cfg (s.hyperPeriodNumber + 1) s, ∀ w' ∈ waitingThreads cfg (s.hyperPeriodNumber + 1) s,
      w.thread ≠ w'.thread → target cfg s file w = target cfg s file w' →
      (s'.info.get w.thread).coreRunning = none ∨ (s'.info.get w'.thread).coreRunning = none

/-- The new cores are empty or about to be, no two threads share one, and `core_thread_map` holds no
other core for these threads. -/
structure Separate (cfg : Config) (s : Sim) (t : ℕ) (file : List (ℕ × ℕ × ℕ)) : Prop where
  mapping : ∀ w ∈ waitingThreads cfg (s.hyperPeriodNumber + 1) s,
    s.coreThreadMap w.app w.rank = none ∨ s.coreThreadMap w.app w.rank = some (target cfg s file w)
  distinct : (waitingThreads cfg (s.hyperPeriodNumber + 1) s).Pairwise
    fun w w' => target cfg s file w ≠ target cfg s file w'
  empty : ∀ w ∈ waitingThreads cfg (s.hyperPeriodNumber + 1) s,
    s.coreThread (target cfg s file w) = none ∨ s.coreThread (target cfg s file w) = some t

/-- The change of hyper-period does what it should exactly when the mapping gives the waiting
threads different cores, all of them empty once the exiting thread is gone. -/
theorem hyperPeriod_remaps_iff (cfg : Config) (clock : ℕ → ℕ) (time : ℕ) (s : Sim) (t : ℕ)
    (file : List (ℕ × ℕ × ℕ)) (hlast : LastExit cfg s t) (hfile : CoversWaiting cfg s file) :
    Remaps cfg clock time s t file ↔ Separate cfg s t file := by
  obtain ⟨a, ha, hcores, hready, hcoreOf, hexit⟩ := threadExit_last clock time hlast file
  -- the core a thread is put on is the file's, unless the mapping holds another one already
  have htarget : ∀ w ∈ waitingThreads cfg (s.hyperPeriodNumber + 1) s,
      (s.coreThreadMap w.app w.rank = none ∨ s.coreThreadMap w.app w.rank = some (target cfg s file w)) ↔
      coreOf a w = target cfg s file w := by
    intro w hw
    obtain ⟨core, -, hcore⟩ := hfile w hw
    rw [hcoreOf, target, hcore]
    cases s.coreThreadMap w.app w.rank <;> simp
  have hempty : ∀ c, a.coreThread c = none ↔ s.coreThread c = none ∨ s.coreThread c = some t := by
    intro c
    rw [hcores]
    split
    · rename_i hc; simp [hc]
    · rename_i hc; simp [hc]
  constructor
  · rintro ⟨s', hok, haff, -, -⟩
    rw [hexit] at hok
    obtain ⟨hsep, hdistinct⟩ := placeAll_separate ha hready hlast.threads hok
    obtain ⟨b, hb, -, hplaced, -⟩ := placeAll_ok time ha hready hlast.threads
      (fun w hw => (hsep w hw).1) (fun w hw => (hsep w hw).2) hdistinct
    obtain rfl : s' = b := Except.ok.inj (hok.symm.trans hb)
    have hsame : ∀ w ∈ waitingThreads cfg (s.hyperPeriodNumber + 1) s, coreOf a w = target cfg s file w := by
      intro w hw
      have h1 := haff w hw (coreOf a w)
      rw [hplaced w hw] at h1
      simpa using h1.symm
    refine ⟨fun w hw => (htarget w hw).2 (hsame w hw), ?_, fun w hw => ?_⟩
    · refine hdistinct.imp_of_mem fun {w w'} hw hw' hne => ?_
      rwa [hsame w hw, hsame w' hw'] at hne
    · rw [← hempty, ← hsame w hw]
      exact (hsep w hw).2
  · rintro ⟨hmapping, hdistinct, hfree⟩
    have hsame : ∀ w ∈ waitingThreads cfg (s.hyperPeriodNumber + 1) s, coreOf a w = target cfg s file w :=
      fun w hw => (htarget w hw).1 (hmapping w hw)
    obtain ⟨b, hb, hlinked, hplaced, -⟩ := placeAll_ok time ha hready hlast.threads
      (fun w hw => by
        obtain ⟨core, hlt, hcore⟩ := hfile w hw
        rw [hsame w hw, target, hcore]
        exact hlt)
      (fun w hw => by rw [hsame w hw, hempty]; exact hfree w hw)
      (hdistinct.imp_of_mem fun {w w'} hw hw' hne => by rwa [hsame w hw, hsame w' hw'])
    refine ⟨b, hexit.trans hb, fun w hw c => ?_, hlinked.running, fun w hw w' hw' hne heq => ?_⟩
    · rw [hplaced w hw, hsame w hw]
    · -- the targets differ, so no two waiting threads share a core
      exfalso
      have : Std.Symm fun x y => target cfg s file x ≠ target cfg s file y := ⟨fun _ _ h => h.symm⟩
      exact hdistinct.forall hw hw' (fun h => hne (h ▸ rfl)) heq

/-- Four cores and two applications, one for each of two hyper-periods. -/
def twoPeriods : Config :=
  { twoCores with
    numCores := 4
    modifiedCode := true
    periodicWorkload := true
    numApps := 2 }

/-- The thread of the first application runs, the two threads of the second one wait. -/
def waitingRun : List Call :=
  [(Event.create 0).at 0, (Event.start 0).at 0, (Event.create 1).at 0, (Event.start 1).at 0,
    (Event.create 1).at 0, (Event.start 2).at 0]

/-- The state in which the scheduler is told that the thread of the first application exits. -/
def exiting : Sim :=
  let s := (machine twoPeriods).final (initial fun _ _ => none) waitingRun
  match beginExit twoPeriods 10 s 0 0 [] with
  | .ok a => a
  | .error _ => s

theorem exiting_lastExit : LastExit twoPeriods exiting 0 := by
  have hrun : (machine twoPeriods).run (initial fun _ _ => none) waitingRun = .ok _ :=
    (machine twoPeriods).run_final (by decide +kernel)
  have hlinked := linked_of_run (by decide) (initial_linked twoPeriods _) hrun
  have hleaving : Leaving twoPeriods 0 exiting := by
    have hcore : ((machine twoPeriods).final (initial fun _ _ => none) waitingRun).threadCore 0 = some 0 := by
      decide +kernel
    have hbegin := beginExit_leaving 10 hlinked hcore []
    unfold exiting
    dsimp only
    split
    · rename_i heq; exact hbegin.of_ok heq
    · rename_i heq
      have hok : faultOf (beginExit twoPeriods 10
        ((machine twoPeriods).final (initial fun _ _ => none) waitingRun) 0 0 []) = none := by decide +kernel
      rw [heq] at hok
      cases hok
  have hnum : exiting.numThreads = 3 := by decide +kernel
  have hwaiting : waitingThreads twoPeriods (exiting.hyperPeriodNumber + 1) exiting =
      [⟨1, 0, 1⟩, ⟨1, 1, 2⟩] := by decide +kernel
  refine ⟨rfl, rfl, hleaving, by decide +kernel, by decide +kernel, fun u hu => ?_, ?_, ?_⟩
  · have hlt := hleaving.linked.live u hu
    rw [hnum] at hlt
    have hall : ∀ u < 3, (exiting.info.get u).coreRunning = none → ∀ c < 4,
      (exiting.info.get u).affinity c = false := by decide +kernel
    exact hall u hlt
  · rw [hwaiting]
    refine List.forall_mem_cons.2 ⟨?_, List.forall_mem_cons.2 ⟨?_, nofun⟩⟩
    · exact ⟨by decide +kernel, by decide +kernel, by decide +kernel, fun _ => by decide +kernel⟩
    · exact ⟨by decide +kernel, by decide +kernel, by decide +kernel, fun _ => by decide +kernel⟩
  · rw [hwaiting]
    decide

/-- A mapping that gives the two waiting threads different cores. -/
theorem hyperPeriod_remaps_apart :
    Remaps twoPeriods (fun _ => 10) 10 exiting 0 [(1, 0, 0), (2, 0, 1)] := by
  have hwaiting : waitingThreads twoPeriods (exiting.hyperPeriodNumber + 1) exiting =
      [⟨1, 0, 1⟩, ⟨1, 1, 2⟩] := by decide +kernel
  refine (hyperPeriod_remaps_iff twoPeriods _ 10 exiting 0 _ exiting_lastExit ?_).2 ⟨?_, ?_, ?_⟩
  · unfold CoversWaiting
    rw [hwaiting]
    exact List.forall_mem_cons.2 ⟨⟨1, by decide +kernel⟩, List.forall_mem_cons.2 ⟨⟨2, by decide +kernel⟩, nofun⟩⟩
  · rw [hwaiting]; decide +kernel
  · rw [hwaiting]; decide +kernel
  · rw [hwaiting]; decide +kernel

/-- A mapping that gives both waiting threads the same core, as the round-robin generator does when
there are more threads than cores: the second move stops at the assertion of `Thread::setCore`. -/
theorem hyperPeriod_sharedCore :
    LastExit twoPeriods exiting 0 ∧ CoversWaiting twoPeriods exiting [(1, 0, 0), (1, 0, 1)] ∧
      threadExit twoPeriods (fun _ => 10) 10 exiting 0 [(1, 0, 0), (1, 0, 1)] = .error .coreBusy ∧
      ¬ Remaps twoPeriods (fun _ => 10) 10 exiting 0 [(1, 0, 0), (1, 0, 1)] := by
  have hwaiting : waitingThreads twoPeriods (exiting.hyperPeriodNumber + 1) exiting =
      [⟨1, 0, 1⟩, ⟨1, 1, 2⟩] := by decide +kernel
  have hbusy : threadExit twoPeriods (fun _ => 10) 10 exiting 0 [(1, 0, 0), (1, 0, 1)] = .error .coreBusy :=
    faultOf_eq_some.1 (by decide +kernel)
  refine ⟨exiting_lastExit, ?_, hbusy, ?_⟩
  · unfold CoversWaiting
    rw [hwaiting]
    exact List.forall_mem_cons.2 ⟨⟨1, by decide +kernel⟩, List.forall_mem_cons.2 ⟨⟨1, by decide +kernel⟩, nofun⟩⟩
  · rintro ⟨s', hok, -⟩
    rw [hbusy] at hok
    cases hok

end LifeSim.Sched
