import LifeSim.Lib.Modify
import LifeSim.Trace.Manager

/-!
# Runs are counted once

The numbers of threads and of unfinished applications are right in every run. The number of completed runs
is right as long as the last thread of an application is not counted out as an aborted one:
only `signalDone` with `aborted = false` completes a run. Two threads that handle `exit_group` in one application
at the same time abort each other, and then the run is never completed and the simulation does not stop. The loop of
`endApplication` goes on safely only while no thread is made, since its iterator is not protected by the lock.
-/

namespace LifeSim.Trace

open LifeSim.Lib

/-! ### What is counted -/

/-- The counters mean what their comments say. -/
structure Counts (s : Manager) : Prop where
  app : ∀ th ∈ s.threads, th.app < s.apps.length
  numThreads : ∀ a < s.apps.length, (s.info a).numThreads = s.threads.countP (TraceThread.counted a)
  nonfinish : s.numAppsNonfinish = s.apps.countP fun i => i.numRuns == 0

/-- A started run is completed exactly when no thread of it is left. -/
def Runs (s : Manager) : Prop :=
  ∀ a < s.apps.length, (s.info a).runsStarted = (s.info a).numRuns + if (s.info a).numThreads = 0 then 0 else 1

/-- `stop` has been called when the condition for it is met. -/
structure Stops (cfg : Config) (s : Manager) : Prop where
  first : cfg.stopWithFirstApp = true → ∀ a < s.apps.length, 0 < (s.info a).numRuns → s.stopCalled = true
  all : cfg.stopWithFirstApp = false → s.apps ≠ [] → (∀ a < s.apps.length, 0 < (s.info a).numRuns) →
    s.stopCalled = true

namespace Manager

variable {s : Manager} {cfg : Config}

/-- Reading an application after one was changed. -/
theorem info_modify {f : AppInfo → AppInfo} {app a : ℕ} (ha : a < s.apps.length) :
    ({ s with apps := s.apps.modify app f } : Manager).info a = if a = app then f (s.info a) else s.info a :=
  getD_modify ha

/-- The members of `apps` are what `info` reads. -/
theorem getElem?_apps {a : ℕ} (ha : a < s.apps.length) : s.apps[a]? = some (s.info a) := by
  rw [info, List.getD_eq_getElem?_getD, List.getElem?_eq_getElem ha, Option.getD_some]

variable {app a : ℕ} {first : Bool}

@[simp] theorem length_newThread : (s.newThread app first).apps.length = s.apps.length := List.length_modify ..

/-- The application of a new thread. -/
theorem info_newThread (ha : a < s.apps.length) :
    (s.newThread app first).info a = if a = app then
      (if first then { s.info a with numThreads := 1, threadCount := 1, runsStarted := (s.info a).runsStarted + 1 }
      else { s.info a with numThreads := (s.info a).numThreads + 1, threadCount := (s.info a).threadCount + 1 })
      else s.info a :=
  getD_modify ha

/-- A new thread is counted. -/
theorem countP_newThread : (s.newThread app first).threads.countP (TraceThread.counted a)
    = s.threads.countP (TraceThread.counted a) + if app = a then 1 else 0 := by
  simp [newThread, TraceThread.counted]

@[simp] theorem length_countOut {u : ℕ} : (s.countOut u app).apps.length = s.apps.length := List.length_modify ..

/-- The application of a thread that was counted out. -/
theorem info_countOut {u : ℕ} (ha : a < s.apps.length) : (s.countOut u app).info a =
    if a = app then { s.info a with numThreads := (s.info a).numThreads - 1 } else s.info a :=
  getD_modify ha

/-- A thread that is counted out is no longer counted. -/
theorem countP_countOut (app a : ℕ) {u : ℕ} {th : TraceThread} (hu : s.threads[u]? = some th)
    (hstopped : th.stopped = false) :
    (s.countOut u app).threads.countP (TraceThread.counted a) + (if th.app = a then 1 else 0)
      = s.threads.countP (TraceThread.counted a) := by
  have hmodify := countP_modify (f := fun th => { th with stopped := true }) (p := TraceThread.counted a) hu
  simpa [Manager.countOut, TraceThread.counted, hstopped] using hmodify

@[simp] theorem length_completeRun : (s.completeRun app).apps.length = s.apps.length := by
  unfold completeRun
  dsimp only
  split <;> exact List.length_modify ..

@[simp] theorem threads_completeRun : (s.completeRun app).threads = s.threads := by
  unfold completeRun
  dsimp only
  split <;> rfl

/-- The application whose run is counted. -/
theorem info_completeRun (ha : a < s.apps.length) : (s.completeRun app).info a =
    if a = app then { s.info a with numRuns := (s.info a).numRuns + 1 } else s.info a := by
  unfold completeRun
  dsimp only
  split <;> exact getD_modify ha

end Manager

open Manager

/-! ### The parts of a step keep the counters right -/

section Parts

variable {s : Manager} {cfg : Config}

/-- A change of threads that neither moves them nor counts them. -/
theorem Counts.threads (h : Counts s) {threads : List TraceThread} (running : ℕ) (called : Bool)
    (hmem : ∀ th ∈ threads, th.app < s.apps.length)
    (hcount : ∀ a, threads.countP (TraceThread.counted a) = s.threads.countP (TraceThread.counted a)) :
    Counts { s with threads := threads, numThreadsRunning := running, stopCalled := called } where
  app := hmem
  numThreads a ha := by rw [hcount]; exact h.numThreads a ha
  nonfinish := h.nonfinish

theorem Counts.setPhase (h : Counts s) (t : ℕ) (p : Phase) : Counts (s.setPhase t p) :=
  h.threads _ _ (forall_mem_modify (fun _ hb => hb) h.app) fun _ => countP_modify_of_eq fun _ => rfl

theorem Counts.askStop (h : Counts s) (u : ℕ) : Counts (s.askStop u) :=
  h.threads _ _ (forall_mem_modify (fun _ hb => hb) h.app) fun _ => countP_modify_of_eq fun _ => rfl

theorem Counts.stop (h : Counts s) : Counts s.stop := by
  refine h.threads _ _ (fun th hth => ?_) fun a => ?_
  · obtain ⟨b, hb, rfl⟩ := List.mem_map.1 hth
    exact h.app b hb
  · rw [List.countP_map]
    rfl

/-- A new thread is counted with its application; a first one starts the count again. -/
theorem counts_newThread {a : ℕ} {first : Bool} (ha : a < s.apps.length)
    (happ : ∀ th ∈ s.threads, th.app < s.apps.length)
    (hself : (if first then 0 else (s.info a).numThreads) = s.threads.countP (TraceThread.counted a))
    (hother : ∀ b < s.apps.length, b ≠ a → (s.info b).numThreads = s.threads.countP (TraceThread.counted b))
    (hnonfinish : s.numAppsNonfinish = s.apps.countP fun i => i.numRuns == 0) : Counts (s.newThread a first) where
  app th hth := by
    rw [length_newThread]
    cases List.mem_append.1 hth with
    | inl hmem => exact happ th hmem
    | inr hnew => rw [List.mem_singleton.1 hnew]; exact ha
  numThreads b hb := by
    rw [length_newThread] at hb
    rw [info_newThread hb, countP_newThread]
    by_cases hba : b = a
    · subst hba
      rw [if_pos rfl, if_pos rfl, ← hself]
      cases first <;> rfl
    · rw [if_neg hba, if_neg (Ne.symm hba), hother b hb hba, Nat.add_zero]
  nonfinish := by
    have hsame : (s.newThread a first).apps.countP (fun i => i.numRuns == 0)
        = s.apps.countP fun i => i.numRuns == 0 :=
      countP_modify_of_eq fun i => by cases first <;> rfl
    rw [hsame]
    exact hnonfinish

/-- `createThread`. -/
theorem Counts.createThread (h : Counts s) {a : ℕ} (ha : a < s.apps.length) : Counts (s.newThread a false) :=
  counts_newThread ha h.app (h.numThreads a ha) (fun b hb _ => h.numThreads b hb) h.nonfinish

/-- A run is started again when no thread of the application is left. -/
theorem Counts.restart (h : Counts s) {a : ℕ} (ha : a < s.apps.length) (hzero : (s.info a).numThreads = 0) :
    Counts (s.newThread a true) :=
  counts_newThread ha h.app (hzero.symm.trans (h.numThreads a ha)) (fun b hb _ => h.numThreads b hb) h.nonfinish

/-- `createApplication`: no thread belongs to an application that did not exist. -/
theorem Counts.createApplication (h : Counts s) : Counts s.createApplication := by
  have hnone : s.threads.countP (TraceThread.counted s.apps.length) = 0 := by
    rw [List.countP_eq_zero]
    intro th hth hcounted
    simp only [TraceThread.counted, Bool.and_eq_true, beq_iff_eq] at hcounted
    exact absurd hcounted.1 (Nat.ne_of_lt (h.app th hth))
  refine counts_newThread (by simp) (fun th hth => ?_) hnone.symm (fun b hb hne => ?_) ?_
  · have hlt := h.app th hth
    simp only [List.length_append, List.length_singleton]
    omega
  · simp only [List.length_append, List.length_singleton] at hb
    have hlt : b < s.apps.length := by omega
    rw [← h.numThreads b hlt]
    simp [info, hlt, List.getElem?_append_left]
  · simp [h.nonfinish]

/-- A thread that is not stopped is counted out. -/
theorem Counts.countOut (h : Counts s) {u : ℕ} {th : TraceThread} (hu : s.threads[u]? = some th)
    (hstopped : th.stopped = false) : Counts (s.countOut u th.app) where
  app := by
    rw [length_countOut]
    exact forall_mem_modify (fun _ hb => hb) h.app
  numThreads b hb := by
    rw [length_countOut] at hb
    have hout := countP_countOut th.app b hu hstopped
    have hcount := h.numThreads b hb
    rw [info_countOut hb]
    by_cases hba : b = th.app
    · rw [if_pos hba.symm] at hout
      rw [if_pos hba]
      change (s.info b).numThreads - 1 = _
      omega
    · rw [if_neg (Ne.symm hba)] at hout
      rw [if_neg hba]
      omega
  nonfinish := by
    have hsame : (s.countOut u th.app).apps.countP (fun i => i.numRuns == 0)
        = s.apps.countP fun i => i.numRuns == 0 :=
      countP_modify_of_eq fun i => rfl
    rw [hsame]
    exact h.nonfinish

/-- The first completed run of an application finishes it. -/
theorem nonfinish_completeRun (h : Counts s) {a : ℕ} (ha : a < s.apps.length) :
    (s.completeRun a).numAppsNonfinish = (s.completeRun a).apps.countP fun i => i.numRuns == 0 := by
  have hmodify := countP_modify (f := fun i : AppInfo => { i with numRuns := i.numRuns + 1 })
    (p := fun i => i.numRuns == 0) (getElem?_apps ha)
  have hold := h.nonfinish
  have hruns : (({ s with apps := s.apps.modify a fun i => { i with numRuns := i.numRuns + 1 } } : Manager).info
      a).numRuns = (s.info a).numRuns + 1 := by
    rw [info_modify ha, if_pos rfl]
  simp only [Manager.completeRun, hruns]
  by_cases hzero : (s.info a).numRuns = 0
  · simp only [hzero] at hmodify ⊢
    simp at hmodify ⊢
    omega
  · simp [hzero] at hmodify ⊢
    omega

/-- Counting a run leaves the threads alone. -/
theorem Counts.completeRun (h : Counts s) {a : ℕ} (ha : a < s.apps.length) : Counts (s.completeRun a) where
  app := by
    rw [threads_completeRun, length_completeRun]
    exact h.app
  numThreads b hb := by
    rw [length_completeRun] at hb
    rw [info_completeRun hb, threads_completeRun, ← h.numThreads b hb]
    split <;> rfl
  nonfinish := nonfinish_completeRun h ha

/-- The end of a run: stop, start again, or nothing. -/
theorem Counts.endRun (h : Counts s) (cfg : Config) {a : ℕ} (ha : a < s.apps.length) (hzero : (s.info a).numThreads = 0) :
    Counts (s.endRun cfg a) := by
  have hdone := h.completeRun ha
  have hnone : ((s.completeRun a).info a).numThreads = 0 := by
    rw [info_completeRun ha, if_pos rfl]
    exact hzero
  unfold Manager.endRun
  dsimp only
  split
  · exact hdone.stop
  split
  · exact hdone.stop
  split
  · exact hdone.restart (by rw [length_completeRun]; exact ha) hnone
  · exact hdone

/-- `signalDone`. -/
theorem Counts.signalDone (h : Counts s) (u : ℕ) (aborted : Bool) : Counts (s.signalDone cfg u aborted) := by
  unfold Manager.signalDone
  split
  · exact h
  rename_i th hu
  split
  · exact h
  rename_i hstopped
  have happ := h.app th (List.mem_of_getElem? hu)
  have hout := h.countOut hu (Bool.eq_false_of_not_eq_true hstopped)
  dsimp only
  split
  · rename_i hlast
    have hend := hout.endRun cfg (by rw [length_countOut]; exact happ) hlast.2
    exact hend.threads _ _ hend.app fun _ => rfl
  · exact hout.threads _ _ hout.app fun _ => rfl

end Parts

/-! ### When `stop` has been called -/

section Stops

variable {s s' : Manager} {cfg : Config}

/-- A step that completes no run and makes no application. -/
theorem Stops.of_numRuns (h : Stops cfg s) (hlength : s'.apps.length = s.apps.length)
    (hruns : ∀ a < s.apps.length, (s'.info a).numRuns = (s.info a).numRuns)
    (hcalled : s'.stopCalled = s.stopCalled) : Stops cfg s' where
  first hcfg a ha hpos := by
    rw [hlength] at ha
    rw [hruns a ha] at hpos
    rw [hcalled]
    exact h.first hcfg a ha hpos
  all hcfg hne hall := by
    have hne' : s.apps ≠ [] := fun hnil => hne (List.eq_nil_of_length_eq_zero (by rw [hlength, hnil]; rfl))
    rw [hcalled]
    refine h.all hcfg hne' fun a ha => ?_
    rw [← hruns a ha]
    exact hall a (by rw [hlength]; exact ha)

/-- Once `stop` has been called nothing is left to show. -/
theorem stops_of_called (h : s.stopCalled = true) : Stops cfg s := ⟨fun _ _ _ _ => h, fun _ _ _ => h⟩

/-- A new thread completes nothing. -/
theorem Stops.newThread (h : Stops cfg s) (app : ℕ) (first : Bool) : Stops cfg (s.newThread app first) := by
  refine h.of_numRuns length_newThread (fun a ha => ?_) rfl
  rw [info_newThread ha]
  split
  · cases first <;> rfl
  · rfl

/-- A new application has no completed run. -/
theorem Stops.createApplication (h : Stops cfg s) : Stops cfg s.createApplication := by
  refine Stops.newThread ⟨fun hcfg a ha hpos => ?_, fun hcfg _ hall => ?_⟩ _ _
  · simp only [List.length_append, List.length_singleton] at ha
    rcases Nat.lt_succ_iff_lt_or_eq.1 ha with hlt | rfl
    · refine h.first hcfg a hlt ?_
      simpa [info, List.getElem?_append_left, hlt] using hpos
    · simp [info] at hpos
  · have hpos := hall s.apps.length (by simp)
    simp [info] at hpos

/-- The end of a run stops the simulation when it has to. -/
theorem stops_endRun (h : Counts s) {a : ℕ} (ha : a < s.apps.length) : Stops cfg (s.endRun cfg a) := by
  have hdone := h.completeRun ha
  unfold Manager.endRun
  dsimp only
  split
  · exact stops_of_called rfl
  split
  · exact stops_of_called rfl
  rename_i hfirst hleft
  -- some application has not completed a run
  have hstops : Stops cfg (s.completeRun a) := by
    refine ⟨fun hcfg => absurd hcfg hfirst, fun _ _ hall => ?_⟩
    rw [hdone.nonfinish, List.countP_eq_zero] at hleft
    refine absurd (fun i hi => ?_) hleft
    obtain ⟨b, hb⟩ := List.mem_iff_getElem?.1 hi
    obtain ⟨hlt, -⟩ := List.getElem?_eq_some_iff.1 hb
    have hpos := hall b hlt
    rw [getElem?_apps hlt] at hb
    cases hb
    simpa using Nat.ne_of_gt hpos
  split
  · exact hstops.newThread _ _
  · exact hstops

/-- `signalDone`. -/
theorem Stops.signalDone (h : Stops cfg s) (hc : Counts s) (u : ℕ) (aborted : Bool) :
    Stops cfg (s.signalDone cfg u aborted) := by
  unfold Manager.signalDone
  split
  · exact h
  rename_i th hu
  split
  · exact h
  rename_i hstopped
  have happ := hc.app th (List.mem_of_getElem? hu)
  have hout := hc.countOut hu (Bool.eq_false_of_not_eq_true hstopped)
  dsimp only
  split
  · exact (stops_endRun hout (by rw [length_countOut]; exact happ)).of_numRuns rfl (fun _ _ => rfl) rfl
  · have hsame : ∀ a < s.apps.length, ((s.countOut u th.app).info a).numRuns = (s.info a).numRuns := by
      intro a ha
      rw [info_countOut ha]
      split <;> rfl
    exact h.of_numRuns (List.length_modify ..) hsame rfl

end Stops

/-! ### Completed runs -/

section Runs

variable {s s' : Manager} {cfg : Config}

/-- A step that changes no application. -/
theorem Runs.of_apps (h : Runs s) (happs : s'.apps = s.apps) : Runs s' := by
  unfold Runs info at h ⊢
  rw [happs]
  exact h

/-- A thread joins a run that is not completed. -/
theorem Runs.createThread (h : Runs s) {app : ℕ} (hpos : 0 < (s.info app).numThreads) : Runs (s.newThread app false) := by
  intro a ha
  rw [length_newThread] at ha
  have hrun := h a ha
  rw [info_newThread ha]
  by_cases happ : a = app
  · subst happ
    rw [if_neg (Nat.ne_of_gt hpos)] at hrun
    simpa using hrun
  · rw [if_neg happ]
    exact hrun

/-- A run is started when the one before it is completed. -/
theorem Runs.restart (h : Runs s) {app : ℕ} (hzero : (s.info app).numThreads = 0) : Runs (s.newThread app true) := by
  intro a ha
  rw [length_newThread] at ha
  have hrun := h a ha
  rw [info_newThread ha]
  by_cases happ : a = app
  · subst happ
    simpa [hzero] using hrun
  · rw [if_neg happ]
    exact hrun

/-- The first run of a new application. -/
theorem Runs.createApplication (h : Runs s) : Runs s.createApplication := by
  intro a ha
  unfold Manager.createApplication at ha ⊢
  rw [length_newThread] at ha
  rw [info_newThread ha]
  simp only [List.length_append, List.length_singleton] at ha
  rcases Nat.lt_succ_iff_lt_or_eq.1 ha with hlt | rfl
  · have hrun := h a hlt
    rw [if_neg (Nat.ne_of_lt hlt)]
    simpa [info, List.getElem?_append_left, hlt] using hrun
  · simp [info]

/-- The run of an application is due to be counted: its last thread has been counted out. -/
def Due (app : ℕ) (s : Manager) : Prop :=
  (s.info app).numThreads = 0 ∧ ∀ a < s.apps.length,
    (s.info a).runsStarted = (s.info a).numRuns + if a = app ∨ (s.info a).numThreads ≠ 0 then 1 else 0

/-- A thread that is not the last one of its application. -/
theorem Runs.countOut (h : Runs s) (u : ℕ) {app : ℕ} (happ : app < s.apps.length) (hone : 1 < (s.info app).numThreads) :
    Runs (s.countOut u app) := by
  intro a ha
  rw [length_countOut] at ha
  have hrun := h a ha
  rw [info_countOut ha]
  by_cases haa : a = app
  · subst haa
    have hne : (s.info a).numThreads ≠ 0 := by omega
    have hne' : (s.info a).numThreads - 1 ≠ 0 := by omega
    simpa [hne, hne'] using hrun
  · rw [if_neg haa]
    exact hrun

/-- The last thread of an application. -/
theorem Runs.due (h : Runs s) {u app : ℕ} (happ : app < s.apps.length) (hone : (s.info app).numThreads = 1) :
    Due app (s.countOut u app) := by
  refine ⟨by simp [info_countOut happ, hone], fun a ha => ?_⟩
  rw [length_countOut] at ha
  have hrun := h a ha
  rw [info_countOut ha]
  by_cases haa : a = app
  · subst haa
    simpa [hone] using hrun
  · by_cases hzero : (s.info a).numThreads = 0
    · simpa [haa, hzero] using hrun
    · simpa [haa, hzero] using hrun

/-- A run that is due is counted. -/
theorem Due.completeRun {app : ℕ} (h : Due app s) : Runs (s.completeRun app) := by
  intro a ha
  rw [length_completeRun] at ha
  have hrun := h.2 a ha
  rw [info_completeRun ha]
  by_cases haa : a = app
  · subst haa
    simpa [h.1] using hrun
  · by_cases hzero : (s.info a).numThreads = 0
    · simpa [haa, hzero] using hrun
    · simpa [haa, hzero] using hrun

/-- The end of a run. -/
theorem Due.endRun {app : ℕ} (h : Due app s) (happ : app < s.apps.length) : Runs (s.endRun cfg app) := by
  have hruns := h.completeRun
  have hnone : ((s.completeRun app).info app).numThreads = 0 := by
    rw [info_completeRun happ, if_pos rfl]
    exact h.1
  unfold Manager.endRun
  dsimp only
  split
  · exact hruns.of_apps rfl
  split
  · exact hruns.of_apps rfl
  split
  · exact hruns.restart hnone
  · exact hruns

/-- A thread that is not stopped is one of those counted. -/
theorem Counts.numThreads_pos (h : Counts s) {u : ℕ} {th : TraceThread} (hu : s.threads[u]? = some th)
    (hstopped : th.stopped = false) : 0 < (s.info th.app).numThreads := by
  have hmem := List.mem_of_getElem? hu
  rw [h.numThreads th.app (h.app th hmem), List.countP_pos_iff]
  exact ⟨th, hmem, by simp [TraceThread.counted, hstopped]⟩

/-- The thread is not the last one of its application that is counted. -/
def notLast (s : Manager) (u : ℕ) : Bool :=
  match s.threads[u]? with
  | none => true
  | some th => th.stopped || decide (1 < (s.info th.app).numThreads)

/-- `signalDone`, unless it counts out a last thread as aborted. -/
theorem Runs.signalDone (h : Runs s) (hc : Counts s) {u : ℕ} {aborted : Bool}
    (hlast : aborted = true → notLast s u = true) : Runs (s.signalDone cfg u aborted) := by
  unfold Manager.signalDone
  split
  · exact h
  rename_i th hu
  split
  · exact h
  rename_i hstopped
  have hfalse := Bool.eq_false_of_not_eq_true hstopped
  have happ := hc.app th (List.mem_of_getElem? hu)
  have hpos := hc.numThreads_pos hu hfalse
  have hleft : ((s.countOut u th.app).info th.app).numThreads = (s.info th.app).numThreads - 1 := by
    rw [info_countOut happ, if_pos rfl]
  dsimp only
  rw [hleft]
  by_cases hone : (s.info th.app).numThreads = 1
  · have habort : aborted = false := by
      by_contra hne
      have hmany := hlast (Bool.eq_true_of_not_eq_false hne)
      simp [notLast, hu, hfalse, hone] at hmany
    rw [if_pos ⟨habort, by omega⟩]
    exact ((h.due happ hone).endRun (by rw [length_countOut]; exact happ)).of_apps rfl
  · rw [if_neg fun hzero => hone (by omega)]
    exact (h.countOut u happ (by omega)).of_apps rfl

end Runs

/-! ### Whole runs -/

/-- A thread is made only for a run that is not completed, and the last thread of an application is not
counted out as an aborted one. -/
def endsNormally (s : Manager) (e : Event) : Bool :=
  match s.threads[e.thread]? with
  | none => true
  | some th =>
    match th.phase, e.action with
    | .running, .createThread => decide (0 < (s.info th.app).numThreads)
    | .ending i true _, .next => notLast s i
    | .leaving true, .done => notLast s e.thread
    | _, _ => true

/-- The loop of `endApplication` goes on only while no thread has been made since it began. -/
def walksAlone (s : Manager) (e : Event) : Bool :=
  match s.threads[e.thread]? with
  | none => true
  | some th =>
    match th.phase, e.action with
    | .ending _ _ size, .next => decide (s.threads.length = size)
    | _, _ => true

/-- What the front-end's counters have to satisfy. A thread has ended when it is stopped. -/
structure Accounting (cfg : Config) (s : Manager) : Prop where
  /-- All threads of the last run have ended: every run has been counted once. -/
  completed : ∀ a < s.apps.length, (∀ th ∈ s.threads, th.app = a → th.stopped = true) →
    (s.info a).numRuns = (s.info a).runsStarted
  /-- A thread of the last run has not ended: the other runs have been counted once, and this one has not. -/
  running : ∀ a < s.apps.length, (∃ th ∈ s.threads, th.app = a ∧ th.stopped = false) →
    (s.info a).numRuns + 1 = (s.info a).runsStarted
  nonfinish : s.numAppsNonfinish = s.apps.countP fun i => i.numRuns == 0
  numThreads : ∀ a < s.apps.length,
    (s.info a).numThreads = s.threads.countP fun th => th.app == a && !th.stopped
  first : cfg.stopWithFirstApp = true → ∀ a < s.apps.length, 0 < (s.info a).numRuns → s.stopCalled = true
  all : cfg.stopWithFirstApp = false → s.apps ≠ [] → (∀ a < s.apps.length, 0 < (s.info a).numRuns) →
    s.stopCalled = true

section Whole

variable {s s' : Manager} {cfg : Config} {e : Event}

/-- The three invariants together. -/
theorem accounting_of_invariants (hc : Counts s) (hs : Stops cfg s) (hr : Runs s) : Accounting cfg s where
  completed a ha hall := by
    have hzero : (s.info a).numThreads = 0 := by
      rw [hc.numThreads a ha, List.countP_eq_zero]
      intro th hth hcounted
      simp only [TraceThread.counted, Bool.and_eq_true, beq_iff_eq, Bool.not_eq_true'] at hcounted
      have hstopped := hall th hth hcounted.1
      rw [hcounted.2] at hstopped
      cases hstopped
    have hrun := hr a ha
    rw [if_pos hzero] at hrun
    exact hrun.symm
  running a ha hex := by
    obtain ⟨th, hth, happ, hstopped⟩ := hex
    have hpos : (s.info a).numThreads ≠ 0 := by
      apply Nat.ne_of_gt
      rw [hc.numThreads a ha, List.countP_pos_iff]
      exact ⟨th, hth, by simp [TraceThread.counted, happ, hstopped]⟩
    have hrun := hr a ha
    rw [if_neg hpos] at hrun
    exact hrun.symm
  nonfinish := hc.nonfinish
  numThreads := hc.numThreads
  first := hs.first
  all := hs.all

/-- A half round that counts nobody out asks a thread to stop or only goes on. -/
theorem endNext_walks (s : Manager) (cfg : Config) (t app i size : ℕ) :
    (∃ p, s.endNext cfg t app i false size = s.setPhase t p) ∨
      ∃ p, s.endNext cfg t app i false size = (s.askStop i).setPhase t p := by
  unfold Manager.endNext
  rw [if_neg Bool.false_ne_true]
  split
  · exact .inl ⟨_, rfl⟩
  · split
    · exact .inr ⟨_, rfl⟩
    · exact .inl ⟨_, rfl⟩

/-- What a step can do to the counters: the parts of the manager that it calls. -/
theorem step_cases (h : step cfg s e = .ok s') : ∃ th, s.threads[e.thread]? = some th ∧
    ((e.action = .createThread ∧ th.phase = .running ∧ s' = s.newThread th.app false) ∨
    s' = s.createApplication ∨
    (∃ p, s' = s.setPhase e.thread p) ∨
    (∃ i p, s' = (s.askStop i).setPhase e.thread p) ∨
    (∃ i size p, e.action = .next ∧ th.phase = .ending i true size ∧
      s' = (s.signalDone cfg i true).setPhase e.thread p) ∨
    ∃ aborted p, e.action = .done ∧ th.phase = .leaving aborted ∧
      s' = (s.signalDone cfg e.thread aborted).setPhase e.thread p) := by
  unfold step at h
  split at h
  · cases h
  rename_i th hth
  refine ⟨th, hth, ?_⟩
  split at h
  · rename_i hphase haction
    cases h
    exact .inl ⟨haction, hphase, rfl⟩
  · cases h
    exact .inr (.inl rfl)
  · cases h
    exact .inr (.inr (.inl ⟨_, rfl⟩))
  · rename_i i asked size hphase haction
    split at h
    · cases h
      cases asked with
      | true => exact .inr (.inr (.inr (.inr (.inl ⟨i, size, _, haction, hphase, rfl⟩))))
      | false =>
        obtain ⟨p, hp⟩ | ⟨p, hp⟩ := endNext_walks s cfg e.thread th.app i size
        · exact .inr (.inr (.inl ⟨p, hp⟩))
        · exact .inr (.inr (.inr (.inl ⟨i, p, hp⟩)))
    · cases h
  · cases h
    exact .inr (.inr (.inl ⟨_, rfl⟩))
  · rename_i aborted hphase haction
    cases h
    exact .inr (.inr (.inr (.inr (.inr ⟨aborted, _, haction, hphase, rfl⟩))))
  · cases h

/-- A step keeps the counters of threads and applications right, whatever the threads do. -/
theorem Counts.step (h : Counts s) (he : step cfg s e = .ok s') : Counts s' := by
  obtain ⟨th, hth, hcase⟩ := step_cases he
  have happ := h.app th (List.mem_of_getElem? hth)
  obtain ⟨-, -, rfl⟩ | rfl | ⟨p, rfl⟩ | ⟨i, p, rfl⟩ | ⟨i, size, p, -, -, rfl⟩ | ⟨aborted, p, -, -, rfl⟩ := hcase
  · exact h.createThread happ
  · exact h.createApplication
  · exact h.setPhase _ p
  · exact (h.askStop i).setPhase _ p
  · exact (h.signalDone i true).setPhase _ p
  · exact (h.signalDone e.thread aborted).setPhase _ p

/-- A step that meets the condition for `stop` calls it. -/
theorem Stops.step (h : Stops cfg s) (hc : Counts s) (he : step cfg s e = .ok s') : Stops cfg s' := by
  obtain ⟨th, hth, hcase⟩ := step_cases he
  obtain ⟨-, -, rfl⟩ | rfl | ⟨p, rfl⟩ | ⟨i, p, rfl⟩ | ⟨i, size, p, -, -, rfl⟩ | ⟨aborted, p, -, -, rfl⟩ := hcase
  · exact h.newThread _ _
  · exact h.createApplication
  · exact h.of_numRuns rfl (fun _ _ => rfl) rfl
  · exact h.of_numRuns rfl (fun _ _ => rfl) rfl
  · exact (h.signalDone hc i true).of_numRuns rfl (fun _ _ => rfl) rfl
  · exact (h.signalDone hc e.thread aborted).of_numRuns rfl (fun _ _ => rfl) rfl

/-- A step that meets the condition counts the run that it ends. -/
theorem Runs.step (h : Runs s) (hc : Counts s) (hg : endsNormally s e = true) (he : step cfg s e = .ok s') :
    Runs s' := by
  obtain ⟨th, hth, hcase⟩ := step_cases he
  obtain ⟨haction, hphase, rfl⟩ | rfl | ⟨p, rfl⟩ | ⟨i, p, rfl⟩ | ⟨i, size, p, haction, hphase, rfl⟩ |
    ⟨aborted, p, haction, hphase, rfl⟩ := hcase
  · simp only [endsNormally, hth, hphase, haction, decide_eq_true_eq] at hg
    exact h.createThread hg
  · exact h.createApplication
  · exact h.of_apps rfl
  · exact h.of_apps rfl
  · simp only [endsNormally, hth, hphase, haction] at hg
    exact (h.signalDone hc fun _ => hg).of_apps rfl
  · have hlast : aborted = true → notLast s e.thread = true := by
      intro habort
      simpa only [endsNormally, hth, hphase, haction, habort] using hg
    exact (h.signalDone hc hlast).of_apps rfl

/-! The threads that `init` makes. -/

/-- After some of the applications have been started. -/
theorem init_prefix (n k : ℕ) :
    ((List.range k).foldl (fun s app => s.newThread app true) (constructed n)).threads
      = (List.range k).map (fun app => ⟨app, false, false, .running⟩) ∧
    (∀ a < n, ((List.range k).foldl (fun s app => s.newThread app true) (constructed n)).info a
      = ⟨1, 1, 0, if a < k then 1 else 0⟩) ∧
    ((List.range k).foldl (fun s app => s.newThread app true) (constructed n)).apps.length = n ∧
    ((List.range k).foldl (fun s app => s.newThread app true) (constructed n)).numAppsNonfinish = n := by
  induction k with
  | zero =>
    refine ⟨rfl, fun a ha => ?_, ?_, rfl⟩
    · simp [constructed, info, ha]
    · simp [constructed]
  | succ k ih =>
    obtain ⟨hthreads, hinfo, hlength, hnonfinish⟩ := ih
    rw [List.range_succ, List.foldl_append, List.foldl_cons, List.foldl_nil]
    refine ⟨?_, fun a ha => ?_, ?_, hnonfinish⟩
    · rw [List.map_append, ← hthreads]
      rfl
    · rw [info_newThread (by rw [hlength]; exact ha), hinfo a ha]
      by_cases hak : a = k
      · simp [hak]
      · have hiff : a < k + 1 ↔ a < k := by omega
        simp [hak, hiff]
    · rw [length_newThread]
      exact hlength

/-- Every application has its first thread and no completed run. -/
theorem init_apps (n : ℕ) : (init n).apps = List.replicate n ⟨1, 1, 0, 1⟩ := by
  obtain ⟨-, hinfo, hlength, -⟩ := init_prefix n n
  refine List.eq_replicate_iff.2 ⟨hlength, fun i hi => ?_⟩
  obtain ⟨a, ha⟩ := List.mem_iff_getElem?.1 hi
  obtain ⟨hlt, -⟩ := List.getElem?_eq_some_iff.1 ha
  have hltn : a < n := hlength ▸ hlt
  rw [getElem?_apps hlt, init, hinfo a hltn, if_pos hltn] at ha
  exact (Option.some.inj ha).symm

/-- The counters are right at the start. -/
theorem counts_init (n : ℕ) : Counts (init n) := by
  obtain ⟨hthreads, hinfo, hlength, hnonfinish⟩ := init_prefix n n
  refine ⟨fun th hth => ?_, fun a ha => ?_, ?_⟩
  · rw [init, hthreads] at hth
    obtain ⟨app, happ, rfl⟩ := List.mem_map.1 hth
    rw [init, hlength]
    exact List.mem_range.1 happ
  · rw [init, hlength] at ha
    have hone := List.count_eq_one_of_mem List.nodup_range (List.mem_range.2 ha)
    have htest : TraceThread.counted a ∘ (fun app => ⟨app, false, false, .running⟩) = fun app => app == a := by
      funext app
      simp [TraceThread.counted]
    rw [init, hthreads, hinfo a ha, List.countP_map, htest]
    exact hone.symm
  · rw [init_apps, init, hnonfinish, List.countP_replicate]
    rfl

theorem runs_init (n : ℕ) : Runs (init n) := by
  obtain ⟨-, hinfo, hlength, -⟩ := init_prefix n n
  intro a ha
  rw [init, hlength] at ha
  rw [init, hinfo a ha]
  simp [ha]

theorem stops_init (cfg : Config) (n : ℕ) : Stops cfg (init n) := by
  obtain ⟨-, hinfo, hlength, -⟩ := init_prefix n n
  have hnone : ∀ a < (init n).apps.length, ¬ 0 < ((init n).info a).numRuns := by
    intro a ha
    rw [init, hlength] at ha
    rw [init, hinfo a ha]
    exact Nat.lt_irrefl 0
  refine ⟨fun _ a ha hpos => absurd hpos (hnone a ha), fun _ hne hall => ?_⟩
  have hlt := List.length_pos_iff.2 hne
  exact absurd (hall 0 hlt) (hnone 0 hlt)

end Whole

/-- The threads and the unfinished applications are counted correctly and `stop` is called in time, in every run. -/
theorem counters_sound (cfg : Config) (numApps : ℕ) {s : Manager} (h : (frontEnd cfg).Reachable (init numApps) s) :
    Counts s ∧ Stops cfg s :=
  h.invariant (P := fun s => Counts s ∧ Stops cfg s) ⟨counts_init numApps, stops_init cfg numApps⟩
    fun _ _ _ hs he => ⟨hs.1.step he, hs.2.step hs.1 he⟩

/-- A loop that walks alone uses a valid iterator. -/
theorem step_ne_iterator {cfg : Config} {s : Manager} {e : Event} (h : walksAlone s e = true) :
    step cfg s e ≠ .error .iterator := by
  intro he
  unfold step at he
  split at he
  · cases he
  rename_i th hth
  split at he
  · cases he
  · cases he
  · cases he
  · rename_i i asked size hphase haction
    have hsize : s.threads.length = size := by simpa only [walksAlone, hth, hphase, haction, decide_eq_true_eq] using h
    rw [if_pos hsize] at he
    cases he
  · cases he
  · cases he
  · cases he

/-- A run is counted once when its last thread is not counted out as an aborted one, and no iterator is used after a
thread was made when the loops walk alone. -/
theorem accounting (cfg : Config) (numApps : ℕ) (es : List Event)
    (hg : (frontEnd cfg).Guarded (fun s e => walksAlone s e = true ∧ endsNormally s e = true) (init numApps) es) :
    (frontEnd cfg).run (init numApps) es ≠ .error .iterator ∧
      ∀ s, (frontEnd cfg).run (init numApps) es = .ok s → Accounting cfg s := by
  refine ⟨(frontEnd cfg).guarded_run_ne (P := fun _ => True) (fun _ _ _ _ _ _ => trivial)
    (fun _ _ _ hge => step_ne_iterator hge.1) trivial hg, fun s h => ?_⟩
  have hruns : Counts s ∧ Runs s :=
    (frontEnd cfg).guarded_induction (P := fun s => Counts s ∧ Runs s)
      (fun _ _ _ hs hge he => ⟨hs.1.step he, hs.2.step hs.1 hge.2 he⟩)
      ⟨counts_init numApps, runs_init numApps⟩ hg h
  obtain ⟨hcounts, hstops⟩ := counters_sound cfg numApps ⟨es, h⟩
  exact accounting_of_invariants hcounts hstops hruns.2

/-- Two applications. A thread of the first one starts another and ends the application, which asks the
other to stop; then the second application ends. -/
def exitGroupRun : List Event :=
  [⟨0, .createThread⟩, ⟨0, .exitGroup⟩, ⟨0, .next⟩, ⟨0, .next⟩, ⟨0, .next⟩, ⟨0, .next⟩, ⟨0, .next⟩,
    ⟨0, .leave⟩, ⟨0, .done⟩, ⟨2, .leave⟩, ⟨2, .done⟩, ⟨1, .leave⟩, ⟨1, .done⟩]

theorem accounting_exitGroupRun :
    (frontEnd ⟨false, false⟩).final (init 2) exitGroupRun
      = ⟨[⟨0, true, true, .exited⟩, ⟨1, true, true, .exited⟩, ⟨0, true, true, .exited⟩],
        [⟨2, 0, 1, 1⟩, ⟨1, 0, 1, 1⟩], 0, 0, true⟩ ∧
    Accounting ⟨false, false⟩ ((frontEnd ⟨false, false⟩).final (init 2) exitGroupRun) :=
  ⟨by decide, (accounting ⟨false, false⟩ 2 exitGroupRun (Machine.Guarded.of_decide (by decide))).2 _
    (Machine.run_final _ (by decide))⟩

/-- Two threads of one application handle `exit_group` at the same time. -/
def twoExitGroupsRun : List Event :=
  [⟨0, .createThread⟩, ⟨0, .exitGroup⟩, ⟨1, .exitGroup⟩, ⟨0, .next⟩, ⟨0, .next⟩, ⟨1, .next⟩, ⟨0, .next⟩, ⟨1, .next⟩,
    ⟨0, .next⟩, ⟨1, .next⟩, ⟨1, .next⟩, ⟨0, .leave⟩, ⟨1, .leave⟩, ⟨0, .done⟩, ⟨1, .done⟩]

/-- Each counts the other out, both have ended, and the run is not counted. -/
theorem accounting_twoExitGroups :
    ∃ s, (frontEnd ⟨false, false⟩).run (init 1) twoExitGroupsRun = .ok s ∧
      (∀ th ∈ s.threads, th.phase = .exited) ∧ s.stopCalled = false ∧ ¬ Accounting ⟨false, false⟩ s := by
  refine ⟨⟨[⟨0, true, true, .exited⟩, ⟨0, true, true, .exited⟩], [⟨2, 0, 0, 1⟩], 1, 0, false⟩,
    by decide, by decide, rfl, fun h => ?_⟩
  exact absurd (h.completed 0 (by decide) (by decide)) (by decide)

end LifeSim.Trace
