import LifeSim.Trace.Accounting

/-!
# The files of the trace threads

`trace_manager.cc` keeps three tables by application: `m_app_info`, `m_tracefiles` and `m_responsefiles`. All have the
number of applications at construction as their size, and only the first grows with a fork. The manager of
`Manager.lean` is put together here with the two other tables, a record of every use of a table and of the
files given to each thread. A use that is out of range gives an unknown file.

`restart_apps` gives the last two tables' files to an application that starts again. A forked application has none.
-/

namespace LifeSim.Trace

open LifeSim.Lib

/-- The configuration of the file names. -/
structure FileConfig where
  /-- `trace_prefix`. -/
  tracePrefix : String
  /-- `thread_i`. -/
  thread : ℕ → String

/-- `getFifoName`. -/
def getFifoName (tracePrefix : String) (app threadNum : ℕ) (response : Bool) : String :=
  tracePrefix ++ (if response then "_response" else "") ++ ".app" ++ toString app ++ ".th" ++ toString threadNum ++ ".sift"

/-- The tables by application. -/
inductive AppTable
  | appInfo
  | tracefiles
  | responsefiles
  deriving DecidableEq, Repr

/-- A use of a table, with its size then. -/
structure TableUse where
  table : AppTable
  index : ℕ
  size : ℕ
  deriving DecidableEq, Repr

/-- The index is inside the table. -/
def TableUse.Inside (u : TableUse) : Prop := u.index < u.size

/-- A thread with its trace and response file. -/
structure StartedThread where
  app : ℕ
  first : Bool
  tracefile : Option String
  responsefile : Option String
  deriving DecidableEq, Repr

/-- `TraceManager` with its tables of files. -/
structure FileManager where
  manager : Manager
  tracePrefix : String
  tracefiles : List String
  responsefiles : List String
  /-- History: the uses of the tables. -/
  uses : List TableUse
  /-- History: the threads. -/
  started : List StartedThread

namespace FileManager

/-- A use of `m_app_info[app_id]`. -/
def useInfo (app : ℕ) (s : FileManager) : FileManager :=
  { s with uses := s.uses ++ [⟨.appInfo, app, s.manager.apps.length⟩] }

/-- The uses of the tables of files in `newThread`. -/
def fileUses (app : ℕ) (first initFifo : Bool) (s : FileManager) : List TableUse :=
  if first ∧ initFifo = false then
    ⟨.tracefiles, app, s.tracefiles.length⟩ ::
      (if s.responsefiles = [] then [] else [⟨.responsefiles, app, s.responsefiles.length⟩])
  else []

/-- `tracefile` in `newThread`. -/
def tracefile (app threadNum : ℕ) (first initFifo : Bool) (s : FileManager) : Option String :=
  if initFifo then some (getFifoName s.tracePrefix app threadNum false)
  else if first then s.tracefiles[app]?
  else some ""

/-- `responsefile` in `newThread`. -/
def responsefile (app threadNum : ℕ) (first initFifo : Bool) (s : FileManager) : Option String :=
  if s.responsefiles = [] then some ""
  else if initFifo then some (getFifoName s.tracePrefix app threadNum true)
  else if first then s.responsefiles[app]?
  else some ""

/-- `newThread`. -/
def newThread (app : ℕ) (first initFifo : Bool) (s : FileManager) : FileManager :=
  let threadNum := if first then 0 else (s.manager.info app).threadCount
  { s with
    manager := s.manager.newThread app first
    uses := s.uses ++ ⟨.appInfo, app, s.manager.apps.length⟩ :: s.fileUses app first initFifo
    started := s.started ++
      [⟨app, first, s.tracefile app threadNum first initFifo, s.responsefile app threadNum first initFifo⟩] }

/-- `createApplication`. -/
def createApplication (s : FileManager) : FileManager :=
  newThread s.manager.apps.length true true
    { s with manager :=
        { s.manager with
          apps := s.manager.apps ++ [⟨1, 1, 0, 0⟩]
          numAppsNonfinish := s.manager.numAppsNonfinish + 1 } }

/-- The part of `signalDone` for the last thread of a run. -/
def endRun (cfg : Config) (app : ℕ) (s : FileManager) : FileManager :=
  let s := { s.useInfo app with manager := s.manager.completeRun app }
  if cfg.stopWithFirstApp then { s with manager := s.manager.stop }
  else if s.manager.numAppsNonfinish = 0 then { s with manager := s.manager.stop }
  else if cfg.appRestart then s.newThread app true false
  else s

/-- `signalDone`. -/
def signalDone (cfg : Config) (u : ℕ) (aborted : Bool) (s : FileManager) : FileManager :=
  match s.manager.threads[u]? with
  | none => s
  | some th =>
    if th.stopped then s
    else
      let s := { s.useInfo th.app with manager := s.manager.countOut u th.app }
      let s := if aborted = false ∧ (s.manager.info th.app).numThreads = 0 then s.endRun cfg th.app else s
      { s with manager := { s.manager with numThreadsRunning := s.manager.numThreadsRunning - 1 } }

/-- The thread goes on to another place. -/
def setPhase (t : ℕ) (p : Phase) (s : FileManager) : FileManager := { s with manager := s.manager.setPhase t p }

/-- One step of one thread. The other steps use no table. -/
def step (cfg : Config) (s : FileManager) (e : Event) : Except Fault FileManager :=
  match s.manager.threads[e.thread]? with
  | none => .error .noThread
  | some th =>
    match th.phase, e.action with
    | .running, .createThread => .ok (s.newThread th.app false true)
    | .running, .createApplication => .ok s.createApplication
    | .ending i true size, .next => if s.manager.threads.length = size
      then .ok ((s.signalDone cfg i true).setPhase e.thread (.ending (i + 1) false size)) else .error .iterator
    | .leaving aborted, .done => .ok ((s.signalDone cfg e.thread aborted).setPhase e.thread .exited)
    | _, _ => (Trace.step cfg s.manager e).map fun m => { s with manager := m }

/-- The constructor with `setupTraceFiles`. -/
def constructed (files : FileConfig) (numApps : ℕ) : FileManager where
  manager := Trace.constructed numApps
  tracePrefix := files.tracePrefix
  tracefiles := (List.range numApps).map fun i =>
    if files.tracePrefix = "" then files.thread i else getFifoName files.tracePrefix i 0 false
  responsefiles := (List.range numApps).map fun i =>
    if files.tracePrefix = "" then "" else getFifoName files.tracePrefix i 0 true
  uses := []
  started := []

/-- `init`. -/
def init (files : FileConfig) (numApps : ℕ) : FileManager :=
  (List.range numApps).foldl (fun s app => s.newThread app true false) (constructed files numApps)

end FileManager

/-- The front-end with its tables as an event machine. -/
def fileFrontEnd (cfg : Config) : Machine FileManager Event Fault := ⟨FileManager.step cfg⟩

/-- The trace file of an application: of the configuration, or the one made for it. -/
def ownTracefile (files : FileConfig) (numApps app : ℕ) : String :=
  if app < numApps ∧ files.tracePrefix = "" then files.thread app else getFifoName files.tracePrefix app 0 false

/-- The response file of an application. -/
def ownResponsefile (files : FileConfig) (numApps app : ℕ) : String :=
  if app < numApps ∧ files.tracePrefix = "" then "" else getFifoName files.tracePrefix app 0 true

/-- The tables have been used inside their bounds, and applications were started with their own files. -/
def TablesRight (files : FileConfig) (numApps : ℕ) (s : FileManager) : Prop :=
  (∀ u ∈ s.uses, u.Inside) ∧ ∀ th ∈ s.started, th.first = true →
    th.tracefile = some (ownTracefile files numApps th.app) ∧
      th.responsefile = some (ownResponsefile files numApps th.app)

/-- The last thread of a forked application ends normally while restarts are on and the simulation goes on. -/
def restartsForked (cfg : Config) (numApps : ℕ) (s : FileManager) (e : Event) : Bool :=
  match s.manager.threads[e.thread]? with
  | none => false
  | some th =>
    let i := s.manager.info th.app
    e.action = .done ∧ th.phase = .leaving false ∧ th.stopped = false ∧ i.numThreads ≤ 1 ∧ numApps ≤ th.app ∧
      cfg.appRestart ∧ ¬ cfg.stopWithFirstApp ∧
      (if i.numRuns = 0 then s.manager.numAppsNonfinish - 1 else s.manager.numAppsNonfinish) ≠ 0

/-! ### The tables beside the manager -/

namespace FileManager

variable {cfg : Config} {s s' : FileManager} {e : Event} {files : FileConfig} {numApps : ℕ}

@[simp] theorem manager_newThread {app : ℕ} {first initFifo : Bool} :
    (s.newThread app first initFifo).manager = s.manager.newThread app first := rfl

@[simp] theorem manager_createApplication : s.createApplication.manager = s.manager.createApplication := rfl

@[simp] theorem manager_endRun {app : ℕ} : (s.endRun cfg app).manager = s.manager.endRun cfg app := by
  unfold endRun Manager.endRun
  dsimp only
  split
  · rfl
  · split
    · rfl
    · split <;> rfl

@[simp] theorem manager_signalDone {u : ℕ} {aborted : Bool} :
    (s.signalDone cfg u aborted).manager = s.manager.signalDone cfg u aborted := by
  unfold signalDone Manager.signalDone
  cases s.manager.threads[u]? with
  | none => rfl
  | some th =>
    dsimp only
    by_cases hstopped : th.stopped = true
    · rw [if_pos hstopped, if_pos hstopped]
    · rw [if_neg hstopped, if_neg hstopped]
      dsimp only
      by_cases hlast : aborted = false ∧ ((s.manager.countOut u th.app).info th.app).numThreads = 0
      · rw [if_pos hlast, if_pos hlast, manager_endRun]
      · rw [if_neg hlast, if_neg hlast]

/-- With the tables the manager goes the same steps. -/
theorem step_manager : (s.step cfg e).map (·.manager) = Trace.step cfg s.manager e := by
  have hother : ((Trace.step cfg s.manager e).map fun m => ({ s with manager := m } : FileManager)).map (·.manager) =
      Trace.step cfg s.manager e := by
    cases Trace.step cfg s.manager e <;> rfl
  unfold step
  split
  · rename_i hnone
    unfold Trace.step
    rw [hnone]
    rfl
  · rename_i th hth
    split
    · rename_i hphase haction
      simp [Trace.step, hth, hphase, haction, Except.map]
    · rename_i hphase haction
      simp [Trace.step, hth, hphase, haction, Except.map]
    · rename_i i size hphase haction
      by_cases hsize : s.manager.threads.length = size
      · simp [Trace.step, Manager.endNext, hth, hphase, haction, hsize, Except.map, setPhase]
      · simp [Trace.step, hth, hphase, haction, hsize, Except.map]
    · rename_i aborted hphase haction
      simp [Trace.step, hth, hphase, haction, Except.map, setPhase]
    · exact hother

/-- What a step can do to the tables. -/
theorem step_cases (h : s.step cfg e = .ok s') : ∃ th, s.manager.threads[e.thread]? = some th ∧
    ((e.action = .createThread ∧ s' = s.newThread th.app false true) ∨
    (e.action = .createApplication ∧ s' = s.createApplication) ∨
    (∃ i p, e.action = .next ∧ s' = (s.signalDone cfg i true).setPhase e.thread p) ∨
    (∃ aborted p, e.action = .done ∧ th.phase = .leaving aborted ∧
      s' = (s.signalDone cfg e.thread aborted).setPhase e.thread p) ∨
    (e.action ≠ .done ∧ ∃ m, s' = { s with manager := m })) := by
  unfold step at h
  split at h
  · cases h
  rename_i th hth
  refine ⟨th, hth, ?_⟩
  split at h
  · rename_i haction
    cases h
    exact .inl ⟨haction, rfl⟩
  · rename_i haction
    cases h
    exact .inr (.inl ⟨haction, rfl⟩)
  · rename_i i size hphase haction
    split at h
    · cases h
      exact .inr (.inr (.inl ⟨i, _, haction, rfl⟩))
    · cases h
  · rename_i aborted hphase haction
    cases h
    exact .inr (.inr (.inr (.inl ⟨aborted, _, haction, hphase, rfl⟩)))
  · rename_i hleaving
    refine .inr (.inr (.inr (.inr ⟨fun haction => ?_, ?_⟩)))
    · -- in `Trace.step` a thread that is not leaving is not done
      have hnot : Trace.step cfg s.manager e = .error .notEnabled := by
        cases hphase : th.phase with
        | leaving aborted => exact absurd haction (hleaving aborted hphase)
        | running => simp [Trace.step, hth, hphase, haction]
        | ending i asked size => simp [Trace.step, hth, hphase, haction]
        | exited => simp [Trace.step, hth, hphase, haction]
      rw [hnot] at h
      cases h
    · cases hstep : Trace.step cfg s.manager e with
      | error f => rw [hstep] at h; cases h
      | ok m =>
        rw [hstep] at h
        cases h
        exact ⟨m, rfl⟩

/-- A step of the front-end with its tables is one of the front-end. -/
theorem manager_step (h : s.step cfg e = .ok s') : Trace.step cfg s.manager e = .ok s'.manager := by
  rw [← step_manager, h]
  rfl

end FileManager

/-! ### The tables of files keep their size -/

/-- The tables of files are those of the constructor, and `m_app_info` only grows. -/
structure TablesFixed (files : FileConfig) (numApps : ℕ) (s : FileManager) : Prop where
  tracePrefix : s.tracePrefix = files.tracePrefix
  tracefiles : s.tracefiles = (FileManager.constructed files numApps).tracefiles
  responsefiles : s.responsefiles = (FileManager.constructed files numApps).responsefiles
  apps : numApps ≤ s.manager.apps.length
  threads : s.manager.threads ≠ [] → 0 < numApps

section Right

variable {cfg : Config} {s s' : FileManager} {e : Event} {files : FileConfig} {numApps app : ℕ}

/-- The tables of the constructor have an entry for each application. -/
theorem TablesFixed.length_tracefiles (h : TablesFixed files numApps s) : s.tracefiles.length = numApps := by
  rw [h.tracefiles, FileManager.constructed, List.length_map, List.length_range]

theorem TablesFixed.length_responsefiles (h : TablesFixed files numApps s) : s.responsefiles.length = numApps := by
  rw [h.responsefiles, FileManager.constructed, List.length_map, List.length_range]

theorem TablesFixed.responsefiles_ne_nil (h : TablesFixed files numApps s) (hpos : 0 < numApps) :
    s.responsefiles ≠ [] := by
  intro hnil
  have hlen := h.length_responsefiles
  rw [hnil, List.length_nil] at hlen
  omega

/-- Uses and threads that are added. -/
theorem tablesRight_append {us : List TableUse} {ts : List StartedThread} (huses : s'.uses = s.uses ++ us)
    (hstarted : s'.started = s.started ++ ts) : TablesRight files numApps s' ↔
      TablesRight files numApps s ∧ (∀ u ∈ us, u.Inside) ∧ ∀ th ∈ ts, th.first = true →
        th.tracefile = some (ownTracefile files numApps th.app) ∧
          th.responsefile = some (ownResponsefile files numApps th.app) := by
  unfold TablesRight
  rw [huses, hstarted, List.forall_mem_append, List.forall_mem_append]
  exact and_and_and_comm

/-- A step of the manager alone. -/
theorem tablesRight_congr (huses : s'.uses = s.uses) (hstarted : s'.started = s.started) :
    TablesRight files numApps s' ↔ TablesRight files numApps s := by
  unfold TablesRight
  rw [huses, hstarted]

/-- Another thread of an application. -/
theorem tablesRight_createThread (happ : app < s.manager.apps.length) :
    TablesRight files numApps (s.newThread app false true) ↔ TablesRight files numApps s := by
  rw [tablesRight_append rfl rfl]
  constructor
  · exact And.left
  · intro h
    refine ⟨h, fun u hu => ?_, fun th hth hfirst => ?_⟩
    · rw [List.mem_singleton.1 hu]
      exact happ
    · rw [List.mem_singleton.1 hth] at hfirst
      cases hfirst

/-- A forked application gets the files that are made for it. -/
theorem tablesRight_createApplication (h : TablesFixed files numApps s) (hpos : 0 < numApps) :
    TablesRight files numApps s.createApplication ↔ TablesRight files numApps s := by
  rw [FileManager.createApplication, tablesRight_append rfl rfl]
  constructor
  · exact And.left
  · intro hright
    refine ⟨hright, fun u hu => ?_, fun th hth _ => ?_⟩
    · rw [List.mem_singleton.1 hu, TableUse.Inside, List.length_append, List.length_singleton]
      exact Nat.lt_succ_self _
    · have hnot : ¬ (s.manager.apps.length < numApps ∧ files.tracePrefix = "") := fun hlt =>
        absurd hlt.1 (Nat.not_lt.2 h.apps)
      rw [List.mem_singleton.1 hth]
      refine ⟨?_, ?_⟩
      · change some (getFifoName s.tracePrefix _ 0 false) = _
        rw [ownTracefile, if_neg hnot, h.tracePrefix]
      · change (if s.responsefiles = [] then some "" else some (getFifoName s.tracePrefix _ 0 true)) = _
        rw [if_neg (h.responsefiles_ne_nil hpos), ownResponsefile, if_neg hnot, h.tracePrefix]

/-- An application that starts with files of the tables has them if it was there at construction. -/
theorem tablesRight_restart (h : TablesFixed files numApps s) (happ : app < s.manager.apps.length) :
    TablesRight files numApps (s.newThread app true false) ↔ TablesRight files numApps s ∧ app < numApps := by
  rw [tablesRight_append rfl rfl]
  constructor
  · rintro ⟨hright, huses, -⟩
    refine ⟨hright, ?_⟩
    rw [← h.length_tracefiles]
    exact huses ⟨.tracefiles, app, s.tracefiles.length⟩ (List.mem_cons_of_mem _ List.mem_cons_self)
  · rintro ⟨hright, hlt⟩
    have hne : s.responsefiles ≠ [] := h.responsefiles_ne_nil (Nat.zero_lt_of_lt hlt)
    refine ⟨hright, fun u hu => ?_, fun th hth _ => ?_⟩
    · rw [FileManager.fileUses, if_pos ⟨rfl, rfl⟩, if_neg hne] at hu
      simp only [List.mem_cons, List.not_mem_nil, or_false] at hu
      rcases hu with rfl | rfl | rfl
      · exact happ
      · exact h.length_tracefiles.symm ▸ hlt
      · exact h.length_responsefiles.symm ▸ hlt
    · rw [List.mem_singleton.1 hth]
      refine ⟨?_, ?_⟩
      · change s.tracefiles[app]? = _
        rw [h.tracefiles, FileManager.constructed, ownTracefile]
        by_cases hempty : files.tracePrefix = ""
        · simp [hlt, hempty]
        · simp [hlt, hempty]
      · change (if s.responsefiles = [] then some "" else s.responsefiles[app]?) = _
        rw [if_neg hne, h.responsefiles, FileManager.constructed, ownResponsefile]
        by_cases hempty : files.tracePrefix = ""
        · simp [hlt, hempty]
        · simp [hlt, hempty]

/-- The unfinished applications after a completed run. -/
theorem numAppsNonfinish_completeRun {m : Manager} (happ : app < m.apps.length) :
    (m.completeRun app).numAppsNonfinish =
      if (m.info app).numRuns = 0 then m.numAppsNonfinish - 1 else m.numAppsNonfinish := by
  have hruns : (({ m with apps := m.apps.modify app fun i => { i with numRuns := i.numRuns + 1 } } : Manager).info
      app).numRuns = (m.info app).numRuns + 1 := by
    rw [Manager.info_modify happ, if_pos rfl]
  unfold Manager.completeRun
  dsimp only
  rw [hruns]
  by_cases hzero : (m.info app).numRuns = 0
  · rw [if_pos hzero, if_pos (by rw [hzero])]
  · rw [if_neg hzero, if_neg (by omega)]

/-- The entry of an application is used, and the manager does something to it. -/
theorem tablesRight_useInfo (happ : app < s.manager.apps.length) (m : Manager) :
    TablesRight files numApps { s.useInfo app with manager := m } ↔ TablesRight files numApps s := by
  have huses : ({ s.useInfo app with manager := m } : FileManager).uses =
      s.uses ++ [⟨.appInfo, app, s.manager.apps.length⟩] := rfl
  have hstarted : ({ s.useInfo app with manager := m } : FileManager).started = s.started ++ [] :=
    (List.append_nil _).symm
  rw [tablesRight_append huses hstarted]
  constructor
  · exact And.left
  · exact fun hright => ⟨hright, fun u hu => by rw [List.mem_singleton.1 hu]; exact happ, fun th hth => by cases hth⟩

theorem TablesFixed.useInfo (h : TablesFixed files numApps s) {m : Manager}
    (hlength : m.apps.length = s.manager.apps.length) (hthreads : m.threads ≠ [] → s.manager.threads ≠ []) :
    TablesFixed files numApps { s.useInfo app with manager := m } where
  tracePrefix := h.tracePrefix
  tracefiles := h.tracefiles
  responsefiles := h.responsefiles
  apps := h.apps.trans_eq hlength.symm
  threads hne := h.threads (hthreads hne)

/-- The end of a run uses the tables of files only to start it again. -/
theorem tablesRight_endRun (cfg : Config) (h : TablesFixed files numApps s) (happ : app < s.manager.apps.length) :
    TablesRight files numApps (s.endRun cfg app) ↔ TablesRight files numApps s ∧
      (cfg.stopWithFirstApp = false → (s.manager.completeRun app).numAppsNonfinish ≠ 0 → cfg.appRestart = true →
        app < numApps) := by
  have hused : ∀ m, TablesRight files numApps { s.useInfo app with manager := m } ↔ TablesRight files numApps s :=
    tablesRight_useInfo happ
  unfold FileManager.endRun
  dsimp only
  cases hfirst : cfg.stopWithFirstApp with
  | true =>
    rw [if_pos rfl]
    exact (hused _).trans ⟨fun hright => ⟨hright, fun hno => by cases hno⟩, And.left⟩
  | false =>
    rw [if_neg Bool.false_ne_true]
    by_cases hzero : (s.manager.completeRun app).numAppsNonfinish = 0
    · rw [if_pos hzero]
      exact (hused _).trans ⟨fun hright => ⟨hright, fun _ hno => absurd hzero hno⟩, And.left⟩
    · rw [if_neg hzero]
      cases hrestart : cfg.appRestart with
      | false =>
        rw [if_neg Bool.false_ne_true]
        exact (hused _).trans ⟨fun hright => ⟨hright, fun _ _ hno => by cases hno⟩, And.left⟩
      | true =>
        have hfixed : TablesFixed files numApps { s.useInfo app with manager := s.manager.completeRun app } :=
          h.useInfo (Manager.length_completeRun ..) fun hne => by rwa [Manager.threads_completeRun] at hne
        rw [if_pos rfl, tablesRight_restart hfixed (by
          change app < (s.manager.completeRun app).apps.length
          rw [Manager.length_completeRun]
          exact happ), hused]
        exact and_congr_right fun _ => ⟨fun hlt _ _ _ => hlt, fun hlt => hlt rfl hzero rfl⟩

/-- When `signalDone` starts a run again. -/
structure RestartsRun (cfg : Config) (s : Manager) (th : TraceThread) (aborted : Bool) : Prop where
  aborted : aborted = false
  stopped : th.stopped = false
  last : (s.info th.app).numThreads ≤ 1
  firstApp : cfg.stopWithFirstApp = false
  nonfinish : (if (s.info th.app).numRuns = 0 then s.numAppsNonfinish - 1 else s.numAppsNonfinish) ≠ 0
  restart : cfg.appRestart = true

/-- `signalDone` uses the tables of files only to start a run again. -/
theorem tablesRight_signalDone (h : TablesFixed files numApps s) {u : ℕ} {aborted : Bool} {th : TraceThread}
    (hu : s.manager.threads[u]? = some th) (happ : th.app < s.manager.apps.length) :
    TablesRight files numApps (s.signalDone cfg u aborted) ↔
      TablesRight files numApps s ∧ (RestartsRun cfg s.manager th aborted → th.app < numApps) := by
  have hinfo : (s.manager.countOut u th.app).info th.app = _ := Manager.info_countOut happ
  rw [if_pos rfl] at hinfo
  unfold FileManager.signalDone
  rw [hu]
  dsimp only
  cases hstopped : th.stopped with
  | true =>
    rw [if_pos rfl]
    exact ⟨fun hright => ⟨hright, fun hrun => absurd (hstopped.symm.trans hrun.stopped) (by decide)⟩, And.left⟩
  | false =>
    rw [if_neg Bool.false_ne_true]
    have hused : TablesRight files numApps { s.useInfo th.app with manager := s.manager.countOut u th.app } ↔
        TablesRight files numApps s := tablesRight_useInfo happ _
    by_cases hlast : aborted = false ∧ ((s.manager.countOut u th.app).info th.app).numThreads = 0
    · have hfixed : TablesFixed files numApps { s.useInfo th.app with manager := s.manager.countOut u th.app } :=
        h.useInfo (Manager.length_countOut ..) fun _ hnil => by rw [hnil] at hu; cases hu
      have happ' : th.app < (s.manager.countOut u th.app).apps.length := by
        rw [Manager.length_countOut]
        exact happ
      have hend := tablesRight_endRun cfg hfixed happ'
      have hnonfinish : ((s.manager.countOut u th.app).completeRun th.app).numAppsNonfinish =
          if (s.manager.info th.app).numRuns = 0 then s.manager.numAppsNonfinish - 1
          else s.manager.numAppsNonfinish := by
        rw [numAppsNonfinish_completeRun (by rw [Manager.length_countOut]; exact happ), hinfo]
        rfl
      rw [if_pos hlast]
      refine (tablesRight_congr (s := FileManager.endRun cfg th.app _) rfl rfl).trans (hend.trans ?_)
      rw [hused, hnonfinish]
      refine and_congr_right fun _ => ⟨fun hlt hrun => hlt hrun.firstApp hrun.nonfinish hrun.restart, ?_⟩
      intro hlt hfirst hnon hrestart
      have hone := hlast.2
      rw [hinfo] at hone
      exact hlt ⟨hlast.1, hstopped, Nat.sub_eq_zero_iff_le.1 hone, hfirst, hnon, hrestart⟩
    · rw [if_neg hlast]
      refine (tablesRight_congr rfl rfl).trans (hused.trans ⟨fun hright => ⟨hright, fun hrun => ?_⟩, And.left⟩)
      refine absurd ⟨hrun.aborted, ?_⟩ hlast
      rw [hinfo]
      exact Nat.sub_eq_zero_of_le hrun.last

/-- The condition of a step in terms of the thread. -/
theorem restartsForked_iff {th : TraceThread} (hth : s.manager.threads[e.thread]? = some th) :
    restartsForked cfg numApps s e = true ↔
      e.action = .done ∧ th.phase = .leaving false ∧ RestartsRun cfg s.manager th false ∧ numApps ≤ th.app := by
  unfold restartsForked
  rw [hth]
  simp only [decide_eq_true_eq, Bool.not_eq_true]
  constructor
  · rintro ⟨haction, hphase, hstopped, hlast, hforked, hrestart, hfirst, hnon⟩
    exact ⟨haction, hphase, ⟨rfl, hstopped, hlast, hfirst, hnon, hrestart⟩, hforked⟩
  · rintro ⟨haction, hphase, hrun, hforked⟩
    exact ⟨haction, hphase, hrun.stopped, hrun.last, hforked, hrun.restart, hrun.firstApp, hrun.nonfinish⟩

/-! ### Steps and runs -/

/-- No function takes an application away. -/
theorem length_apps_step {m m' : Manager} (h : Trace.step cfg m e = .ok m') : m.apps.length ≤ m'.apps.length := by
  have hend : ∀ (m : Manager) (a : ℕ), (m.endRun cfg a).apps.length = m.apps.length := by
    intro m a
    unfold Manager.endRun
    dsimp only
    split
    · exact Manager.length_completeRun
    · split
      · exact Manager.length_completeRun
      · split
        · rw [Manager.length_newThread, Manager.length_completeRun]
        · exact Manager.length_completeRun
  have hdone : ∀ u aborted, (m.signalDone cfg u aborted).apps.length = m.apps.length := by
    intro u aborted
    unfold Manager.signalDone
    split
    · rfl
    · split
      · rfl
      · dsimp only
        split
        · rw [hend, Manager.length_countOut]
        · exact Manager.length_countOut
  obtain ⟨th, -, hcase⟩ := Trace.step_cases h
  obtain ⟨-, -, rfl⟩ | rfl | ⟨p, rfl⟩ | ⟨i, p, rfl⟩ | ⟨i, size, p, -, -, rfl⟩ | ⟨aborted, p, -, -, rfl⟩ := hcase
  · exact Manager.length_newThread.ge
  · rw [Manager.createApplication, Manager.length_newThread, List.length_append]
    exact Nat.le_add_right _ _
  · exact le_rfl
  · exact le_rfl
  · exact (hdone i true).ge
  · exact (hdone e.thread aborted).ge

/-- The tables of files stay as they are. -/
theorem TablesFixed.step (h : TablesFixed files numApps s) (he : s.step cfg e = .ok s') :
    TablesFixed files numApps s' := by
  have hmanager := FileManager.manager_step he
  have happs := h.apps.trans (length_apps_step hmanager)
  have hend : ∀ (s : FileManager) (a : ℕ), (s.endRun cfg a).tracePrefix = s.tracePrefix ∧
      (s.endRun cfg a).tracefiles = s.tracefiles ∧ (s.endRun cfg a).responsefiles = s.responsefiles := by
    intro s a
    unfold FileManager.endRun
    dsimp only
    split
    · exact ⟨rfl, rfl, rfl⟩
    · split
      · exact ⟨rfl, rfl, rfl⟩
      · split <;> exact ⟨rfl, rfl, rfl⟩
  have hdone : ∀ u aborted, (s.signalDone cfg u aborted).tracePrefix = s.tracePrefix ∧
      (s.signalDone cfg u aborted).tracefiles = s.tracefiles ∧
      (s.signalDone cfg u aborted).responsefiles = s.responsefiles := by
    intro u aborted
    unfold FileManager.signalDone
    split
    · exact ⟨rfl, rfl, rfl⟩
    · split
      · exact ⟨rfl, rfl, rfl⟩
      · dsimp only
        split
        · exact hend _ _
        · exact ⟨rfl, rfl, rfl⟩
  obtain ⟨th, hth, hcase⟩ := FileManager.step_cases he
  have hpos : 0 < numApps := h.threads fun hnil => by rw [hnil] at hth; cases hth
  have hsame : s'.tracePrefix = s.tracePrefix ∧ s'.tracefiles = s.tracefiles ∧ s'.responsefiles = s.responsefiles := by
    obtain ⟨-, rfl⟩ | ⟨-, rfl⟩ | ⟨i, p, -, rfl⟩ | ⟨aborted, p, -, -, rfl⟩ | ⟨-, m, rfl⟩ := hcase
    · exact ⟨rfl, rfl, rfl⟩
    · exact ⟨rfl, rfl, rfl⟩
    · exact hdone i true
    · exact hdone e.thread aborted
    · exact ⟨rfl, rfl, rfl⟩
  exact ⟨hsame.1.trans h.tracePrefix, hsame.2.1.trans h.tracefiles, hsame.2.2.trans h.responsefiles, happs, fun _ => hpos⟩

/-- A step uses the tables rightly unless it starts a forked application again. -/
theorem tablesRight_step (h : TablesFixed files numApps s) (hc : Counts s.manager) (he : s.step cfg e = .ok s') :
    TablesRight files numApps s' ↔ TablesRight files numApps s ∧ restartsForked cfg numApps s e = false := by
  obtain ⟨th, hth, hcase⟩ := FileManager.step_cases he
  have happ := hc.app th (List.mem_of_getElem? hth)
  have hpos : 0 < numApps := h.threads fun hnil => by rw [hnil] at hth; cases hth
  -- only `signalDone` at the end of `run` can start a forked application again
  have hother : e.action ≠ .done → (TablesRight files numApps s' ↔ TablesRight files numApps s) →
      (TablesRight files numApps s' ↔ TablesRight files numApps s ∧ restartsForked cfg numApps s e = false) := by
    intro haction hiff
    have hfalse : restartsForked cfg numApps s e = false := by
      rw [← Bool.not_eq_true, restartsForked_iff hth]
      exact fun hrun => haction hrun.1
    rw [hiff, hfalse]
    exact (and_iff_left rfl).symm
  obtain ⟨haction, rfl⟩ | ⟨haction, rfl⟩ | ⟨i, p, haction, rfl⟩ | ⟨aborted, p, haction, hphase, rfl⟩ |
    ⟨haction, m, rfl⟩ := hcase
  · exact hother (by rw [haction]; decide) (tablesRight_createThread happ)
  · exact hother (by rw [haction]; decide) (tablesRight_createApplication h hpos)
  · refine hother (by rw [haction]; decide) ((tablesRight_congr (s := s.signalDone cfg i true) rfl rfl).trans ?_)
    cases hu : s.manager.threads[i]? with
    | none =>
      unfold FileManager.signalDone
      rw [hu]
    | some other =>
      rw [tablesRight_signalDone h hu (hc.app other (List.mem_of_getElem? hu))]
      exact and_iff_left fun hrun => by cases hrun.aborted
  · refine (tablesRight_congr (s := s.signalDone cfg e.thread aborted) rfl rfl).trans ?_
    rw [tablesRight_signalDone h hth happ, ← Bool.not_eq_true, restartsForked_iff hth]
    refine and_congr_right fun _ => ⟨fun hlt hrun => absurd (hlt ?_) (Nat.not_lt.2 hrun.2.2.2), fun hnot hrun => ?_⟩
    · have haborted : aborted = false := by
        have hsame := hphase.symm.trans hrun.2.1
        exact Phase.leaving.inj hsame
      exact haborted ▸ hrun.2.2.1
    · have haborted := hrun.aborted
      subst haborted
      by_contra hge
      exact hnot ⟨haction, hphase, hrun, Nat.not_lt.1 hge⟩
  · exact hother haction (tablesRight_congr rfl rfl)

/-- `init` starts each application with its files. -/
theorem tables_init (files : FileConfig) (numApps : ℕ) :
    (FileManager.init files numApps).manager = Trace.init numApps ∧
      TablesFixed files numApps (FileManager.init files numApps) ∧
      TablesRight files numApps (FileManager.init files numApps) := by
  have hsome : ∀ k ≤ numApps,
      ((List.range k).foldl (fun s app => s.newThread app true false) (FileManager.constructed files numApps)).manager =
        (List.range k).foldl (fun s app => s.newThread app true) (Trace.constructed numApps) ∧
      TablesFixed files numApps ((List.range k).foldl (fun s app => s.newThread app true false)
        (FileManager.constructed files numApps)) ∧
      TablesRight files numApps ((List.range k).foldl (fun s app => s.newThread app true false)
        (FileManager.constructed files numApps)) := by
    intro k
    induction k with
    | zero =>
      intro _
      refine ⟨rfl, ⟨rfl, rfl, rfl, ?_, fun hne => absurd rfl hne⟩, ⟨?_, ?_⟩⟩
      · exact (List.length_replicate ..).ge
      · intro u hu
        cases hu
      · intro th hth
        cases hth
    | succ k ih =>
      intro hk
      obtain ⟨hmanager, hfixed, hright⟩ := ih (by omega)
      simp only [List.range_succ, List.foldl_append, List.foldl_cons, List.foldl_nil]
      refine ⟨?_, ⟨hfixed.tracePrefix, hfixed.tracefiles, hfixed.responsefiles, ?_, fun _ => by omega⟩, ?_⟩
      · rw [FileManager.manager_newThread, hmanager]
      · rw [FileManager.manager_newThread, Manager.length_newThread]
        exact hfixed.apps
      · exact (tablesRight_restart hfixed (hk.trans hfixed.apps)).2 ⟨hright, hk⟩
  exact hsome numApps le_rfl

/-- From a state of a run on. -/
theorem tablesRight_run {es : List Event} (h : TablesFixed files numApps s) (hc : Counts s.manager)
    (hrun : (fileFrontEnd cfg).run s es = .ok s') : TablesRight files numApps s' ↔
      TablesRight files numApps s ∧
        (fileFrontEnd cfg).Guarded (fun s e => (!restartsForked cfg numApps s e) = true) s es := by
  induction es generalizing s with
  | nil =>
    cases hrun
    exact (and_iff_left trivial).symm
  | cons e es ih =>
    obtain ⟨t, ht, hrest⟩ := (fileFrontEnd cfg).run_cons_ok hrun
    rw [ih (h.step ht) (hc.step (FileManager.manager_step ht)) hrest, tablesRight_step h hc ht, and_assoc,
      ← Bool.not_eq_true']
    refine and_congr_right fun _ => and_congr_right fun _ => ⟨fun hg t' ht' => ?_, fun hg => hg t ht⟩
    have heq := ht'.symm.trans ht
    cases heq
    exact hg

end Right

/-- A run uses the tables inside their bounds and starts every application with its own files if and only if no step of
it starts a forked application again. -/
theorem tables_right_iff (cfg : Config) (files : FileConfig) (numApps : ℕ) (es : List Event) (s : FileManager)
    (h : (fileFrontEnd cfg).run (FileManager.init files numApps) es = .ok s) :
    TablesRight files numApps s ↔ (fileFrontEnd cfg).Guarded (fun s e => (!restartsForked cfg numApps s e) = true)
      (FileManager.init files numApps) es := by
  obtain ⟨hmanager, hfixed, hright⟩ := tables_init files numApps
  rw [tablesRight_run hfixed (hmanager ▸ counts_init numApps) h]
  exact and_iff_right hright

/-- Two applications, one of which is started again. -/
def restartRun : List Event := [⟨0, .createThread⟩, ⟨2, .leave⟩, ⟨2, .done⟩, ⟨0, .leave⟩, ⟨0, .done⟩]

theorem tables_right_restartRun : TablesRight ⟨"trace", fun _ => ""⟩ 2
    ((fileFrontEnd ⟨false, true⟩).final (FileManager.init ⟨"trace", fun _ => ""⟩ 2) restartRun) :=
  (tables_right_iff ⟨false, true⟩ ⟨"trace", fun _ => ""⟩ 2 restartRun _ (Machine.run_final _ (by decide +kernel))).2
    (Machine.Guarded.of_follows (by decide +kernel))

/-- An application forks another one, which ends and is started again. -/
def forkedRestartRun : List Event := [⟨0, .createApplication⟩, ⟨1, .leave⟩, ⟨1, .done⟩]

/-- Index 1 is used in tables of size 1. -/
theorem tables_outside_forkedRestartRun : ∃ s,
    (fileFrontEnd ⟨false, true⟩).run (FileManager.init ⟨"trace", fun _ => ""⟩ 1) forkedRestartRun = .ok s ∧
      ¬ TablesRight ⟨"trace", fun _ => ""⟩ 1 s := by
  refine ⟨_, Machine.run_final _ (by decide +kernel), fun h => ?_⟩
  have huse : (⟨.tracefiles, 1, 1⟩ : TableUse) ∈ ((fileFrontEnd ⟨false, true⟩).final
      (FileManager.init ⟨"trace", fun _ => ""⟩ 1) forkedRestartRun).uses := by
    decide +kernel
  exact absurd (h.1 _ huse) (Nat.lt_irrefl 1)

end LifeSim.Trace
