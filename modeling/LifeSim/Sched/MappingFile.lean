import LifeSim.Sched.Bounds
import LifeSim.Sched.HyperPeriod

/-!
# The round-robin mapping file and its reader

`make_round_robin` in `install_config.py` writes one line for each thread, and `SchedulerPinned` reads them into
`core_thread_map`, from which the threads get their cores in the order of their creation.

The loop that collects the numbers of threads goes over `app_list` with a variable of its own and splits another one:
the variable of the loop before, which still holds the last application. So every application is written with
the number of threads of the last one.
-/

namespace LifeSim.Sched

open LifeSim.Lib

/-- An element of `app_list`, split at its dashes. -/
structure AppEntry where
  benchmark : String
  name : String
  numThreads : ℕ
  deriving DecidableEq, Repr

/-- The variable `app` after the loop of the module over `app_list`. -/
def loopVariable (appList : List AppEntry) : Option AppEntry := appList.foldl (fun _ app => some app) none

/-- `threads_per_app` in `make_round_robin`. -/
def threadsPerApp (appList : List AppEntry) : List ℕ :=
  appList.map fun _ => match loopVariable appList with
    | some app => app.numThreads
    | none => 0

/-- `core_id` and the lines of the file: a core, an application and a thread. -/
structure MappingWriter where
  coreId : ℕ
  lines : List (ℕ × ℕ × ℕ)
  deriving DecidableEq, Repr

/-- The body of the inner loop. -/
def writeThread (numCores appId : ℕ) (w : MappingWriter) (i : ℕ) : MappingWriter where
  coreId := if w.coreId + 1 = numCores then 0 else w.coreId + 1
  lines := w.lines ++ [(w.coreId, appId, i)]

/-- The inner loop. -/
def writeApp (numCores : ℕ) (w : MappingWriter) (app : ℕ × ℕ) : MappingWriter :=
  (List.range app.1).foldl (writeThread numCores app.2) w

/-- `make_round_robin`. -/
def makeRoundRobin (numCores : ℕ) (appList : List AppEntry) : List (ℕ × ℕ × ℕ) :=
  ((threadsPerApp appList).zipIdx.foldl (writeApp numCores) ⟨0, []⟩).lines

/-- `core_thread_map` after the constructor of `SchedulerPinned`. -/
def readMapping (file : List (ℕ × ℕ × ℕ)) : ℕ → ℕ → Option ℕ := insertLines 0 (fun _ _ => none) file

/-- The threads of these applications are created in this order. -/
def createThreads (cfg : Config) (clock : ℕ → ℕ) (file : List (ℕ × ℕ × ℕ)) (apps : List ℕ) : Except Fault Sim :=
  apps.foldlM (createThread cfg clock) (initial (readMapping file))

/-- Thread `t` is the thread `j` of application `i` in the order of creation. -/
def IsThread (apps : List ℕ) (t i j : ℕ) : Prop := apps[t]? = some i ∧ (apps.take t).count i = j

/-- The file has one line for each thread of an application, and the lines go around the cores. -/
structure FileRight (numCores : ℕ) (appList : List AppEntry) (file : List (ℕ × ℕ × ℕ)) : Prop where
  once : (file.map (·.2)).Nodup
  threads : ∀ i j, (i, j) ∈ file.map (·.2) ↔ ∃ app, appList[i]? = some app ∧ j < app.numThreads
  cores : ∀ k line, file[k]? = some line → line.1 = k % numCores

/-- The scheduler has a mapping file and takes the applications of the list in its first hyper-period. -/
structure ReadsMapping (cfg : Config) (numCores numListed : ℕ) : Prop where
  policy : cfg.policy = .pinned
  modified : cfg.modifiedCode = true
  cores : cfg.numCores = numCores
  apps : numListed ≤ cfg.numApps
  period : cfg.periodicWorkload = true → cfg.numAppPerHyperPeriod = numListed

/-- The threads of the list get the cores of their lines, and of two of them that share a core there are more threads
than cores. -/
structure AffinityRight (numCores : ℕ) (appList : List AppEntry) (file : List (ℕ × ℕ × ℕ)) (cfg : Config)
    (apps : List ℕ) (s : Sim) : Prop where
  line : ∀ t i j app, IsThread apps t i j → appList[i]? = some app → j < app.numThreads →
    ∃ core, (core, i, j) ∈ file ∧ ∀ c, (s.info.get t).affinity c = true ↔ c = core
  apart : (appList.map (·.numThreads)).sum ≤ numCores → ∀ t t' i i' j j' app app' c, IsThread apps t i j →
    IsThread apps t' i' j' → appList[i]? = some app → j < app.numThreads → appList[i']? = some app' →
    j' < app'.numThreads → (s.info.get t).affinity c = true → (s.info.get t').affinity c = true → t = t'

/-- The generator and the reader together. -/
structure RoundRobinRight (numCores : ℕ) (appList : List AppEntry) : Prop where
  file : FileRight numCores appList (makeRoundRobin numCores appList)
  affinity : ∀ cfg clock apps, ReadsMapping cfg numCores appList.length → (∀ a ∈ apps, a < cfg.numApps) →
    ∃ s, createThreads cfg clock (makeRoundRobin numCores appList) apps = .ok s ∧
      AffinityRight numCores appList (makeRoundRobin numCores appList) cfg apps s

/-! ### The writer -/

/-- The keys of the lines, in their order: application and thread. -/
def lineKeys (counts : List ℕ) : List (ℕ × ℕ) :=
  counts.zipIdx.flatMap fun app => (List.range app.1).map fun j => (app.2, j)

variable {numCores : ℕ} {w : MappingWriter} {appList : List AppEntry}

/-- `core_id` is the number of lines modulo the number of cores, and each line names the core of its number. -/
structure Numbered (numCores : ℕ) (w : MappingWriter) : Prop where
  coreId : w.coreId = w.lines.length % numCores
  cores : ∀ k line, w.lines[k]? = some line → line.1 = k % numCores

/-- One more line, and `core_id` goes on. -/
theorem Numbered.writeThread (h : Numbered numCores w) (hcores : 0 < numCores) (app i : ℕ) :
    Numbered numCores (writeThread numCores app w i) where
  coreId := by
    have hlt := Nat.mod_lt w.lines.length hcores
    have hdiv := Nat.div_add_mod w.lines.length numCores
    change (if w.coreId + 1 = numCores then 0 else w.coreId + 1) = (w.lines ++ [(w.coreId, app, i)]).length % numCores
    rw [h.coreId, List.length_append, List.length_singleton]
    split
    · rename_i hwrap
      have hmul : w.lines.length + 1 = numCores * (w.lines.length / numCores + 1) := by
        rw [Nat.mul_add, Nat.mul_one]
        omega
      rw [hmul, Nat.mul_mod_right]
    · rename_i hnext
      have hmul : w.lines.length + 1 =
          numCores * (w.lines.length / numCores) + (w.lines.length % numCores + 1) := by omega
      rw [hmul, Nat.mul_add_mod]
      exact (Nat.mod_eq_of_lt (by omega)).symm
  cores k line hline := by
    change (w.lines ++ [(w.coreId, app, i)])[k]? = some line at hline
    rw [List.getElem?_append] at hline
    split at hline
    · exact h.cores k line hline
    · rename_i hk
      have hzero : k - w.lines.length = 0 := by
        by_contra hne
        rw [List.getElem?_eq_none (by simp; omega)] at hline
        cases hline
      rw [hzero] at hline
      cases hline
      rw [h.coreId, show k = w.lines.length by omega]

/-- The inner loop writes the lines of one application. -/
theorem writeApp_spec (h : Numbered numCores w) (hcores : 0 < numCores) (app : ℕ × ℕ) :
    Numbered numCores (writeApp numCores w app) ∧
      (writeApp numCores w app).lines.map (·.2) = w.lines.map (·.2) ++ (List.range app.1).map fun j => (app.2, j) := by
  obtain ⟨n, i⟩ := app
  unfold writeApp
  dsimp only
  induction n with
  | zero => exact ⟨h, (List.append_nil _).symm⟩
  | succ n ih =>
    obtain ⟨hnum, hkeys⟩ := ih
    rw [List.range_succ, List.foldl_append, List.foldl_cons, List.foldl_nil]
    refine ⟨hnum.writeThread hcores i n, ?_⟩
    rw [List.map_append, List.map_singleton, ← List.append_assoc, ← hkeys]
    exact List.map_append

/-- The outer loop. -/
theorem writeApps_spec (h : Numbered numCores w) (hcores : 0 < numCores) (apps : List (ℕ × ℕ)) :
    Numbered numCores (apps.foldl (writeApp numCores) w) ∧
      (apps.foldl (writeApp numCores) w).lines.map (·.2) =
        w.lines.map (·.2) ++ apps.flatMap fun app => (List.range app.1).map fun j => (app.2, j) := by
  induction apps generalizing w with
  | nil => exact ⟨h, (List.append_nil _).symm⟩
  | cons app apps ih =>
    obtain ⟨hnum, hkeys⟩ := writeApp_spec h hcores app
    obtain ⟨hall, hrest⟩ := ih hnum
    refine ⟨hall, ?_⟩
    rw [List.foldl_cons, hrest, hkeys, List.flatMap_cons, List.append_assoc]

/-- The lines of the file: their keys and their cores. -/
theorem makeRoundRobin_spec (hcores : 0 < numCores) (appList : List AppEntry) :
    (makeRoundRobin numCores appList).map (·.2) = lineKeys (threadsPerApp appList) ∧
      ∀ k line, (makeRoundRobin numCores appList)[k]? = some line → line.1 = k % numCores := by
  have hstart : Numbered numCores ⟨0, []⟩ := ⟨(Nat.zero_mod _).symm, fun k line h => by cases h⟩
  obtain ⟨hnum, hkeys⟩ := writeApps_spec hstart hcores (threadsPerApp appList).zipIdx
  exact ⟨hkeys, hnum.cores⟩

/-- The keys are the threads of the applications, -/
theorem mem_lineKeys {counts : List ℕ} {i j : ℕ} : (i, j) ∈ lineKeys counts ↔ ∃ n, counts[i]? = some n ∧ j < n := by
  unfold lineKeys
  rw [List.mem_flatMap]
  constructor
  · rintro ⟨⟨n, a⟩, hmem, hkey⟩
    obtain ⟨b, hb, heq⟩ := List.mem_map.1 hkey
    cases heq
    exact ⟨n, List.mk_mem_zipIdx_iff_getElem?.1 hmem, List.mem_range.1 hb⟩
  · rintro ⟨n, hn, hj⟩
    exact ⟨(n, i), List.mk_mem_zipIdx_iff_getElem?.2 hn, List.mem_map.2 ⟨j, List.mem_range.2 hj, rfl⟩⟩

/-- each once. -/
theorem nodup_lineKeys (counts : List ℕ) : (lineKeys counts).Nodup := by
  unfold lineKeys
  rw [List.nodup_flatMap]
  constructor
  · intro app _
    exact List.nodup_range.map fun a b h => (Prod.mk.inj h).2
  · have happs : (counts.zipIdx.map Prod.snd).Nodup := by
      rw [List.zipIdx_map_snd]
      exact List.nodup_range'
    refine (List.pairwise_map.1 happs).imp fun {a b} hne => ?_
    intro key ha hb
    obtain ⟨x, -, rfl⟩ := List.mem_map.1 ha
    obtain ⟨y, -, heq⟩ := List.mem_map.1 hb
    exact hne (Prod.mk.inj heq).1.symm

/-- The variable of the loop holds the last element. -/
theorem loopVariable_eq (appList : List AppEntry) : loopVariable appList = appList.getLast? := by
  induction appList using List.reverseRecOn with
  | nil => rfl
  | append_singleton appList app _ =>
    rw [loopVariable, List.foldl_append, List.foldl_cons, List.foldl_nil, List.getLast?_concat]

/-- The file is right exactly if all applications have as many threads as the last one. -/
theorem fileRight_iff (hcores : 0 < numCores) : FileRight numCores appList (makeRoundRobin numCores appList) ↔
    ∀ app ∈ appList, some app.numThreads = appList.getLast?.map (·.numThreads) := by
  obtain ⟨hkeys, hnum⟩ := makeRoundRobin_spec hcores appList
  have hcount : ∀ (i : ℕ) (last : AppEntry), appList.getLast? = some last →
      (threadsPerApp appList)[i]? = appList[i]?.map fun _ => last.numThreads := by
    intro i last hlast
    rw [threadsPerApp, List.getElem?_map, loopVariable_eq, hlast]
  constructor
  · intro hfile app happ
    obtain ⟨i, hi⟩ := List.mem_iff_getElem?.1 happ
    cases hlast : appList.getLast? with
    | none =>
      rw [List.getLast?_eq_none_iff.1 hlast] at happ
      cases happ
    | some last =>
      have hiff : ∀ j, j < last.numThreads ↔ j < app.numThreads := by
        intro j
        have hmem := hfile.threads i j
        rw [hkeys, mem_lineKeys, hcount i last hlast, hi] at hmem
        simpa using hmem
      have hle := hiff last.numThreads
      have hge := hiff app.numThreads
      have heq : app.numThreads = last.numThreads := by omega
      rw [heq]
      rfl
  · intro hsame
    refine ⟨hkeys ▸ nodup_lineKeys _, fun i j => ?_, hnum⟩
    rw [hkeys, mem_lineKeys]
    cases hlast : appList.getLast? with
    | none =>
      rw [List.getLast?_eq_none_iff.1 hlast]
      simp [threadsPerApp]
    | some last =>
      rw [hcount i last hlast]
      cases hi : appList[i]? with
      | none => simp
      | some app =>
        have heq := hsame app (List.mem_of_getElem? hi)
        rw [hlast] at heq
        simp [Option.some.inj heq]

/-! ### The reader -/

variable {cfg : Config} {clock : ℕ → ℕ} {map : ℕ → ℕ → Option ℕ} {created : List ℕ} {s s' a : Sim} {app : ℕ}

/-- The scheduler's tables after the creation of these threads. -/
structure Tallied (cfg : Config) (map : ℕ → ℕ → Option ℕ) (created : List ℕ) (s : Sim) : Prop where
  num : s.numThreads = created.length
  period : s.hyperPeriodNumber = 0
  count : ∀ a, s.currentThreadCount a = created.count a
  mapped : ∀ a r c, map a r = some c → s.coreThreadMap a r = some c
  bounded : ∀ a r c, s.coreThreadMap a r = some c → c < cfg.numCores
  fresh : ∀ t, created.length ≤ t → (s.info.get t).hasAffinity = false
  size : created.length ≤ s.info.size
  pinned : ∀ t a j core, IsThread created t a j → map a j = some core → ¬ heldBack cfg s a →
    ∀ c, (s.info.get t).affinity c = true ↔ c = core

/-- Moving threads does not matter. -/
theorem Tallied.of_frame (h : Tallied cfg map created s) (hf : Frame s s') : Tallied cfg map created s' := by
  have hperiod : s'.hyperPeriodNumber = s.hyperPeriodNumber := congrArg (·.hyperPeriodNumber) hf.fixed
  have hcounts : s'.currentThreadCount = s.currentThreadCount := congrArg (·.currentThreadCount) hf.fixed
  have hmap : s'.coreThreadMap = s.coreThreadMap := congrArg (·.coreThreadMap) hf.fixed
  refine ⟨hf.numThreads.trans h.num, hperiod.trans h.period, fun a => ?_, fun a r c hc => ?_, fun a r c hc => ?_,
    fun t ht => ?_, ?_, fun t a j core ht hcore hheld => ?_⟩
  · rw [hcounts]
    exact h.count a
  · rw [hmap]
    exact h.mapped a r c hc
  · rw [hmap] at hc
    exact h.bounded a r c hc
  · rw [hf.hasAffinity]
    exact h.fresh t ht
  · rw [hf.info_size]
    exact h.size
  · rw [hf.affinity]
    refine h.pinned t a j core ht hcore fun hback => hheld ?_
    rw [heldBack, hperiod]
    exact hback

/-- A thread that was created before has the same number in its application. -/
theorem isThread_append {t i j : ℕ} : IsThread (created ++ [app]) t i j ↔
    IsThread created t i j ∨ t = created.length ∧ i = app ∧ j = created.count app := by
  unfold IsThread
  rw [List.getElem?_append]
  split
  · rename_i hlt
    rw [List.take_append_of_le_length hlt.le]
    constructor
    · exact .inl
    · rintro (h | ⟨rfl, -⟩)
      · exact h
      · exact absurd hlt (Nat.lt_irrefl _)
  · rename_i hge
    rw [List.getElem?_eq_none (Nat.not_lt.1 hge)]
    by_cases hlast : t = created.length
    · subst hlast
      rw [Nat.sub_self, List.take_left']
      · constructor
        · rintro ⟨hi, hj⟩
          cases hi
          exact .inr ⟨rfl, rfl, hj.symm⟩
        · rintro (⟨h, -⟩ | ⟨-, rfl, rfl⟩)
          · cases h
          · exact ⟨rfl, rfl⟩
      · rfl
    · have hnone : ([app] : List ℕ)[t - created.length]? = none := List.getElem?_eq_none (by simp; omega)
      rw [hnone]
      constructor
      · rintro ⟨h, -⟩
        cases h
      · rintro (⟨h, -⟩ | ⟨h, -⟩)
        · cases h
        · exact absurd h hlast

/-- The state in which `threadCreate` finds a new thread. -/
def born (s : Sim) (app : ℕ) : Sim :=
  growInfo (({ s with
    numThreads := s.numThreads + 1
    appId := Function.update s.appId s.numThreads app } : Sim).setStatus s.numThreads .initializing) s.numThreads

/-- Where `m_thread_info` grows, it grows by threads without an affinity. -/
theorem born_spec (h : Tallied cfg map created s) (app : ℕ) : (born s app).numThreads = created.length + 1 ∧
    (born s app).hyperPeriodNumber = 0 ∧ (born s app).currentThreadCount = s.currentThreadCount ∧
    (born s app).coreThreadMap = s.coreThreadMap ∧ created.length < (born s app).info.size ∧
    (born s app).appId created.length = app ∧
    (∀ t, created.length ≤ t → ((born s app).info.get t).hasAffinity = false) ∧
    ∀ t < created.length, (born s app).info.get t = s.info.get t := by
  have hsize := h.size
  unfold born growInfo
  split
  · rename_i hgrow
    change s.info.size ≤ s.numThreads at hgrow
    rw [h.num] at hgrow
    refine ⟨by rw [← h.num]; rfl, h.period, rfl, rfl, ?_, ?_, fun t ht => ?_, fun t ht => ?_⟩
    · change created.length < s.info.size + 16
      omega
    · change Function.update s.appId s.numThreads app created.length = app
      rw [h.num, Function.update_self]
    · change (if t < s.info.size then s.info.get t else ThreadInfo.fresh).hasAffinity = false
      rw [if_neg (by omega)]
      rfl
    · change (if t < s.info.size then s.info.get t else ThreadInfo.fresh) = _
      rw [if_pos (by omega)]
  · rename_i hgrow
    change ¬ s.info.size ≤ s.numThreads at hgrow
    rw [h.num] at hgrow
    refine ⟨by rw [← h.num]; rfl, h.period, rfl, rfl, Nat.not_le.1 hgrow, ?_, fun t ht => h.fresh t ht, fun t _ => rfl⟩
    change Function.update s.appId s.numThreads app created.length = app
    rw [h.num, Function.update_self]

/-- One more thread in the tables. -/
theorem Tallied.append (h : Tallied cfg map created s) (hnum : a.numThreads = created.length + 1)
    (hperiod : a.hyperPeriodNumber = 0)
    (hcount : a.currentThreadCount = Function.update s.currentThreadCount app (created.count app + 1))
    (hmapped : ∀ x r c, s.coreThreadMap x r = some c → a.coreThreadMap x r = some c)
    (hbounded : ∀ x r c, a.coreThreadMap x r = some c → c < cfg.numCores) (hsize : created.length < a.info.size)
    (hfresh : ∀ t, created.length + 1 ≤ t → (a.info.get t).hasAffinity = false)
    (hsame : ∀ t < created.length, (a.info.get t).affinity = (s.info.get t).affinity)
    (hnew : ∀ core, map app (created.count app) = some core → ¬ heldBack cfg s app →
      ∀ c, (a.info.get created.length).affinity c = true ↔ c = core) :
    Tallied cfg map (created ++ [app]) a := by
  have hlength : (created ++ [app]).length = created.length + 1 := by rw [List.length_append, List.length_singleton]
  have hheld : ∀ x, heldBack cfg a x ↔ heldBack cfg s x := by
    intro x
    rw [heldBack, heldBack, hperiod, h.period]
  refine ⟨hnum.trans hlength.symm, hperiod, fun x => ?_, fun x r c hc => hmapped x r c (h.mapped x r c hc), hbounded,
    fun t ht => hfresh t (hlength ▸ ht), hlength ▸ hsize, fun t x j core ht hcore hback => ?_⟩
  · rw [hcount, List.count_append]
    by_cases hx : x = app
    · subst hx
      rw [Function.update_self, List.count_singleton_self]
    · rw [Function.update_of_ne hx, h.count, List.count_singleton]
      simp [Ne.symm hx]
  · rw [hheld] at hback
    rcases isThread_append.1 ht with ht | ⟨rfl, rfl, rfl⟩
    · obtain ⟨hlt, -⟩ := List.getElem?_eq_some_iff.1 ht.1
      rw [hsame t hlt]
      exact h.pinned t x j core ht hcore hback
    · exact hnew core hcore hback

/-- `threadCreate` never fails here, and puts the thread in the tables. -/
theorem threadCreate_tallied (hpolicy : cfg.policy = .pinned) (hmodified : cfg.modifiedCode = true)
    (hcores : 0 < cfg.numCores) (h : Tallied cfg map created s) (happ : app < cfg.numApps) :
    Ensures (threadCreate cfg clock (({ s with
        numThreads := s.numThreads + 1
        appId := Function.update s.appId s.numThreads app } : Sim).setStatus s.numThreads .initializing) s.numThreads)
      (fun r => Tallied cfg map (created ++ [app]) r.1) fun _ => False := by
  obtain ⟨hnum, hperiod, hcounts, hmap, hsize, happId, hfresh, hsame⟩ := born_spec h app
  unfold threadCreate
  rw [show growInfo _ s.numThreads = born s app from rfl, h.num, if_pos hsize, happId, hperiod]
  have haffinity : ∀ (b : Sim) (f : ThreadInfo → ThreadInfo), b.info = (born s app).info → ∀ t < created.length,
      ((b.modifyInfo created.length f).info.get t).affinity = (s.info.get t).affinity := by
    intro b f hb t ht
    rw [Sim.modifyInfo, Table.get_set, if_neg (Nat.ne_of_lt ht), hb, hsame t ht]
  split
  · -- held back for a later hyper-period
    rename_i hheld
    unfold holdBack
    dsimp only
    rw [happId, if_pos happ]
    refine .ok (h.append hnum hperiod ?_ (fun x r c hc => ?_) (fun x r c hc => h.bounded x r c ?_) hsize
      (fun t ht => ?_) (haffinity _ _ rfl) fun core _ hback => ?_)
    · change Function.update (born s app).currentThreadCount app ((born s app).currentThreadCount app + 1) = _
      rw [hcounts, h.count]
    · change (born s app).coreThreadMap x r = some c
      rw [hmap]
      exact hc
    · change (born s app).coreThreadMap x r = some c at hc
      rwa [hmap] at hc
    · rw [Sim.modifyInfo, Table.get_set, if_neg (by omega)]
      exact hfresh t (by omega)
    · refine absurd ?_ hback
      rw [heldBack, h.period]
      exact hheld
  · rename_i hheld
    unfold ensureAffinity
    rw [hfresh _ le_rfl, if_neg Bool.false_ne_true, threadSetInitialAffinity, hpolicy]
    dsimp only
    rw [if_pos hmodified, setMappedAffinity]
    have hrank : (born s app).currentThreadCount app = created.count app := by rw [hcounts, h.count]
    have hcore : mappedCore (born s app) app (created.count app) < cfg.numCores := by
      rw [mappedCore, hmap]
      cases hc : s.coreThreadMap app (created.count app) with
      | none => exact hcores
      | some core => exact h.bounded _ _ _ hc
    rw [happId, hrank, if_pos ⟨happ, hcore⟩]
    refine Ensures.bind (Q := fun b => Tallied cfg map (created ++ [app]) b) (.ok ?_) fun b hb =>
      .ok (hb.of_frame (takeFreeCore_frame cfg b created.length))
    have htouch : ∀ x r c, (touchMap (born s app) app (created.count app)).coreThreadMap x r = some c ↔
        s.coreThreadMap x r = some c ∨
          x = app ∧ r = created.count app ∧ s.coreThreadMap x r = none ∧ c = 0 := by
      intro x r c
      change Function.update (born s app).coreThreadMap app (Function.update ((born s app).coreThreadMap app)
        (created.count app) (some (mappedCore (born s app) app (created.count app)))) x r = some c ↔ _
      rw [mappedCore, hmap]
      by_cases hx : x = app
      · subst hx
        rw [Function.update_self]
        by_cases hr : r = created.count x
        · subst hr
          rw [Function.update_self]
          cases s.coreThreadMap x (created.count x) with
          | none => simp [eq_comm]
          | some core => simp
        · rw [Function.update_of_ne hr]
          simp [hr]
      · rw [Function.update_of_ne hx]
        simp [hx]
    refine h.append hnum hperiod ?_ (fun x r c hc => (htouch x r c).2 (.inl hc)) (fun x r c hc => ?_) hsize
      (fun t ht => ?_) (fun t ht => ?_) fun core hline _ c => ?_
    · rw [← hcounts]
    · rcases (htouch x r c).1 hc with hc | ⟨-, -, -, rfl⟩
      · exact h.bounded x r c hc
      · exact hcores
    · change (((born s app).info.set created.length _).get t).hasAffinity = false
      rw [Table.get_set, if_neg (by omega)]
      exact hfresh t (by omega)
    · change (((born s app).info.set created.length _).get t).affinity = _
      rw [Table.get_set, if_neg (Nat.ne_of_lt ht), hsame t ht]
    · have hmapped : mappedCore (born s app) app (created.count app) = core := by
        rw [mappedCore, hmap, h.mapped _ _ _ hline]
        rfl
      change (((born s app).info.set created.length _).get created.length).affinity c = true ↔ c = core
      rw [Table.get_set, if_pos rfl, hmapped]
      change Function.update (fun _ => false) core true c = true ↔ c = core
      by_cases hc : c = core
      · simp [hc]
      · simp [hc]

/-- Creating a thread. -/
theorem createThread_tallied (hpolicy : cfg.policy = .pinned) (hmodified : cfg.modifiedCode = true)
    (hcores : 0 < cfg.numCores) (hl : Linked cfg ∅ s) (h : Tallied cfg map created s) (happ : app < cfg.numApps) :
    ∃ b, createThread cfg clock s app = .ok b ∧ Linked cfg ∅ b ∧ Tallied cfg map (created ++ [app]) b := by
  have htally : Ensures (createThread cfg clock s app) (fun b => Tallied cfg map (created ++ [app]) b)
      fun f => f = .coreBusy := by
    refine ((threadCreate_tallied hpolicy hmodified hcores h happ).mono (fun _ hr => hr) fun _ hf => hf.elim).bind ?_
    rintro ⟨b, core⟩ hb
    cases core with
    | none => exact .ok hb
    | some core =>
      have hset : Ensures (setCore b s.numThreads (some core)) (Frame b) fun f => f = .coreBusy := by
        unfold setCore letGo
        cases b.threadCore s.numThreads <;> dsimp only
        · split
          · exact .ok (.of_fixed rfl rfl)
          · exact .error rfl
        · split
          · exact .ok (.of_fixed rfl rfl)
          · exact .error rfl
      exact hset.bind fun c hc => .ok (hb.of_frame (hc.trans (frame_setState ..)))
  have hlinked : Ensures (createThread cfg clock s app) (Linked cfg ∅) Safe := createThread_linked hl app
  cases hcreate : createThread cfg clock s app with
  | ok b => exact ⟨b, rfl, hlinked.of_ok hcreate, htally.of_ok hcreate⟩
  | error f => exact absurd (htally.of_error hcreate) (hlinked.of_error hcreate).1

/-- The constructor has read the file, and no thread has been created. -/
theorem initial_tallied (hbounded : ∀ a r c, map a r = some c → c < cfg.numCores) :
    Tallied cfg map [] (initial map) where
  num := rfl
  period := rfl
  count _ := rfl
  mapped _ _ _ h := h
  bounded := hbounded
  fresh _ _ := rfl
  size := Nat.zero_le _
  pinned t a j core h := by
    have hnone := h.1
    cases hnone

/-- Every thread of a run of creations is in the tables. -/
theorem createThreads_tallied (hpolicy : cfg.policy = .pinned) (hmodified : cfg.modifiedCode = true)
    (hcores : 0 < cfg.numCores) (hl : Linked cfg ∅ s) (h : Tallied cfg map created s) {apps : List ℕ}
    (happs : ∀ a ∈ apps, a < cfg.numApps) :
    ∃ b, apps.foldlM (createThread cfg clock) s = .ok b ∧ Tallied cfg map (created ++ apps) b := by
  induction apps generalizing s created with
  | nil => exact ⟨s, rfl, (List.append_nil created).symm ▸ h⟩
  | cons app apps ih =>
    obtain ⟨happ, happs⟩ := List.forall_mem_cons.1 happs
    obtain ⟨b, hb, hlinked, htally⟩ : ∃ b, createThread cfg clock s app = .ok b ∧ _ :=
      createThread_tallied hpolicy hmodified hcores hl h happ
    obtain ⟨c, hc, hrest⟩ := ih hlinked htally happs
    refine ⟨c, ?_, ?_⟩
    · rw [List.foldlM_cons, hb]
      exact hc
    · rw [← List.append_cons] at hrest
      exact hrest

/-! ### Both together -/

/-- The reader finds the core of a line. -/
theorem readMapping_eq {file : List (ℕ × ℕ × ℕ)} (hfile : (file.map (·.2)).Nodup) {core i j : ℕ} :
    readMapping file i j = some core ↔ (core, i, j) ∈ file := by
  rw [readMapping, insertLines_eq, Option.none_or, fileCore]
  constructor
  · intro h
    obtain ⟨⟨c, x, r⟩, hfind, hcore⟩ := Option.map_eq_some_iff.1 h
    have hkey := List.find?_some hfind
    simp only [Nat.add_zero, Bool.and_eq_true, decide_eq_true_eq] at hkey hcore
    obtain ⟨rfl, rfl⟩ := hkey
    subst hcore
    exact List.mem_of_find?_eq_some hfind
  · intro hmem
    cases hfind : file.find? (fun line => decide (line.2.1 + 0 = i) && decide (line.2.2 = j)) with
    | none =>
      have hnot := List.find?_eq_none.1 hfind _ hmem
      simp at hnot
    | some line =>
      have hkey := List.find?_some hfind
      simp only [Nat.add_zero, Bool.and_eq_true, decide_eq_true_eq] at hkey
      have heq : line = (core, i, j) := List.inj_on_of_nodup_map hfile (List.mem_of_find?_eq_some hfind) hmem
        (Prod.ext hkey.1 hkey.2)
      rw [heq]
      rfl

/-- There are as many keys as threads. -/
theorem length_lineKeys (counts : List ℕ) : (lineKeys counts).length = counts.sum := by
  unfold lineKeys
  rw [List.length_flatMap]
  have hmap : (counts.zipIdx.map fun app => ((List.range app.1).map fun j => (app.2, j)).length) = counts := by
    conv_rhs => rw [← List.zipIdx_map_fst 0 counts]
    apply List.map_congr_left
    intro app _
    rw [List.length_map, List.length_range]
  rw [hmap]

/-- A right file has as many lines as there are threads. -/
theorem FileRight.length {file : List (ℕ × ℕ × ℕ)} (h : FileRight numCores appList file) :
    file.length = (appList.map (·.numThreads)).sum := by
  have hperm : (file.map (·.2)).Perm (lineKeys (appList.map (·.numThreads))) := by
    rw [List.perm_ext_iff_of_nodup h.once (nodup_lineKeys _)]
    rintro ⟨i, j⟩
    rw [h.threads, mem_lineKeys, List.getElem?_map]
    cases appList[i]? with
    | none => simp
    | some app => simp
  rw [← length_lineKeys, ← hperm.length_eq, List.length_map]

/-- The number in its application tells a thread. -/
theorem IsThread.unique {apps : List ℕ} {t t' i j : ℕ} (h : IsThread apps t i j)
    (h' : IsThread apps t' i j) : t = t' := by
  have hlt : ∀ {t t'}, IsThread apps t i j → IsThread apps t' i j → ¬ t < t' := by
    intro t t' h h' hlt
    have hnext : apps.take (t + 1) = apps.take t ++ [i] := by
      rw [List.take_add_one, h.1]
      rfl
    have hle : (apps.take (t + 1)).count i ≤ (apps.take t').count i :=
      (List.take_sublist_take_left hlt).count_le i
    rw [hnext, List.count_append, List.count_singleton_self, h.2, h'.2] at hle
    omega
  exact Nat.le_antisymm (Nat.not_lt.1 (hlt h' h)) (Nat.not_lt.1 (hlt h h'))

/-- With a right file every thread of the list gets the core of its line. -/
theorem FileRight.affinity {file : List (ℕ × ℕ × ℕ)} (hcores : 0 < numCores) (hfile : FileRight numCores appList file)
    (hread : ReadsMapping cfg numCores appList.length) {apps : List ℕ} (happs : ∀ a ∈ apps, a < cfg.numApps) :
    ∃ s, createThreads cfg clock file apps = .ok s ∧ AffinityRight numCores appList file cfg apps s := by
  have hpos : 0 < cfg.numCores := hread.cores ▸ hcores
  have hbounded : ∀ a r c, readMapping file a r = some c → c < cfg.numCores := by
    intro a r c hc
    obtain ⟨k, hk⟩ := List.mem_iff_getElem?.1 ((readMapping_eq hfile.once).1 hc)
    have hcore := hfile.cores k _ hk
    rw [hread.cores]
    exact hcore.trans_lt (Nat.mod_lt _ hcores)
  obtain ⟨s, hs, htally⟩ : ∃ s, apps.foldlM (createThread cfg clock) _ = .ok s ∧ _ :=
    createThreads_tallied hread.policy hread.modified hpos (initial_linked cfg _) (initial_tallied hbounded) happs
  rw [List.nil_append] at htally
  have hline : ∀ t i j app, IsThread apps t i j → appList[i]? = some app → j < app.numThreads →
      ∃ core, (core, i, j) ∈ file ∧ ∀ c, (s.info.get t).affinity c = true ↔ c = core := by
    intro t i j app ht happ hj
    obtain ⟨⟨core, key⟩, hmem, hkey⟩ := List.mem_map.1 ((hfile.threads i j).2 ⟨app, happ, hj⟩)
    dsimp only at hkey
    subst hkey
    refine ⟨core, hmem, htally.pinned t i j core ht ((readMapping_eq hfile.once).2 hmem) ?_⟩
    rintro ⟨hperiodic, hge⟩
    obtain ⟨hlt, -⟩ := List.getElem?_eq_some_iff.1 happ
    rw [htally.period, hread.period hperiodic] at hge
    omega
  refine ⟨s, hs, hline, ?_⟩
  intro hsum t t' i i' j j' app app' c ht ht' happ hj happ' hj' hc hc'
  obtain ⟨core, hmem, hcore⟩ := hline t i j app ht happ hj
  obtain ⟨core', hmem', hcore'⟩ := hline t' i' j' app' ht' happ' hj'
  obtain rfl := (hcore c).1 hc
  obtain rfl := (hcore' c).1 hc'
  -- both lines name the core, and with enough cores each core is named once
  obtain ⟨k, hk⟩ := List.mem_iff_getElem?.1 hmem
  obtain ⟨k', hk'⟩ := List.mem_iff_getElem?.1 hmem'
  have hlt := (List.getElem?_eq_some_iff.1 hk).1
  have hlt' := (List.getElem?_eq_some_iff.1 hk').1
  have hmod := hfile.cores k _ hk
  have hmod' := hfile.cores k' _ hk'
  rw [hfile.length] at hlt hlt'
  rw [Nat.mod_eq_of_lt (hlt.trans_le hsum)] at hmod
  rw [Nat.mod_eq_of_lt (hlt'.trans_le hsum)] at hmod'
  obtain rfl : k = k' := hmod.symm.trans hmod'
  cases Option.some.inj (hk.symm.trans hk')
  exact ht.unique ht'

/-- The generated mapping is right if and only if all applications have as many threads as the last one. -/
theorem roundRobin_right_iff (numCores : ℕ) (appList : List AppEntry) (hcores : 0 < numCores) :
    RoundRobinRight numCores appList ↔
      ∀ app ∈ appList, some app.numThreads = appList.getLast?.map (·.numThreads) := by
  rw [← fileRight_iff hcores]
  constructor
  · exact RoundRobinRight.file
  · intro hfile
    exact ⟨hfile, fun cfg clock apps hread happs => hfile.affinity hcores hread happs⟩

/-- Two applications with two threads each on three cores. -/
theorem roundRobin_right_equal : RoundRobinRight 3 [⟨"a", "x", 2⟩, ⟨"a", "y", 2⟩] :=
  (roundRobin_right_iff 3 [⟨"a", "x", 2⟩, ⟨"a", "y", 2⟩] (by decide)).2 (by decide)

/-- With two threads and then one there is no line for the second thread. -/
theorem roundRobin_wrong_unequal : ¬ RoundRobinRight 4 [⟨"a", "x", 2⟩, ⟨"a", "y", 1⟩] := by
  intro h
  have hline := (h.file.threads 0 1).2 ⟨⟨"a", "x", 2⟩, rfl, by decide⟩
  revert hline
  decide

end LifeSim.Sched
