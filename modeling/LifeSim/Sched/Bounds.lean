import Mathlib.Data.List.GetD
import LifeSim.Sched.Bijection

/-!
# Indices into the tables of threads

`m_thread_info` grows when a thread is created or given an affinity, `m_threads_runnable` when
a thread is started, and each is indexed at places that rely on the size of the other. As long
as `m_thread_info` stays the longer one and a thread is not touched before `m_threads_runnable`
has its entry, every index is inside. The condition on a step is exactly that, for each event in
terms of the entries that the threads started before it have brought.
-/

namespace LifeSim.Sched

open LifeSim.Lib

variable {cfg : Config} {s s' a b : Sim} {t u c n core time : ℕ} {clock : ℕ → ℕ}

/-- Every created thread has an entry in `m_thread_info`, which is at least as long as
`m_threads_runnable`, and the tables of the mapping name created threads only. -/
structure Sized (s : Sim) : Prop where
  threads : s.numThreads ≤ s.info.size
  tables : s.runnable.size ≤ s.info.size
  listed : ∀ c, ∀ t ∈ s.threadsOnCore c, t < s.numThreads
  waiting : ∀ app, ∀ t ∈ s.threadsOfApp app, t < s.numThreads

/-- The same, except that `m_thread_info` may still be empty. -/
structure AlmostSized (s : Sim) : Prop where
  threads : s.numThreads ≤ s.info.size
  tables : s.runnable.size ≤ s.info.size ∨ s.info.size = 0 ∧ s.runnable.size ≤ 16
  listed : ∀ c, ∀ t ∈ s.threadsOnCore c, t < s.numThreads
  waiting : ∀ app, ∀ t ∈ s.threadsOfApp app, t < s.numThreads

theorem Sized.almost (h : Sized s) : AlmostSized s := ⟨h.threads, .inl h.tables, h.listed, h.waiting⟩

/-- A fault other than an index outside the tables. -/
def NotBounds (f : Fault) : Prop := f ≠ .bounds

namespace Sized

theorem of_le (h : Sized s) (hnum : s'.numThreads = s.numThreads) (hinfo : s.info.size ≤ s'.info.size)
    (hrun : s'.runnable.size = s.runnable.size) (hlists : s'.threadsOnCore = s.threadsOnCore)
    (happs : s'.threadsOfApp = s.threadsOfApp) : Sized s' where
  threads := by rw [hnum]; exact h.threads.trans hinfo
  tables := by rw [hrun]; exact h.tables.trans hinfo
  listed := by rw [hlists, hnum]; exact h.listed
  waiting := by rw [happs, hnum]; exact h.waiting

theorem of_frame (h : Sized s) (hf : Frame s s') : Sized s' :=
  h.of_le hf.numThreads hf.info_size.ge (by rw [hf.runnable]) hf.threadsOnCore (congrArg (·.threadsOfApp) hf.fixed)

end Sized

/-- What a step may not change for the threads to stay inside the tables: the threads that exist and
the size of `m_threads_runnable`. -/
structure SameSize (s s' : Sim) : Prop where
  sized : Sized s'
  numThreads : s'.numThreads = s.numThreads
  runnable : s'.runnable.size = s.runnable.size

theorem SameSize.refl (h : Sized s) : SameSize s s := ⟨h, rfl, rfl⟩

theorem SameSize.trans (h : SameSize s a) (h' : SameSize a b) : SameSize s b :=
  ⟨h'.sized, h'.numThreads.trans h.numThreads, h'.runnable.trans h.runnable⟩

theorem SameSize.of_frame (h : Sized s) (hf : Frame s s') : SameSize s s' :=
  ⟨h.of_frame hf, hf.numThreads, by rw [hf.runnable]⟩

/-- The tables keep to each other, and `m_threads_runnable` has a given number of entries. -/
structure SizedAt (entries : ℕ) (s : Sim) : Prop where
  sized : Sized s
  runnable : s.runnable.size = entries

theorem SizedAt.of_frame (h : SizedAt n s) (hf : Frame s s') : SizedAt n s' :=
  ⟨h.sized.of_frame hf, by rw [hf.runnable, h.runnable]⟩

theorem SameSize.sizedAt (h : SameSize s a) : SizedAt s.runnable.size a := ⟨h.sized, h.runnable⟩

/-- The rule for a sequence of computations that keep the sizes. -/
theorem SameSize.bind {x : Except Fault Sim} {f : Sim → Except Fault Sim}
    (hx : Ensures x (SameSize s) NotBounds) (hf : ∀ a, SameSize s a → Ensures (f a) (SameSize a) NotBounds) :
    Ensures (x >>= f) (SameSize s) NotBounds :=
  hx.bind fun a ha => (hf a ha).mono (fun _ hb => ha.trans hb) fun _ h => h

/-- The rule for a loop. -/
theorem SameSize.foldlM {ι : Type} {f : Sim → ι → Except Fault Sim} {l : List ι} (h : Sized s)
    (hf : ∀ a, ∀ x ∈ l, SameSize s a → Ensures (f a x) (SameSize a) NotBounds) :
    Ensures (l.foldlM f s) (SameSize s) NotBounds :=
  Ensures.foldlM (fun a x hx ha => (hf a x hx ha).mono (fun _ hb => ha.trans hb) fun _ h => h) (.refl h)

theorem scheduleIfFree_sized (h : Sized s) (ht : t < s.numThreads) :
    Ensures (scheduleIfFree cfg (fun s core => reschedule cfg s time core) s t) (SameSize s) NotBounds := by
  refine (scheduleIfFree_frame ..).mono (fun _ hf => .of_frame h hf) fun _ hf hb => ?_
  have h1 := h.tables
  have h2 := h.threads
  have := hf hb
  omega

theorem leaveCore_sized (h : Sized s) (ht : t < s.numThreads) :
    Ensures (leaveCore cfg time s t) (SameSize s) NotBounds := by
  refine (leaveCore_frame ..).mono (fun _ hf => .of_frame h hf) fun _ hf hb => ?_
  have h1 := h.tables
  have h2 := h.threads
  have := hf hb
  omega

theorem threadYield_sized (h : Sized s) (ht : t < s.numThreads) :
    Ensures (threadYield cfg clock s t) (SameSize s) NotBounds := by
  refine (threadYield_frame ..).mono (fun _ hf => .of_frame h hf) fun _ hf hb => ?_
  have h1 := h.tables
  have h2 := h.threads
  have := hf hb
  omega

/-- The condition on an affinity call: another thread's call for a thread that exists reads
`m_threads_runnable`, unless the thread runs on a core that is not in the new set. -/
def AffinityReads (cfg : Config) (s : Sim) (calling : Option ℕ) (t : ℕ) (mask : Option (List ℕ)) : Prop :=
  t < s.numThreads ∧ calling ≠ some t ∧
    ∀ core, (s.info.get t).coreRunning = some core → newAffinity cfg (s.info.get t).affinity mask core = true

theorem threadSetAffinity_sized {calling : Option ℕ} {mask : Option (List ℕ)} (h : Sized s)
    (ht : AffinityReads cfg s calling t mask → t < s.runnable.size) :
    Ensures (threadSetAffinity cfg clock s calling t mask) (SameSize s) NotBounds := by
  have hgrown : s.info.size ≤ (grownInfo s t).size := by
    unfold grownInfo
    split
    · simp; omega
    · exact le_rfl
  refine (threadSetAffinity_spec ..).mono ?_ fun f hf hb => ?_
  · rintro b ⟨a, ha, hframe⟩
    have hsized : Sized a := h.of_le (by rw [ha.same]) (by rw [ha.size]; exact hgrown) (by rw [ha.same])
      (by rw [ha.same]) (by rw [ha.same])
    exact SameSize.trans ⟨hsized, by rw [ha.same], by rw [ha.same]⟩ (.of_frame hsized hframe)
  · have h1 := h.tables
    rcases hf hb with hshort | ⟨hlt, hcall, hge, hplace⟩
    · omega
    · have hsame : grownInfo s t = s.info := if_neg (Nat.not_le_of_lt (Nat.lt_of_lt_of_le hlt h.threads))
      rw [hsame] at hplace
      exact Nat.not_lt_of_le hge (ht ⟨hlt, hcall, hplace⟩)

/-- The first affinity call may come before any thread is created. -/
theorem threadSetAffinity_firstSized {calling : Option ℕ} {mask : Option (List ℕ)} (h : AlmostSized s)
    (hempty : s.info.size = 0 ∧ s.runnable.size ≤ 16) :
    Ensures (threadSetAffinity cfg clock s calling t mask)
      (fun b => AlmostSized b ∧ b.runnable.size = s.runnable.size) NotBounds := by
  have hnum := h.threads
  have hsize : (grownInfo s t).size = t + 16 := by rw [grownInfo, if_pos (by omega)]; rfl
  refine (threadSetAffinity_spec ..).mono ?_ fun f hf hb => ?_
  · rintro b ⟨a, ha, hframe⟩
    have hsame := ha.same
    have hinfo := ha.size
    have hsized : Sized a := by
      refine ⟨?_, ?_, ?_, ?_⟩
      · rw [hsame, hinfo, hsize]; dsimp only; omega
      · rw [hsame, hinfo, hsize]; dsimp only; omega
      · rw [hsame]; exact h.listed
      · rw [hsame]; exact h.waiting
    exact ⟨(hsized.of_frame hframe).almost, by rw [hframe.runnable, hsame]⟩
  · have := hf hb
    omega

/-- Moving a thread that has its entries between the big and the small cores. -/
theorem moveTo_sized (h : Sized s) (ht : t < s.runnable.size) (big : Bool) :
    Ensures (moveTo cfg clock big s t) (SameSize s) NotBounds := by
  refine SameSize.bind (threadSetAffinity_sized h fun _ => ht) fun a ha => .ok ?_
  exact ⟨ha.sized.of_le rfl le_rfl rfl rfl rfl, rfl, rfl⟩

/-- Every created thread has an entry in `m_threads_runnable`, which has some number of entries. -/
def AllRunnable (s : Sim) (entries : ℕ) : Prop := s.numThreads ≤ entries

theorem pickBigThread_sized (h : Sized s) (hall : AllRunnable s s.runnable.size) :
    Ensures (pickBigThread cfg clock s) (SameSize s) NotBounds := by
  unfold pickBigThread
  split
  · split
    · exact .ok (.refl h)
    · rename_i t ts hlist
      have hsized : Sized { s with rng := rngNext s.rng } := h.of_le rfl le_rfl rfl rfl rfl
      have hmem : (t :: ts).getD (rngNext s.rng / 2 ^ 16 % (ts.length + 1)) t ∈ promotable s := by
        rw [hlist, List.getD_eq_getElem]
        · exact List.getElem_mem _
        · exact Nat.mod_lt _ (Nat.succ_pos _)
      have hlt := List.mem_range.1 (List.mem_of_mem_filter hmem)
      exact (moveTo_sized hsized (Nat.lt_of_lt_of_le hlt hall) true).mono
        (fun b hb => ⟨hb.sized, hb.numThreads, hb.runnable⟩) fun _ hf => hf
  · rename_i hout
    refine absurd ?_ hout
    rw [List.all_eq_true]
    intro u hu
    have := Nat.lt_of_lt_of_le (List.mem_range.1 hu) hall
    simp [this]

/-- A stalling or exiting thread on the big cores makes the scheduler look at every thread. -/
def BigLooks (cfg : Config) (s : Sim) (t : ℕ) : Prop := cfg.policy = .bigSmall ∧ s.threadIsBig t = true

theorem replaceBigThread_sized (h : Sized s) (hbig : BigLooks cfg s t → AllRunnable s s.runnable.size) :
    Ensures (replaceBigThread cfg clock s t) (SameSize s) NotBounds := by
  unfold replaceBigThread
  split
  · rename_i hlooks; exact pickBigThread_sized h (hbig hlooks)
  · exact .ok (.refl h)

theorem stallThread_sized {reason : StallType} (h : Sized s)
    (ht : t < s.numThreads → reason ≠ .unscheduled → t < s.runnable.size)
    (hbig : t < s.numThreads → BigLooks cfg s t → AllRunnable s s.runnable.size) :
    Ensures (stallThread cfg clock time s t reason) (SameSize s) NotBounds := by
  unfold stallThread
  split
  · rename_i hlt
    split
    · exact .ok ⟨h.of_le rfl le_rfl rfl rfl rfl, rfl, rfl⟩
    · rename_i hreason
      rw [if_pos (ht hlt hreason), threadStall]
      have hstalled : SameSize s ((s.setStalled t reason).setRunnable t false) :=
        ⟨h.of_le rfl le_rfl rfl rfl rfl, rfl, rfl⟩
      refine Ensures.mono (Q := SameSize ((s.setStalled t reason).setRunnable t false)) ?_
        (fun b hb => hstalled.trans hb) fun _ hf => hf
      refine SameSize.bind (replaceBigThread_sized hstalled.sized (hbig hlt)) fun a ha => ?_
      refine SameSize.bind ?_ fun b hb => ?_
      · unfold demote
        split
        · exact moveTo_sized ha.sized (by rw [ha.runnable]; exact ht hlt hreason) false
        · exact .ok (.refl ha.sized)
      · exact leaveCore_sized hb.sized (by rw [hb.numThreads, ha.numThreads]; exact hlt)
  · exact .error nofun

theorem resumeThread_sized (h : Sized s) (hlt : t < s.numThreads) (ht : t < s.runnable.size) :
    Ensures (resumeThread cfg (fun s core => reschedule cfg s time core) s t) (SameSize s) NotBounds := by
  unfold resumeThread
  dsimp only
  rw [if_pos (by exact ht)]
  have hwoken : SameSize s ((s.setStatus t .running).setRunnable t true) :=
    ⟨h.of_le rfl le_rfl rfl rfl rfl, rfl, rfl⟩
  exact (scheduleIfFree_sized hwoken.sized hlt).mono (fun b hb => hwoken.trans hb) fun _ hf => hf

theorem wakeThread_sized (h : Sized s) (ht : t < s.numThreads → t < s.runnable.size) :
    Ensures (wakeThread cfg time s t) (SameSize s) NotBounds := by
  unfold wakeThread
  split
  · rename_i hlt; exact resumeThread_sized h hlt (ht hlt)
  · exact .error nofun

/-- Starting a thread grows `m_threads_runnable` by 16 entries, when the thread has none. -/
theorem onThreadStart_sized (h : Sized s)
    (ht : t < s.numThreads → t < s.runnable.size ∨
      t < s.runnable.size + 16 ∧ s.runnable.size + 16 ≤ s.info.size) :
    Ensures (onThreadStart cfg time s t)
      (SizedAt (if s.runnable.size ≤ t then s.runnable.size + 16 else s.runnable.size)) NotBounds := by
  unfold onThreadStart
  split
  · rename_i hlt
    generalize hn : (if s.runnable.size ≤ t then s.runnable.size + 16 else s.runnable.size) = n
    have hgrown : SizedAt n (growRunnable (s.setStatus t .running) t) ∧
        t < (growRunnable (s.setStatus t .running) t).runnable.size ∧
        (growRunnable (s.setStatus t .running) t).numThreads = s.numThreads := by
      unfold growRunnable
      split
      · rename_i hge
        have hroom := (ht hlt).resolve_left (Nat.not_lt_of_le hge)
        exact ⟨⟨⟨h.threads, hroom.2, h.listed, h.waiting⟩, (if_pos hge).symm.trans hn⟩, hroom.1, rfl⟩
      · rename_i hge
        exact ⟨⟨h.of_le rfl le_rfl rfl rfl rfl, (if_neg hge).symm.trans hn⟩, Nat.lt_of_not_le hge, rfl⟩
    refine Ensures.bind (Q := SizedAt n) ?_ fun b hb => ?_
    · unfold hookThreadStart
      dsimp only
      rw [if_pos hgrown.2.1]
      refine (scheduleIfFree_sized ?_ ?_).mono (fun b hb => ⟨hb.sized, hb.runnable.trans hgrown.1.runnable⟩)
        fun _ hf => hf
      · exact hgrown.1.sized.of_le rfl le_rfl rfl rfl rfl
      · exact hgrown.2.2.symm ▸ hlt
    · split
      · exact .ok ⟨hb.sized.of_le rfl le_rfl rfl rfl rfl, hb.runnable⟩
      · exact .ok ⟨hb.sized.of_le rfl le_rfl rfl rfl rfl, hb.runnable⟩
  · exact .error nofun

/-- A new thread is held back for a later hyper-period. -/
def heldBack (cfg : Config) (s : Sim) (app : ℕ) : Prop :=
  cfg.periodicWorkload = true ∧ (s.hyperPeriodNumber + 1) * cfg.numAppPerHyperPeriod ≤ app

/-- A state with one more thread, which is in the tables of the mapping at most. -/
theorem growInfo_sized (h : AlmostSized s) (hinfo : s'.info = s.info) (hnum : s'.numThreads = s.numThreads + 1)
    (hrun : s'.runnable = s.runnable) (hlists : s'.threadsOnCore = s.threadsOnCore)
    (happs : s'.threadsOfApp = s.threadsOfApp) :
    Sized (growInfo s' s.numThreads) ∧ s.numThreads < (growInfo s' s.numThreads).info.size ∧
      (growInfo s' s.numThreads).numThreads = s.numThreads + 1 ∧
      (growInfo s' s.numThreads).runnable = s.runnable := by
  have h1 := h.threads
  have h2 := h.tables
  have hlt : ∀ {t}, t < s.numThreads → t < s'.numThreads := fun ht => by omega
  have hlisted : ∀ c, ∀ t ∈ s'.threadsOnCore c, t < s'.numThreads := fun c t ht =>
    hlt (h.listed c t (hlists ▸ ht))
  have hwaiting : ∀ app, ∀ t ∈ s'.threadsOfApp app, t < s'.numThreads := fun app t ht =>
    hlt (h.waiting app t (happs ▸ ht))
  unfold growInfo
  rw [hinfo]
  split
  · refine ⟨⟨?_, ?_, hlisted, hwaiting⟩, ?_, hnum, hrun⟩
    · simp; omega
    · simp [hrun]; omega
    · simp; omega
  · refine ⟨⟨?_, ?_, hlisted, hwaiting⟩, ?_, hnum, hrun⟩
    · rw [hinfo]; omega
    · rw [hinfo, hrun]; omega
    · rw [hinfo]; omega

theorem threadSetInitialAffinity_sized (h : Sized s) (hlt : t < s.numThreads)
    (ht : cfg.policy = .bigSmall → t < s.runnable.size) :
    Ensures (threadSetInitialAffinity cfg clock s t) (SizedAt s.runnable.size) NotBounds := by
  unfold threadSetInitialAffinity
  split
  · rename_i hpol
    exact (moveTo_sized h (ht hpol) false).mono (fun _ hb => hb.sizedAt) fun _ hf => hf
  · split
    · unfold setMappedAffinity
      dsimp only
      split
      · generalize mappedCore s (s.appId t) (s.currentThreadCount (s.appId t)) = core
        refine .ok ⟨⟨h.threads, h.tables, fun c u hu => ?_, h.waiting⟩, rfl⟩
        dsimp only at hu
        by_cases hc : c = core
        · rw [hc, Function.update_self, List.mem_append, List.mem_singleton] at hu
          exact hu.elim (h.listed core u) fun hut => hut ▸ hlt
        · rw [Function.update_of_ne hc] at hu
          exact h.listed c u hu
      · exact .error nofun
    · have hinside : ∀ f, f = .diverges ∨ f = .index → NotBounds f := by rintro _ (rfl | rfl) <;> nofun
      refine ((searchFreeCore_faults ..).mono (fun _ h => h) hinside).bind fun core _ => ?_
      refine ((getNextCore_faults ..).mono (fun _ h => h) hinside).bind fun next _ => .ok ?_
      exact ⟨h.of_le rfl le_rfl rfl rfl rfl, rfl⟩

theorem createThread_sized (h : AlmostSized s) {app : ℕ}
    (hnew : cfg.policy = .bigSmall → ¬ heldBack cfg s app →
      ((growInfo s s.numThreads).info.get s.numThreads).hasAffinity = false → s.numThreads < s.runnable.size) :
    Ensures (createThread cfg clock s app) (SizedAt s.runnable.size) NotBounds := by
  unfold createThread
  dsimp only
  generalize hs₀ : Sim.setStatus { s with numThreads := _, appId := _ } s.numThreads .initializing = s₀
  have hinfo : s₀.info = s.info := by rw [← hs₀]; rfl
  have hperiod : s₀.hyperPeriodNumber = s.hyperPeriodNumber := by rw [← hs₀]; rfl
  have happ : s₀.appId s.numThreads = app := by rw [← hs₀]; simp [Sim.setStatus]
  obtain ⟨hsized, hsize, hnum, hrun⟩ := growInfo_sized h hinfo (by rw [← hs₀]; rfl)
    (by rw [← hs₀]; rfl) (by rw [← hs₀]; rfl) (by rw [← hs₀]; rfl)
  have hsame : (growInfo s₀ s.numThreads).info = (growInfo s s.numThreads).info := by
    unfold growInfo
    rw [hinfo]
    split
    · rfl
    · exact hinfo
  have hfields : (growInfo s₀ s.numThreads).hyperPeriodNumber = s.hyperPeriodNumber ∧
      (growInfo s₀ s.numThreads).appId s.numThreads = app := by
    rw [← hperiod, ← happ, growInfo]
    split <;> exact ⟨rfl, rfl⟩
  refine Ensures.bind (Q := fun r => SizedAt s.runnable.size r.1) ?_ fun r hr => ?_
  · rw [threadCreate, if_pos hsize, hfields.1, hfields.2]
    split
    · refine Ensures.bind (Q := SizedAt s.runnable.size) ?_ fun b hb => .ok (hb.of_frame (frame_setCoreRunning ..))
      unfold holdBack
      dsimp only
      split
      · refine .ok ⟨⟨hsized.threads, hsized.tables, hsized.listed, fun app' u hu => ?_⟩, congrArg Table.size hrun⟩
        dsimp only [countThread] at hu ⊢
        rw [hfields.2] at hu
        by_cases happ' : app' = app
        · rw [happ', Function.update_self, List.mem_append, List.mem_singleton] at hu
          refine hu.elim (hsized.waiting app u) fun hut => ?_
          rw [hnum, hut]
          exact Nat.lt_succ_self _
        · rw [Function.update_of_ne happ'] at hu
          exact hsized.waiting app' u hu
      · exact .error (by simp [NotBounds])
    · rename_i hheld
      refine Ensures.bind (Q := SizedAt s.runnable.size) ?_ fun b hb => .ok (hb.of_frame (takeFreeCore_frame ..))
      unfold ensureAffinity
      split
      · exact .ok ⟨hsized, congrArg Table.size hrun⟩
      · rename_i hhas
        rw [← hrun]
        refine threadSetInitialAffinity_sized hsized (by rw [hnum]; exact Nat.lt_succ_self _) fun hpol => ?_
        rw [hrun]
        exact hnew hpol hheld (by rw [← hsame]; simpa using hhas)
  · obtain ⟨a, core⟩ := r
    cases core with
    | none => exact .ok hr
    | some core =>
      refine Ensures.bind (Q := SizedAt s.runnable.size) ?_ fun b hb => .ok (hb.of_frame (frame_setState ..))
      exact (setCore_frame ..).mono (fun b hb => SizedAt.of_frame hr hb) fun _ hf hb =>
        Nat.not_lt_of_le hr.sized.tables (hf hb)

/-- A computation that only moves threads keeps the sizes. -/
theorem SameSize.of_ensures {x : Except Fault Sim} (h : Sized s) (hx : Ensures x (Frame s) (ShortInfo s)) :
    Ensures x (SameSize s) NotBounds :=
  hx.mono (fun _ hf => .of_frame h hf) fun _ hf hb => Nat.not_lt_of_le h.tables (hf hb)

/-- Moving a thread that exists and has its entries. -/
theorem moveThread_sized (h : Sized s) (hlt : t < s.numThreads) (ht : t < s.runnable.size) (core : ℕ) :
    Ensures (moveThread (resumeThread cfg fun s core => reschedule cfg s time core) s t (some core)) (SameSize s)
      NotBounds := by
  rw [moveThread]
  have hv := SameSize.of_frame h (frame_vacate s t)
  refine SameSize.bind (s := s) ?_ fun a ha => ?_
  · unfold wakeUnscheduled
    split
    · exact (resumeThread_sized hv.sized (by rw [hv.numThreads]; exact hlt) (by rw [hv.runnable]; exact ht)).mono
        (fun b hb => hv.trans hb) fun _ hf => hf
    · exact .ok hv
  · refine SameSize.bind (SameSize.of_ensures ha.sized (setCore_frame ..)) fun b hb => ?_
    split
    · exact .ok (.refl hb.sized)
    · exact .ok (.of_frame hb.sized (frame_setState ..))

theorem placeThread_sized {w : Waiting} (h : Sized s) (hlt : w.thread < s.numThreads)
    (ht : w.thread < s.runnable.size) : Ensures (placeThread cfg time s w) (SameSize s) NotBounds := by
  rw [placeThread, if_pos (Nat.lt_of_lt_of_le hlt h.threads)]
  split
  · have hann : SameSize s (announced cfg time s w) := ⟨h.of_le rfl le_rfl rfl rfl rfl, rfl, rfl⟩
    refine SameSize.bind (s := s) ?_ fun a ha => ?_
    · exact (moveThread_sized hann.sized hlt ht _).mono (fun b hb => hann.trans hb) fun _ hf => hf
    · split
      · refine .ok ⟨⟨ha.sized.threads, ha.sized.tables, fun c u hu => ?_, ha.sized.waiting⟩, rfl, rfl⟩
        by_cases hc : c = coreOf s w
        · rw [hc, pushOnCore] at hu
          dsimp only at hu
          rw [Function.update_self, List.mem_append, List.mem_singleton] at hu
          refine hu.elim (ha.sized.listed _ u) fun hut => ?_
          rw [hut]
          exact ha.numThreads ▸ hlt
        · rw [pushOnCore] at hu
          dsimp only at hu
          rw [Function.update_of_ne hc] at hu
          exact ha.sized.listed c u hu
      · exact .ok (.refl ha.sized)
  · exact .error nofun

/-- The exit changes the hyper-period. -/
def changesPeriod (cfg : Config) (s : Sim) : Prop :=
  cfg.periodicWorkload = true ∧ hyperPeriodEnds cfg { s with numThreadsExited := s.numThreadsExited + 1 } = true

theorem countExit_sized {file : List (ℕ × ℕ × ℕ)} (h : Sized s)
    (hnext : changesPeriod cfg s → ∀ w ∈ waitingThreads cfg (s.hyperPeriodNumber + 1) s,
      w.thread < s.runnable.size) :
    Ensures (countExit cfg time s file) (SizedAt s.runnable.size) NotBounds := by
  unfold countExit
  split
  · rename_i hper
    dsimp only
    split
    · rename_i hends
      have hcreated : ∀ w ∈ waitingThreads cfg (s.hyperPeriodNumber + 1) s, w.thread < s.numThreads := by
        intro w hw
        obtain ⟨app, -, hw⟩ := List.mem_flatMap.1 hw
        obtain ⟨entry, hentry, rfl⟩ := List.mem_map.1 hw
        exact h.waiting app _ (List.fst_mem_of_mem_zipIdx hentry)
      have hstart : Sized { s with
          numThreadsExited := 0
          hyperPeriodNumber := s.hyperPeriodNumber + 1
          coreThreadMap := insertLines ((s.hyperPeriodNumber + 1) * cfg.numAppPerHyperPeriod) s.coreThreadMap file
          threadsOnCore := if cfg.modifiedCode then fun _ => [] else s.threadsOnCore } := by
        refine ⟨h.threads, h.tables, fun c u hu => ?_, h.waiting⟩
        dsimp only at hu
        split at hu
        · cases hu
        · exact h.listed c u hu
      refine (SameSize.foldlM hstart fun a w hw ha => ?_).mono (fun b hb => hb.sizedAt) fun _ hf => hf
      refine placeThread_sized ha.sized ?_ ?_
      · exact ha.numThreads.symm ▸ hcreated w hw
      · exact ha.runnable.symm ▸ hnext ⟨hper, hends⟩ w hw
    · exact .ok ⟨h.of_le rfl le_rfl rfl rfl rfl, rfl⟩
  · exact .ok ⟨h, rfl⟩

/-- The plan of hyper-periods and the threads on the big cores. -/
def SamePlan (s s' : Sim) : Prop := SamePeriod s s' ∧ s'.threadIsBig = s.threadIsBig

theorem SamePlan.trans (h : SamePlan s a) (h' : SamePlan a b) : SamePlan s b :=
  ⟨h.1.trans h'.1, h'.2.trans h.2⟩

theorem SamePlan.of_frame (h : Frame s s') : SamePlan s s' :=
  ⟨h.samePeriod, congrArg (·.threadIsBig) h.fixed⟩

/-- Waking a thread leaves the plan alone. -/
theorem wakeThread_plan (cfg : Config) (time : ℕ) (s : Sim) (t : ℕ) :
    Ensures (wakeThread cfg time s t) (SamePlan s) fun _ => True := by
  unfold wakeThread resumeThread
  dsimp only
  split
  · split
    · have hwoken : SamePlan s ((s.setStatus t .running).setRunnable t true) := ⟨⟨rfl, rfl, rfl⟩, rfl⟩
      exact (scheduleIfFree_frame ..).mono (fun b hb => hwoken.trans (.of_frame hb)) fun _ _ => trivial
    · exact .error trivial
  · exact .error trivial

theorem beginExit_sized {wake : List ℕ} (h : Sized s) (ht : t < s.runnable.size)
    (hwake : ∀ u ∈ wake, u < s.numThreads → u < s.runnable.size) :
    Ensures (beginExit cfg time s t core wake) (fun b => SameSize s b ∧ SamePlan s b) NotBounds := by
  have hidle : SameSize s (s.setStatus t .idle) := ⟨h.of_le rfl le_rfl rfl rfl rfl, rfl, rfl⟩
  refine Ensures.bind (Q := fun b => SameSize s b ∧ SamePlan s b) ?_ fun a ha => ?_
  · refine Ensures.foldlM (fun a u hu ha => ?_) ⟨hidle, ⟨rfl, rfl, rfl⟩, rfl⟩
    have hu' : u < a.numThreads → u < a.runnable.size := by
      rw [ha.1.numThreads, ha.1.runnable]
      exact hwake u hu
    exact ((wakeThread_sized ha.1.sized hu').and (wakeThread_plan ..)).mono
      (fun b hb => ⟨ha.1.trans hb.1, ha.2.trans hb.2⟩) fun _ hf => hf
  · have hstate := frame_setState a core .idle
    refine Ensures.bind (Q := fun b => SameSize s b ∧ SamePlan s b) ?_ fun b hb => ?_
    · exact (setCore_frame ..).mono
        (fun b hb => ⟨ha.1.trans (.of_frame ha.1.sized (hstate.trans hb)), ha.2.trans (.of_frame (hstate.trans hb))⟩)
        fun _ hf hb => Nat.not_lt_of_le ha.1.sized.tables (hf hb)
    · rw [if_pos (by rw [hb.1.runnable]; exact ht)]
      exact .ok ⟨hb.1.trans ⟨hb.1.sized.of_le rfl le_rfl rfl rfl rfl, rfl, rfl⟩, hb.2.trans ⟨⟨rfl, rfl, rfl⟩, rfl⟩⟩

/-- Promoting a thread leaves the plan of hyper-periods alone. -/
theorem replaceBigThread_period (cfg : Config) (clock : ℕ → ℕ) (s : Sim) (t : ℕ) :
    Ensures (replaceBigThread cfg clock s t) (SamePeriod s) fun _ => True := by
  unfold replaceBigThread pickBigThread
  split
  · split
    · split
      · exact .ok ⟨rfl, rfl, rfl⟩
      · refine Ensures.bind (Q := SamePeriod s) ?_ fun b hb => .ok ⟨hb.exited, hb.number, hb.apps⟩
        refine (threadSetAffinity_spec ..).mono ?_ fun _ _ => trivial
        rintro b ⟨a, ha, hframe⟩
        refine SamePeriod.trans ⟨?_, ?_, ?_⟩ hframe.samePeriod <;> rw [ha.same]
    · exact .error trivial
  · exact .ok ⟨rfl, rfl, rfl⟩

theorem onThreadExit_sized {wake : List ℕ} {file : List (ℕ × ℕ × ℕ)} (h : Sized s)
    (ht : t < s.runnable.size) (hwake : ∀ u ∈ wake, u < s.numThreads → u < s.runnable.size)
    (hbig : BigLooks cfg s t → AllRunnable s s.runnable.size)
    (hnext : changesPeriod cfg s → ∀ w ∈ waitingThreads cfg (s.hyperPeriodNumber + 1) s,
      w.thread < s.runnable.size) :
    Ensures (onThreadExit cfg clock time s t wake file) (SizedAt s.runnable.size) NotBounds := by
  unfold onThreadExit
  split
  · rename_i hlt
    split
    · exact .error nofun
    · split
      · refine (beginExit_sized h ht hwake).bind ?_
        rintro a ⟨ha, hplan⟩
        rw [threadExit]
        have hbig' : BigLooks cfg a t → AllRunnable a a.runnable.size := by
          intro hlooks
          rw [BigLooks, hplan.2] at hlooks
          rw [AllRunnable, ha.numThreads, ha.runnable]
          exact hbig hlooks
        refine ((replaceBigThread_sized ha.sized hbig').and (replaceBigThread_period ..)).bind ?_
        rintro b ⟨hb, hbp⟩
        have hb' := ha.trans hb
        refine ((leaveCore_sized hb.sized (by rw [hb'.numThreads]; exact hlt)).and (leaveCore_frame ..)).bind ?_
        rintro d ⟨hd, hframe⟩
        have hperiod := (hplan.1.trans hbp).trans hframe.samePeriod
        have hd' := hb'.trans hd
        rw [← hd'.runnable]
        refine countExit_sized hd.sized fun hchange w hw => ?_
        rw [changesPeriod, hyperPeriodEnds] at hchange
        rw [hperiod.number, waitingThreads_congr hperiod.apps] at hw
        rw [hd'.runnable]
        refine hnext ?_ w hw
        rw [changesPeriod, hyperPeriodEnds]
        simpa only [hperiod.exited, hperiod.number] using hchange
      · exact .error nofun
  · exact .error nofun

theorem migrateThread_sized {dest : ℕ} (h : Sized s) (hlt : t < s.numThreads) (ht : t < s.runnable.size) :
    Ensures (migrateThread cfg clock dest s t) (fun b => SameSize s b ∧ b.threadsOnCore = s.threadsOnCore)
      NotBounds := by
  unfold migrateThread
  split
  · rw [if_pos (Nat.lt_of_lt_of_le hlt h.threads)]
    dsimp only
    generalize ha : s.modifyInfo t _ = a
    have hsame : SameSize s a ∧ a.threadsOnCore = s.threadsOnCore := by
      rw [← ha]
      exact ⟨⟨h.of_le rfl le_rfl rfl rfl rfl, rfl, rfl⟩, rfl⟩
    split
    · exact .ok hsame
    · refine (applyAffinity_frame ..).mono
        (fun b hb => ⟨hsame.1.trans (.of_frame hsame.1.sized hb), hb.threadsOnCore.trans hsame.2⟩) fun f hf hb => ?_
      have htables := hsame.1.sized.tables
      rcases hf hb with hshort | ⟨hge, -⟩
      · omega
      · rw [hsame.1.runnable] at hge
        omega
  · exact .error nofun

/-- The threads of the moved cores have their entries. -/
def MovesInside (s : Sim) (entries : ℕ) (moves : Option (List (ℕ × ℕ))) : Prop :=
  ∀ l, moves = some l → ∀ move ∈ l, ∀ t ∈ s.threadsOnCore move.1, t < entries

theorem changeMapping_sized {moves : Option (List (ℕ × ℕ))} (h : Sized s)
    (hmoves : MovesInside s s.runnable.size moves) :
    Ensures (changeMapping cfg clock s moves) (SameSize s) NotBounds := by
  unfold changeMapping
  split
  · exact .ok (.refl h)
  · rename_i l
    -- lists only get shorter, and the threads taken from them exist
    refine Ensures.bind (Q := fun r => SameSize s r.1 ∧ (∀ c, r.1.threadsOnCore c ⊆ s.threadsOnCore c) ∧
      ∀ c, ∀ t ∈ r.2 c, t < s.numThreads) ?_ fun r hr => ?_
    · refine Ensures.foldlM (fun acc move hmove hacc => ?_) ⟨.refl h, fun _ _ hu => hu, nofun⟩
      obtain ⟨a, moved⟩ := acc
      obtain ⟨hsame, hsub, hmoved⟩ := hacc
      unfold migrateCore
      dsimp only at hsame hsub hmoved ⊢
      split
      · refine Ensures.bind (Q := fun b => SameSize s b ∧ b.threadsOnCore = a.threadsOnCore) ?_ fun b hb => .ok ?_
        · refine Ensures.foldlM (fun b u hu hb => ?_) ⟨hsame, rfl⟩
          have hu' := hsub _ hu
          refine (migrateThread_sized hb.1.sized ?_ ?_).mono
            (fun d hd => ⟨hb.1.trans hd.1, hd.2.trans hb.2⟩) fun _ hf => hf
          · rw [hb.1.numThreads]; exact h.listed _ u hu'
          · rw [hb.1.runnable]; exact hmoves l rfl move hmove u hu'
        · have hcleared : ∀ c, Function.update b.threadsOnCore move.1 [] c ⊆ s.threadsOnCore c := by
            intro c
            by_cases hc : c = move.1
            · simp [hc]
            · rw [Function.update_of_ne hc, hb.2]; exact hsub c
          refine ⟨⟨⟨hb.1.sized.threads, hb.1.sized.tables, fun c u hu => ?_, hb.1.sized.waiting⟩,
            hb.1.numThreads, hb.1.runnable⟩, hcleared, fun c u hu => ?_⟩
          · exact hb.1.numThreads.symm ▸ h.listed c u (hcleared c hu)
          · by_cases hc : c = move.2
            · dsimp only at hu
              rw [hc, Function.update_self, List.mem_append] at hu
              exact hu.elim (hmoved _ u) fun hu => h.listed _ u (hsub _ hu)
            · dsimp only at hu
              rw [Function.update_of_ne hc] at hu
              exact hmoved c u hu
      · exact .error nofun
    · obtain ⟨hsame, hsub, hmoved⟩ := hr
      refine .ok ⟨⟨hsame.sized.threads, hsame.sized.tables, fun c u hu => ?_, hsame.sized.waiting⟩,
        hsame.numThreads, hsame.runnable⟩
      refine hsame.numThreads.symm ▸ (List.mem_append.1 hu).elim (fun hu => h.listed c u (hsub c hu)) (hmoved c u)

/-- The thread that `setFrequency` stalls for a broken core has its entries. -/
def FrequencyInside (cfg : Config) (s : Sim) (entries core mhz : ℕ) : Prop :=
  core < cfg.numCores → freqInHz mhz = 0 → core < s.numThreads →
    core < entries ∧ (BigLooks cfg s core → AllRunnable s entries)

theorem setFrequency_sized {mhz : ℕ} (h : Sized s) (hcore : FrequencyInside cfg s s.runnable.size core mhz) :
    Ensures (setFrequency cfg clock s core mhz) (SameSize s) NotBounds := by
  unfold setFrequency
  split
  · exact .ok (.refl h)
  · rename_i hrange
    split
    · exact .ok (.refl h)
    · rename_i hhz
      have hinside := hcore (Nat.lt_of_not_le hrange) (Nat.eq_zero_of_not_pos hhz)
      refine SameSize.bind (stallThread_sized h (fun hlt _ => (hinside hlt).1) fun hlt => (hinside hlt).2)
        fun a ha => .ok (.of_frame ha.sized (frame_setState ..))

/-- What an intervention relies on. -/
structure InterventionInside (cfg : Config) (s : Sim) (entries : ℕ) (moves : Option (List (ℕ × ℕ)))
    (dvfs : ℕ → ℤ) : Prop where
  moves : MovesInside s entries moves
  broken : ∀ c < cfg.numCores, freqInHz (readUInt64 (dvfs c)) = 0 → c < s.numThreads → c < entries
  big : cfg.policy = .bigSmall → AllRunnable s entries

/-- When every thread has its entries, an intervention has all it relies on. -/
theorem AllRunnable.intervention {moves : Option (List (ℕ × ℕ))} {dvfs : ℕ → ℤ} (h : AllRunnable s s.runnable.size)
    (hs : Sized s) : InterventionInside cfg s s.runnable.size moves dvfs where
  moves _ _ _ _ t ht := Nat.lt_of_lt_of_le (hs.listed _ t ht) h
  broken _ _ _ hc := Nat.lt_of_lt_of_le hc h
  big _ := h

theorem SameSize.allRunnable (h : SameSize s a) (hs : AllRunnable s s.runnable.size) :
    AllRunnable a a.runnable.size := by
  rw [AllRunnable, h.numThreads, h.runnable]
  exact hs

theorem intervene_sized {moves : Option (List (ℕ × ℕ))} {dvfs : ℕ → ℤ} (h : Sized s)
    (hin : intervenes cfg s time = true → InterventionInside cfg s s.runnable.size moves dvfs) :
    Ensures (intervene cfg clock time s moves dvfs) (SameSize s) NotBounds := by
  unfold intervene
  split
  · rename_i hnow
    obtain ⟨hmoves, hbroken, hbig⟩ := hin hnow
    refine SameSize.bind (changeMapping_sized h hmoves) fun a ha => ?_
    refine SameSize.bind ?_ fun b hb => .ok ⟨hb.sized.of_le rfl le_rfl rfl rfl rfl, rfl, rfl⟩
    refine SameSize.foldlM ha.sized fun b c _ hb => setFrequency_sized hb.sized fun hc hhz hlt => ?_
    have hb' := ha.trans hb
    refine ⟨?_, fun hlooks => hb'.allRunnable (hbig hlooks.1)⟩
    rw [hb'.numThreads] at hlt
    rw [hb'.runnable]
    exact hbroken c hc hhz hlt
  · exact .ok (.refl h)

theorem reshuffle_sized (h : Sized s)
    (hall : cfg.policy = .bigSmall → s.lastReshuffle + cfg.quantum < time → AllRunnable s s.runnable.size) :
    Ensures (reshuffle cfg clock time s) (SameSize s) NotBounds := by
  unfold reshuffle
  split
  · rename_i hnow
    have hs := hall hnow.1 hnow.2
    refine SameSize.bind ?_ fun a ha => ?_
    · refine SameSize.foldlM h fun a t ht ha => ?_
      split
      · refine moveTo_sized ha.sized ?_ false
        rw [ha.runnable]
        exact Nat.lt_of_lt_of_le (List.mem_range.1 ht) hs
      · exact .ok (.refl ha.sized)
    · refine SameSize.bind ?_ fun b hb => .ok ⟨hb.sized.of_le rfl le_rfl rfl rfl rfl, rfl, rfl⟩
      exact SameSize.foldlM ha.sized fun b _ _ hb =>
        pickBigThread_sized hb.sized ((ha.trans hb).allRunnable hs)
  · exact .ok (.refl h)

/-- What `periodic` relies on. -/
structure PeriodicInside (cfg : Config) (s : Sim) (entries time : ℕ) (moves : Option (List (ℕ × ℕ)))
    (dvfs : ℕ → ℤ) : Prop where
  tables : entries ≤ s.info.size
  reshuffle : cfg.policy = .bigSmall → s.lastReshuffle + cfg.quantum < time → AllRunnable s entries
  intervention : intervenes cfg s time = true → InterventionInside cfg s entries moves dvfs

theorem periodic_sized {moves : Option (List (ℕ × ℕ))} {dvfs : ℕ → ℤ} (h : Sized s)
    (hin : PeriodicInside cfg s s.runnable.size time moves dvfs) :
    Ensures (periodic cfg clock time s moves dvfs) (SameSize s) NotBounds := by
  have hbase : ∀ a, Sized a →
      (intervenes cfg a time = true → InterventionInside cfg a a.runnable.size moves dvfs) →
      Ensures (periodicBase cfg clock time a moves dvfs) (SameSize a) NotBounds := by
    intro a ha hint
    refine SameSize.bind (intervene_sized ha hint) fun b hb => ?_
    refine SameSize.bind ?_ fun d hd => .ok ⟨hd.sized.of_le rfl le_rfl rfl rfl rfl, rfl, rfl⟩
    exact SameSize.foldlM hb.sized fun d c _ hd => SameSize.of_ensures hd.sized (periodicCore_frame ..)
  rw [periodic]
  by_cases hnow : cfg.policy = .bigSmall ∧ s.lastReshuffle + cfg.quantum < time
  · have hs := hin.reshuffle hnow.1 hnow.2
    refine SameSize.bind (reshuffle_sized h hin.reshuffle) fun a ha => hbase a ha.sized fun _ => ?_
    exact (ha.allRunnable hs).intervention ha.sized
  · rw [Sched.reshuffle, if_neg hnow, ok_bind]
    exact hbase s h hin.intervention

/-- The number of entries of `m_threads_runnable` after a call, from the number before it: a thread that is
started and has no entry brings sixteen, whether they are enough or not. -/
def entriesAfter (entries : ℕ) (call : Call) : ℕ :=
  match call.event with
  | .start t => if entries ≤ t then entries + 16 else entries
  | _ => entries

/-- The condition on a step, in terms of the state before it and the entries that the started threads
have brought: every thread the step looks up in `m_threads_runnable` has one, and starting a thread leaves
`m_thread_info` the longer table. -/
def IndexInside (cfg : Config) (s : Sim) (entries : ℕ) (call : Call) : Prop :=
  match call.event with
  | .create app => cfg.policy = .bigSmall → ¬ heldBack cfg s app →
      ((growInfo s s.numThreads).info.get s.numThreads).hasAffinity = false → s.numThreads < entries
  | .start t => t < s.numThreads → t < entries ∨ t < entries + 16 ∧ entries + 16 ≤ s.info.size
  | .stall t reason => t < s.numThreads →
      (reason ≠ .unscheduled → t < entries) ∧ (BigLooks cfg s t → AllRunnable s entries)
  | .resume t => t < s.numThreads → t < entries
  | .exit t wake _ => t < entries ∧ (∀ u ∈ wake, u < s.numThreads → u < entries) ∧
      (BigLooks cfg s t → AllRunnable s entries) ∧
      (changesPeriod cfg s → ∀ w ∈ waitingThreads cfg (s.hyperPeriodNumber + 1) s, w.thread < entries)
  | .yield _ => True
  | .setAffinity calling t mask => AffinityReads cfg s calling t mask → t < entries
  | .periodic moves dvfs => PeriodicInside cfg s entries call.time moves dvfs
  | .setFrequency core mhz => FrequencyInside cfg s entries core mhz

theorem step_sized {call : Call} (h : Sized s) (hcall : IndexInside cfg s s.runnable.size call) :
    Ensures (step cfg s call) (SizedAt (entriesAfter s.runnable.size call)) NotBounds := by
  have hsame : ∀ {x : Except Fault Sim}, Ensures x (SameSize s) NotBounds →
      Ensures x (SizedAt s.runnable.size) NotBounds :=
    fun hx => hx.mono (fun _ hb => hb.sizedAt) fun _ hf => hf
  unfold IndexInside at hcall
  unfold step entriesAfter
  split <;> rename_i heq <;> rw [heq] at hcall ⊢ <;> dsimp only
  · exact createThread_sized h.almost hcall
  · exact onThreadStart_sized h hcall
  · exact hsame (stallThread_sized h (fun hlt => (hcall hlt).1) fun hlt => (hcall hlt).2)
  · exact hsame (wakeThread_sized h hcall)
  · exact onThreadExit_sized h hcall.1 hcall.2.1 hcall.2.2.1 hcall.2.2.2
  · split
    · rename_i hlt; exact hsame (threadYield_sized h hlt)
    · exact .error nofun
  · exact hsame (threadSetAffinity_sized h hcall)
  · exact hsame (periodic_sized h hcall)
  · exact hsame (setFrequency_sized h hcall)

/-- What holds of a state and the number of entries that the started threads have brought. -/
def SizedBy (x : Sim × ℕ) : Prop := AlmostSized x.1 ∧ x.1.runnable.size = x.2

theorem SizedAt.by (h : SizedAt n s) : SizedBy (s, n) := ⟨h.sized.almost, h.runnable⟩

/-- Before the first thread is created, only a creation or an affinity call has an effect. -/
theorem step_firstSized {call : Call} (h : AlmostSized s) (hempty : s.info.size = 0 ∧ s.runnable.size ≤ 16)
    (hcall : IndexInside cfg s s.runnable.size call) :
    Ensures (step cfg s call) (fun b => SizedBy (b, entriesAfter s.runnable.size call)) NotBounds := by
  have hnone : ∀ t, ¬ t < s.numThreads := fun t => by have := h.threads; omega
  unfold IndexInside at hcall
  unfold step entriesAfter
  split <;> rename_i heq <;> rw [heq] at hcall ⊢ <;> dsimp only
  · exact (createThread_sized h hcall).mono (fun _ hb => hb.by) fun _ hf => hf
  · rw [onThreadStart, if_neg (hnone _)]; exact .error nofun
  · rw [stallThread, if_neg (hnone _)]; exact .error nofun
  · rw [wakeThread, if_neg (hnone _)]; exact .error nofun
  · rw [onThreadExit, if_neg (hnone _)]; exact .error nofun
  · rw [if_neg (hnone _)]; exact .error nofun
  · exact threadSetAffinity_firstSized h hempty
  · have htables := hcall.tables
    have hsized : Sized s := ⟨h.threads, htables, h.listed, h.waiting⟩
    exact (periodic_sized hsized hcall).mono (fun _ hb => hb.sizedAt.by) fun _ hf => hf
  · unfold setFrequency
    split
    · exact .ok ⟨h, rfl⟩
    · split
      · exact .ok ⟨h, rfl⟩
      · rw [stallThread, if_neg (hnone _)]; exact .error nofun

theorem step_sizedBy {call : Call} (h : SizedBy (s, n)) (hcall : IndexInside cfg s n call) :
    Ensures (step cfg s call) (fun b => SizedBy (b, entriesAfter n call)) NotBounds := by
  obtain ⟨halmost, hentries⟩ := h
  dsimp only at halmost hentries
  subst hentries
  rcases halmost.tables with htables | hempty
  · have hsized : Sized s := ⟨halmost.threads, htables, halmost.listed, halmost.waiting⟩
    exact (step_sized hsized hcall).mono (fun _ hb => hb.by) fun _ hf => hf
  · exact step_firstSized halmost hempty hcall

/-- The scheduler with the number of entries that the started threads bring to `m_threads_runnable`. -/
def countedMachine (cfg : Config) : Machine (Sim × ℕ) Call Fault := (machine cfg).withHistory entriesAfter

/-- In every run whose steps meet the condition, every index into `m_threads_runnable` and
`m_thread_info` is inside the vector. -/
theorem tables_inside (cfg : Config) (map : ℕ → ℕ → Option ℕ) (calls : List Call)
    (hcalls : (countedMachine cfg).Guarded (fun x call => IndexInside cfg x.1 x.2 call) (initial map, 16) calls) :
    (machine cfg).run (initial map) calls ≠ .error .bounds := by
  have hinit : SizedBy (initial map, 16) := ⟨⟨le_rfl, .inr ⟨rfl, le_rfl⟩, nofun, nofun⟩, rfl⟩
  have hcounted : (countedMachine cfg).run (initial map, 16) calls ≠ .error .bounds := by
    refine (countedMachine cfg).guarded_run_ne (P := SizedBy) ?_ ?_ hinit hcalls
    · rintro ⟨a, n⟩ call y ha hcall hstep
      obtain ⟨b, hb, rfl⟩ := Machine.withHistory_step_ok.1 hstep
      exact (step_sizedBy ha hcall).of_ok hb
    · rintro ⟨a, n⟩ call ha hcall hstep
      exact (step_sizedBy ha hcall).of_error (map_eq_error_iff.1 hstep) rfl
  intro hbounds
  rw [countedMachine, Machine.run_withHistory, hbounds] at hcounted
  exact hcounted rfl

/-- The threads that creations, starts, stalls and affinity calls of the pinned scheduler name have their
entries. -/
def namesInside (x : Sim × ℕ) (call : Call) : Bool :=
  match call.event with
  | .create _ => true
  | .start t => t < x.2 || t < x.2 + 16 && x.2 + 16 ≤ x.1.info.size
  | .stall t _ => t < x.2
  | .setAffinity _ t _ => t < x.2
  | _ => false

theorem namesInside_sound (hpol : cfg.policy = .pinned) {x : Sim × ℕ} {call : Call}
    (h : namesInside x call = true) : IndexInside cfg x.1 x.2 call := by
  unfold namesInside at h
  unfold IndexInside
  cases hevent : call.event with
  | create app =>
    dsimp only
    rw [hpol]
    nofun
  | start t =>
    rw [hevent] at h
    simp only [Bool.or_eq_true, Bool.and_eq_true, decide_eq_true_eq] at h
    exact fun _ => h
  | stall t reason =>
    rw [hevent] at h
    refine fun _ => ⟨fun _ => of_decide_eq_true h, fun hlooks => ?_⟩
    rw [BigLooks, hpol] at hlooks
    cases hlooks.1
  | setAffinity calling t mask =>
    rw [hevent] at h
    exact fun _ => of_decide_eq_true h
  | resume | exit | yield | periodic | setFrequency =>
    rw [hevent] at h
    cases h

/-- Thread 0 creates and starts sixteen more threads and pins the last one, whose entry its start has
brought, to core 1. -/
def pinnedChild : List Call :=
  (List.range 17).flatMap (fun t => [(Event.create 0).at 0, (Event.start t).at 0]) ++
    [(Event.setAffinity (some 0) 16 (some [1])).at 5, (Event.stall 16 .mutex).at 6]

theorem tables_inside_pinnedChild :
    (machine twoCores).run (initial fun _ _ => none) pinnedChild ≠ .error .bounds := by
  have hfollows : (countedMachine twoCores).follows namesInside (initial (fun _ _ => none), 16) pinnedChild = true := by
    decide +kernel
  exact tables_inside twoCores _ _ ((Machine.Guarded.of_follows hfollows).mono fun _ _ => namesInside_sound rfl)

/-- Thread 0 creates sixteen more threads and sets the affinity of the last one before it starts. -/
def earlyAffinity : List Call :=
  [(Event.create 0).at 0, (Event.start 0).at 0] ++ List.replicate 16 ((Event.create 0).at 0) ++
    [(Event.setAffinity (some 0) 16 (some [0])).at 5]

/-- `threadSetAffinity` reads `m_threads_runnable` at index 16, and the vector has 16 entries. -/
theorem tables_outside :
    (machine twoCores).run (initial fun _ _ => none) earlyAffinity = .error .bounds :=
  faultOf_eq_some.1 (by decide +kernel)

end LifeSim.Sched
