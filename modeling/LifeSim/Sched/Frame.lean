import Mathlib.Tactic.Common
import LifeSim.Sched.Events

/-!
# What rescheduling leaves alone

Rescheduling a core changes where threads run and nothing else: the affinities, the set of
runnable threads, the sizes of the tables and the lists of the mapping stay as they are. The
status of a thread changes only from stalled for want of a core to running. No assumption on
the state is needed for this, so every later invariant that is not about the placement of
threads gets it for free.
-/

namespace LifeSim.Sched

open LifeSim.Lib

variable {cfg : Config} {s s' s₁ s₂ : Sim} {t core time : ℕ}

/-- The entry of a thread with its placement forgotten. -/
def ThreadInfo.pinning (i : ThreadInfo) : ThreadInfo :=
  { i with coreRunning := none, lastScheduledIn := 0, lastScheduledOut := 0 }

/-- The state with the placement of all threads forgotten. -/
def Sim.fixed (s : Sim) : Sim :=
  { s with
    status := fun _ => .idle
    threadCore := fun _ => none
    coreOwner := fun _ => none
    coreState := fun _ => .idle
    info := ⟨s.info.size, fun t => (s.info.get t).pinning⟩
    coreThread := fun _ => none
    quantumLeft := fun _ => 0 }

/-- Only the placement of threads has changed, and stalled threads may have been woken up. -/
structure Frame (s s' : Sim) : Prop where
  fixed : s'.fixed = s.fixed
  status : ∀ t, s'.status t = s.status t ∨
    s'.status t = .running ∧ s.status t = .stalled ∧ s.stalledReason t = .unscheduled

namespace Frame

/-- Nothing changed. -/
theorem refl (s : Sim) : Frame s s := ⟨rfl, fun _ => .inl rfl⟩

/-- A change of the placement alone. -/
theorem of_fixed (h : s'.fixed = s.fixed) (hs : s'.status = s.status) : Frame s s' :=
  ⟨h, fun t => .inl (by rw [hs])⟩

theorem runnable (h : Frame s s') : s'.runnable = s.runnable := congrArg (·.runnable) h.fixed

theorem numThreads (h : Frame s s') : s'.numThreads = s.numThreads := congrArg (·.numThreads) h.fixed

theorem stalledReason (h : Frame s s') : s'.stalledReason = s.stalledReason :=
  congrArg (·.stalledReason) h.fixed

theorem info_size (h : Frame s s') : s'.info.size = s.info.size :=
  congrArg (fun s => s.info.size) h.fixed

theorem pinning (h : Frame s s') (t : ℕ) : (s'.info.get t).pinning = (s.info.get t).pinning :=
  congrArg (fun s => s.info.get t) h.fixed

theorem affinity (h : Frame s s') (t : ℕ) : (s'.info.get t).affinity = (s.info.get t).affinity :=
  congrArg (·.affinity) (h.pinning t)

theorem hasAffinity (h : Frame s s') (t : ℕ) :
    (s'.info.get t).hasAffinity = (s.info.get t).hasAffinity :=
  congrArg (·.hasAffinity) (h.pinning t)

theorem threadsOnCore (h : Frame s s') : s'.threadsOnCore = s.threadsOnCore :=
  congrArg (·.threadsOnCore) h.fixed

/-- Two changes in a row. A thread that has been woken up is running and stays so. -/
theorem trans (h : Frame s s₁) (h' : Frame s₁ s₂) : Frame s s₂ := by
  refine ⟨h'.fixed.trans h.fixed, fun t => ?_⟩
  have hr := congrFun h.stalledReason t
  rcases h.status t with h1 | ⟨h1, h2, h3⟩ <;> rcases h'.status t with g1 | ⟨g1, g2, g3⟩
  · exact .inl (g1.trans h1)
  · exact .inr ⟨g1, h1 ▸ g2, hr ▸ g3⟩
  · exact .inr ⟨g1.trans h1, h2, h3⟩
  · exact .inr ⟨g1, h2, h3⟩

end Frame

/-- Changing the placement of one thread. -/
theorem frame_modifyInfo (s : Sim) (t : ℕ) {f : ThreadInfo → ThreadInfo}
    (hf : ∀ i, (f i).pinning = i.pinning) : Frame s (s.modifyInfo t f) := by
  refine Frame.of_fixed ?_ rfl
  have : (fun u => ((s.info.set t (f (s.info.get t))).get u).pinning) =
      fun u => (s.info.get u).pinning := by
    funext u
    rw [Table.get_set]
    split
    · rename_i h; rw [hf, h]
    · rfl
  simp only [Sim.fixed, Sim.modifyInfo, Table.size_set, this]

theorem frame_scheduledOut (s : Sim) (t time : ℕ) : Frame s (s.modifyInfo t (ThreadInfo.scheduledOut time)) :=
  frame_modifyInfo s t fun _ => rfl

theorem frame_scheduledIn (s : Sim) (t core time : ℕ) :
    Frame s (s.modifyInfo t (ThreadInfo.scheduledIn core time)) :=
  frame_modifyInfo s t fun _ => rfl

theorem frame_setCoreRunning (s : Sim) (t : ℕ) (core : Option ℕ) :
    Frame s (s.modifyInfo t (ThreadInfo.setCoreRunning core)) :=
  frame_modifyInfo s t fun _ => rfl

theorem frame_setCoreThread (s : Sim) (core : ℕ) (t : Option ℕ) : Frame s (s.setCoreThread core t) :=
  .of_fixed rfl rfl

theorem frame_setQuantum (s : Sim) (core q : ℕ) : Frame s (s.setQuantum core q) := .of_fixed rfl rfl

theorem frame_setState (s : Sim) (core : ℕ) (state : State) : Frame s (s.setState core state) :=
  .of_fixed rfl rfl

theorem frame_vacate (s : Sim) (t : ℕ) : Frame s (vacate s t) := by
  unfold vacate
  split
  · exact frame_setState ..
  · exact .refl s

theorem frame_forgetOldCore (s : Sim) (t : ℕ) : Frame s (forgetOldCore s t) := by
  unfold forgetOldCore
  split
  · exact frame_setCoreThread ..
  · exact .refl s

/-- Waking a thread that waits for a core and is runnable already. -/
theorem frame_wake (hs : s.status t = .stalled) (hr : s.stalledReason t = .unscheduled)
    (hrun : s.runnable.get t = true) : Frame s ((s.setStatus t .running).setRunnable t true) := by
  have hrun' : s.runnable.set t true = s.runnable := by
    simp only [Table.set, ← hrun, Function.update_eq_self]
  refine ⟨?_, fun u => ?_⟩
  · simp only [Sim.fixed, Sim.setRunnable, Sim.setStatus, hrun']
  · by_cases hu : u = t
    · subst hu
      exact .inr ⟨by simp [Sim.setStatus, Sim.setRunnable], hs, hr⟩
    · exact .inl (by simp [Sim.setStatus, Sim.setRunnable, hu])

/-- Faults outside the tables happen only when `m_thread_info` is the shorter one. -/
def ShortInfo (s : Sim) (f : Fault) : Prop := f = .bounds → s.info.size < s.runnable.size

theorem ShortInfo.of_frame {f : Fault} (h : Frame s s') (hf : ShortInfo s' f) : ShortInfo s f := by
  intro hb
  have := hf hb
  rwa [h.info_size, h.runnable] at this

/-- The rule for a computation that starts after some change of the placement. -/
theorem Frame.ensures {x : Except Fault Sim} (h : Frame s s') (hx : Ensures x (Frame s') (ShortInfo s')) :
    Ensures x (Frame s) (ShortInfo s) :=
  hx.mono (fun _ ha => h.trans ha) fun _ hf => hf.of_frame h

/-- The rule for a sequence of two computations. -/
theorem Frame.bind {x : Except Fault Sim} {f : Sim → Except Fault Sim}
    (hx : Ensures x (Frame s) (ShortInfo s))
    (hf : ∀ a, Frame s a → Ensures (f a) (Frame a) (ShortInfo a)) :
    Ensures (x >>= f) (Frame s) (ShortInfo s) :=
  hx.bind fun a ha => ha.ensures (hf a ha)

theorem setCore_frame (s : Sim) (t : ℕ) (core : Option ℕ) :
    Ensures (setCore s t core) (Frame s) (ShortInfo s) := by
  unfold setCore letGo
  cases s.threadCore t <;> cases core <;> dsimp only
  · exact .ok (.of_fixed rfl rfl)
  · split
    · exact .ok (.of_fixed rfl rfl)
    · exact .error nofun
  · exact .ok (.of_fixed rfl rfl)
  · split
    · exact .ok (.of_fixed rfl rfl)
    · exact .error nofun

/-- `resume` may be called for the thread in every state that differs in the placement only. -/
def ResumeFrame (resume : Sim → ℕ → Except Fault Sim) (s : Sim) (t : ℕ) : Prop :=
  ∀ a, Frame s a → a.status t = .stalled → a.stalledReason t = .unscheduled →
    Ensures (resume a t) (Frame a) (ShortInfo a)

theorem moveThread_frame {resume : Sim → ℕ → Except Fault Sim} (hres : ResumeFrame resume s t)
    (c : Option ℕ) : Ensures (moveThread resume s t c) (Frame s) (ShortInfo s) := by
  have hv := frame_vacate s t
  cases c with
  | none =>
    rw [moveThread]
    exact hv.ensures (setCore_frame ..)
  | some c =>
    rw [moveThread]
    refine Frame.bind (s := s) ?_ fun a _ => ?_
    · unfold wakeUnscheduled
      split
      · rename_i h
        exact hv.ensures (hres _ hv h.2.1 h.2.2)
      · exact .ok hv
    · refine Frame.bind (setCore_frame ..) fun b _ => ?_
      split
      · exact .ok (.refl b)
      · exact .ok (frame_setState ..)

theorem unschedule_frame (s : Sim) (time core : ℕ) (current : Option ℕ) :
    Ensures (unschedule s time core current) (Frame s) (ShortInfo s) := by
  cases current with
  | none => exact .ok (.refl s)
  | some t =>
    rw [unschedule]
    refine (frame_scheduledOut ..).ensures (moveThread_frame ?_ _)
    exact fun a _ _ _ => .ok (.refl a)

theorem schedule_frame {resume : Sim → ℕ → Except Fault Sim} (time core : ℕ) {new : Option ℕ}
    (hres : ∀ t, new = some t → ResumeFrame resume s t) :
    Ensures (schedule resume s time core new) (Frame s) (ShortInfo s) := by
  cases new with
  | none => exact .ok (.refl s)
  | some t =>
    have h := (frame_forgetOldCore s t).trans (frame_scheduledIn (forgetOldCore s t) t core time)
    rw [schedule]
    exact h.ensures (moveThread_frame (fun a ha => hres t rfl a (h.trans ha)) _)

/-- The loop of `reschedule` returns a thread that is allowed to run on the core. -/
theorem pickThread_eligible (h : pickThread s time core = some t) :
    t < s.runnable.size ∧ eligible s core t = true := by
  have loop : ∀ (l : List ℕ) (best : Option ℕ × ℤ),
      (∀ u, best.1 = some u → u < s.runnable.size ∧ eligible s core u = true) →
      (∀ u ∈ l, u < s.runnable.size) →
      ∀ u, (l.foldl (consider s time core) best).1 = some u →
        u < s.runnable.size ∧ eligible s core u = true := by
    intro l
    induction l with
    | nil => intro best hbest _; exact hbest
    | cons v l ih =>
      intro best hbest hl
      refine ih _ ?_ fun u hu => hl u (List.mem_cons_of_mem v hu)
      intro u hu
      unfold consider at hu
      split at hu
      · rename_i hv
        obtain rfl : v = u := by simpa using hu
        exact ⟨hl v (by simp), hv.1⟩
      · exact hbest u hu
  exact loop _ _ (fun u hu => by cases hu) (fun u hu => List.mem_range.1 hu) t h

/-- An eligible thread has affinity for the core, is runnable and does not run elsewhere. -/
theorem eligible_iff : eligible s core t = true ↔ (s.info.get t).affinity core = true ∧
    s.runnable.get t = true ∧
    ((s.info.get t).coreRunning = none ∨ (s.info.get t).coreRunning = some core) := by
  simp only [eligible, Bool.and_eq_true, Bool.or_eq_true, decide_eq_true_eq, and_assoc]

/-- `findFreeCoreForThread` returns an empty core of the affinity set. -/
theorem findFreeCoreForThread_some (h : findFreeCoreForThread cfg s t = some core) :
    core < cfg.numCores ∧ (s.info.get t).affinity core = true ∧ s.coreThread core = none := by
  unfold findFreeCoreForThread at h
  have hp := List.find?_some h
  have hm := List.mem_of_find?_eq_some h
  simp only [Bool.and_eq_true, Option.isNone_iff_eq_none] at hp
  exact ⟨List.mem_range.1 hm, hp⟩

/-- Waking a runnable thread, when rescheduling leaves everything but the placement alone. -/
theorem resumeThread_frame {resched : Sim → ℕ → Except Fault Sim}
    (hre : ∀ a c, Ensures (resched a c) (Frame a) (ShortInfo a))
    (hrun : t < s.runnable.size ∧ s.runnable.get t = true) (hsize : s.runnable.size ≤ s.info.size) :
    ResumeFrame (resumeThread cfg resched) s t := by
  intro a ha hst hreason
  rw [← ha.runnable] at hrun hsize
  rw [← ha.info_size] at hsize
  have hw := frame_wake hst hreason hrun.2
  unfold resumeThread scheduleIfFree
  rw [if_pos (by exact hrun.1), if_pos (by exact Nat.lt_of_lt_of_le hrun.1 hsize)]
  split
  · exact hw.ensures (hre _ _)
  · exact .ok hw

/-- Rescheduling changes the placement only, and reads outside the tables only when
`m_thread_info` is shorter than `m_threads_runnable`. -/
theorem rescheduleDepth_frame (cfg : Config) (time depth : ℕ) (s : Sim) (core : ℕ) :
    Ensures (rescheduleDepth cfg time depth s core) (Frame s) (ShortInfo s) := by
  induction depth generalizing s core with
  | zero => exact .error nofun
  | succ depth ih =>
    rw [rescheduleDepth, rescheduleBody]
    split
    · exact .ok (.refl s)
    · split
      · rename_i h; exact .error fun _ => h
      · rename_i hsize
        dsimp only
        split
        · exact .ok (frame_setQuantum ..)
        · refine Frame.bind (s := s) ?_ fun a _ => .ok (frame_setQuantum ..)
          refine Frame.bind (unschedule_frame ..) fun a ha => ?_
          have hc := frame_setCoreThread a core (pickThread s time core)
          refine hc.ensures (schedule_frame time core fun t ht => ?_)
          obtain ⟨hlt, hel⟩ := pickThread_eligible ht
          have hf := ha.trans hc
          refine resumeThread_frame ih ?_ ?_
          · rw [hf.runnable]; exact ⟨hlt, (eligible_iff.1 hel).2.1⟩
          · rw [hf.runnable, hf.info_size]; exact Nat.le_of_not_lt hsize

theorem reschedule_frame (cfg : Config) (s : Sim) (time core : ℕ) :
    Ensures (reschedule cfg s time core) (Frame s) (ShortInfo s) :=
  rescheduleDepth_frame ..

/-- Filling a core for a thread, if there is an empty one. -/
theorem scheduleIfFree_frame (cfg : Config) (time : ℕ) (s : Sim) (t : ℕ) :
    Ensures (scheduleIfFree cfg (fun s core => reschedule cfg s time core) s t) (Frame s)
      fun f => f = .bounds → s.info.size < s.runnable.size ∨ s.info.size ≤ t := by
  unfold scheduleIfFree
  split
  · split
    · exact (reschedule_frame ..).mono (fun _ h => h) fun _ hf hb => .inl (hf hb)
    · exact .ok (.refl s)
  · rename_i h; exact .error fun _ => .inr (Nat.le_of_not_lt h)

theorem threadYield_frame (cfg : Config) (clock : ℕ → ℕ) (s : Sim) (t : ℕ) :
    Ensures (threadYield cfg clock s t) (Frame s)
      fun f => f = .bounds → s.info.size < s.runnable.size ∨ s.info.size ≤ t := by
  unfold threadYield
  split
  · split
    · exact .ok (.refl s)
    · rename_i core _
      refine Ensures.mono (F := ShortInfo s) ?_ (fun _ h => h) fun _ hf hb => .inl (hf hb)
      have hq := frame_setQuantum s core 0
      refine Frame.bind (hq.ensures (reschedule_frame ..)) fun a _ => ?_
      split
      · exact .ok (.refl a)
      · split
        · exact reschedule_frame ..
        · exact .ok (.refl a)
  · rename_i h; exact .error fun _ => .inr (Nat.le_of_not_lt h)

/-- The thread runs on a core of its affinity set, or does not run. -/
def InPlace (s : Sim) (t : ℕ) : Prop :=
  ∀ core, (s.info.get t).coreRunning = some core → (s.info.get t).affinity core = true

/-- Acting on a new affinity reads `m_threads_runnable` unless the thread has to leave its core. -/
theorem applyAffinity_frame (cfg : Config) (clock : ℕ → ℕ) (s : Sim) (t : ℕ) :
    Ensures (applyAffinity cfg clock s t) (Frame s)
      fun f => f = .bounds → s.info.size < s.runnable.size ∨ s.runnable.size ≤ t ∧ InPlace s t := by
  unfold applyAffinity
  split
  · rename_i core hcore
    split
    · rename_i haff
      split
      · exact .ok (.refl s)
      · rename_i h
        refine .error fun _ => .inr ⟨Nat.le_of_not_lt h, fun c hc => ?_⟩
        rw [hcore] at hc
        exact Option.some.inj hc ▸ haff
    · exact .ok (frame_setQuantum ..)
  · rename_i hnone
    split
    · split
      · split
        · exact (reschedule_frame ..).mono (fun _ h => h) fun _ hf hb => .inl (hf hb)
        · exact .ok (.refl s)
      · exact .ok (.refl s)
    · rename_i h
      refine .error fun _ => .inr ⟨Nat.le_of_not_lt h, fun c hc => ?_⟩
      rw [hnone] at hc
      cases hc

/-- `m_thread_info` as `threadSetAffinity` grows it. -/
def grownInfo (s : Sim) (t : ℕ) : Table ThreadInfo :=
  if s.info.size ≤ t then s.info.resize (t + 16) .fresh else s.info

/-- The affinity set that `threadSetAffinity` gives a thread. -/
def newAffinity (cfg : Config) (old : ℕ → Bool) : Option (List ℕ) → ℕ → Bool
  | none => fun c => old c || c < cfg.numCores
  | some mask => fun c => mask.contains c

/-- What recording an affinity does: only the entry of the thread changes, and only its affinity. -/
structure Recorded (cfg : Config) (t : ℕ) (mask : Option (List ℕ)) (s s' : Sim) : Prop where
  same : s' = { s with info := s'.info }
  size : s'.info.size = (grownInfo s t).size
  other : ∀ u, u ≠ t → s'.info.get u = (grownInfo s t).get u
  running : (s'.info.get t).coreRunning = ((grownInfo s t).get t).coreRunning
  affinity : (s'.info.get t).affinity = newAffinity cfg ((grownInfo s t).get t).affinity mask
  hasAffinity : mask ≠ some [] ∨ (s'.info.get t).hasAffinity = ((grownInfo s t).get t).hasAffinity

/-- The loop over the mask adds its cores to the entry of the thread. -/
theorem addAffinities_spec (cfg : Config) (t : ℕ) (mask : List ℕ) (s : Sim) :
    Ensures (addAffinities cfg s t mask)
      (fun s' => s' = { s with info := s'.info } ∧ s'.info.size = s.info.size ∧
        (∀ u, u ≠ t → s'.info.get u = s.info.get u) ∧
        (s'.info.get t).coreRunning = (s.info.get t).coreRunning ∧
        (∀ c, (s'.info.get t).affinity c = ((s.info.get t).affinity c || mask.contains c)) ∧
        (mask ≠ [] ∨ (s'.info.get t).hasAffinity = (s.info.get t).hasAffinity))
      fun f => f = .invalidMask := by
  induction mask generalizing s with
  | nil => exact .ok ⟨rfl, rfl, fun _ _ => rfl, rfl, by simp, .inr rfl⟩
  | cons cpu mask ih =>
    unfold addAffinities
    rw [List.foldlM_cons]
    split
    · refine (ih (s.modifyInfo t fun i => i.addAffinity cpu)).mono ?_ fun _ hf => hf
      rintro b ⟨h1, h2, h3, h4, h5, -⟩
      refine ⟨h1, h2, fun u hu => ?_, ?_, fun c => ?_, .inl (by simp)⟩
      · rw [h3 u hu]; simp [Sim.modifyInfo, hu]
      · rw [h4]; simp [Sim.modifyInfo, ThreadInfo.addAffinity]
      · rw [h5]
        by_cases hc : c = cpu
        · simp [Sim.modifyInfo, ThreadInfo.addAffinity, hc]
        · simp [Sim.modifyInfo, ThreadInfo.addAffinity, hc]
    · exact .error rfl

theorem recordAffinity_spec (cfg : Config) (s : Sim) (t : ℕ) (mask : Option (List ℕ)) :
    Ensures (recordAffinity cfg s t mask) (Recorded cfg t mask s) fun f => f = .invalidMask := by
  have hgrow : (if s.info.size ≤ t then { s with info := s.info.resize (t + 16) .fresh } else s) =
      { s with info := grownInfo s t } := by
    unfold grownInfo
    split <;> rfl
  unfold recordAffinity
  rw [hgrow]
  cases mask with
  | none =>
    refine (addAffinities_spec cfg t _ _).mono ?_ fun _ hf => hf
    rintro b ⟨h1, h2, h3, h4, h5, -⟩
    refine ⟨h1, h2, fun u hu => ?_, ?_, ?_, .inl nofun⟩
    · rw [h3 u hu]; simp [Sim.modifyInfo, hu]
    · rw [h4]; simp [Sim.modifyInfo]
    · funext c
      rw [h5]
      simp [Sim.modifyInfo, newAffinity]
  | some mask =>
    refine (addAffinities_spec cfg t _ _).mono ?_ fun _ hf => hf
    rintro b ⟨h1, h2, h3, h4, h5, h6⟩
    refine ⟨h1, h2, fun u hu => ?_, ?_, ?_, ?_⟩
    · rw [h3 u hu]; simp [Sim.modifyInfo, hu]
    · rw [h4]; simp [Sim.modifyInfo, ThreadInfo.clearAffinity]
    · funext c
      rw [h5]
      simp [Sim.modifyInfo, newAffinity, ThreadInfo.clearAffinity]
    · rcases h6 with h6 | h6
      · exact .inl (by simpa using h6)
      · refine .inr ?_
        rw [h6]; simp [Sim.modifyInfo, ThreadInfo.clearAffinity]

/-- `threadSetAffinity` records the affinity and may then reschedule. -/
theorem threadSetAffinity_spec (cfg : Config) (clock : ℕ → ℕ) (s : Sim) (calling : Option ℕ) (t : ℕ)
    (mask : Option (List ℕ)) :
    Ensures (threadSetAffinity cfg clock s calling t mask)
      (fun b => ∃ a, Recorded cfg t mask s a ∧ Frame a b)
      fun f => f = .bounds → (grownInfo s t).size < s.runnable.size ∨
        t < s.numThreads ∧ calling ≠ some t ∧ s.runnable.size ≤ t ∧
          ∀ core, ((grownInfo s t).get t).coreRunning = some core →
            newAffinity cfg ((grownInfo s t).get t).affinity mask core = true := by
  refine ((recordAffinity_spec cfg s t mask).mono (fun _ h => h) ?_).bind fun a ha => ?_
  · rintro _ rfl
    nofun
  have hsize : t < a.info.size := by
    rw [ha.size, grownInfo]
    split
    · simp
    · omega
  have hrun : a.runnable = s.runnable := by rw [ha.same]
  have hnum : a.numThreads = s.numThreads := by rw [ha.same]
  split
  · exact .ok ⟨a, ha, .refl a⟩
  · rename_i hcreated
    split
    · refine (threadYield_frame ..).mono (fun b hb => ⟨a, ha, hb⟩) fun f hf hb => ?_
      have := hf hb
      rw [ha.size, hrun] at this
      rw [ha.size] at hsize
      omega
    · rename_i hcall
      refine (applyAffinity_frame ..).mono (fun b hb => ⟨a, ha, hb⟩) fun f hf hb => ?_
      have := hf hb
      rw [ha.size, hrun] at this
      rw [hnum] at hcreated
      refine this.imp id fun h => ⟨Nat.lt_of_not_le hcreated, hcall, h.1, fun core hcore => ?_⟩
      rw [← ha.affinity]
      exact h.2 core (by rw [ha.running, hcore])

/-! ### A new mapping -/

theorem migrateThread_lists (cfg : Config) (clock : ℕ → ℕ) (dest : ℕ) (s : Sim) (t : ℕ) :
    Ensures (migrateThread cfg clock dest s t) (fun b => b.threadsOnCore = s.threadsOnCore) fun _ => True := by
  rw [migrateThread]
  split_ifs
  · dsimp only
    split_ifs
    · exact .ok rfl
    · exact (applyAffinity_frame ..).mono (fun b hb => hb.threadsOnCore) fun _ _ => trivial
  · exact .error trivial
  · exact .error trivial

/-- What the migration of a thread keeps, a new mapping keeps. The threads come from the lists at first, which only get
shorter meanwhile. -/
theorem changeMapping_keeps {P : Sim → Prop} {F : Fault → Prop} {moves : Option (List (ℕ × ℕ))} (hs : P s)
    (hlists : ∀ a lists, P a → P { a with threadsOnCore := lists }) (hindex : F .index)
    (hmigrate : ∀ lines, moves = some lines → ∀ move ∈ lines, ∀ t ∈ s.threadsOnCore move.1, ∀ a, P a →
      Ensures (migrateThread cfg clock move.2 a t) P F) : Ensures (changeMapping cfg clock s moves) P F := by
  cases moves with
  | none => exact .ok hs
  | some lines =>
    have hround : ∀ acc : Sim × (ℕ → List ℕ), ∀ move ∈ lines,
        (P acc.1 ∧ ∀ c, acc.1.threadsOnCore c ⊆ s.threadsOnCore c) →
        Ensures (migrateCore cfg clock acc move)
          (fun acc => P acc.1 ∧ ∀ c, acc.1.threadsOnCore c ⊆ s.threadsOnCore c) F := by
      rintro acc move hmove ⟨hacc, hsub⟩
      rw [migrateCore]
      split
      · refine Ensures.bind (Q := fun a => P a ∧ a.threadsOnCore = acc.1.threadsOnCore) ?_
          fun a ha => .ok ⟨hlists a _ ha.1, fun c => ?_⟩
        · refine Ensures.foldlM (fun a t ht ha => ?_) ⟨hacc, rfl⟩
          exact ((hmigrate lines rfl move hmove t (hsub move.1 ht) a ha.1).and
            (migrateThread_lists cfg clock move.2 a t)).mono (fun b hb => ⟨hb.1, hb.2.trans ha.2⟩) fun _ => id
        · change Function.update a.threadsOnCore move.1 [] c ⊆ s.threadsOnCore c
          by_cases hc : c = move.1
          · rw [hc, Function.update_self]
            exact List.nil_subset _
          · rw [Function.update_of_ne hc, ha.2]
            exact hsub c
      · exact .error hindex
    rw [changeMapping]
    refine (Ensures.foldlM hround ⟨hs, fun _ => List.Subset.refl _⟩).bind fun acc hacc => .ok ?_
    exact hlists acc.1 _ hacc.1

theorem leaveCore_frame (cfg : Config) (time : ℕ) (s : Sim) (t : ℕ) :
    Ensures (leaveCore cfg time s t) (Frame s)
      fun f => f = .bounds → s.info.size < s.runnable.size ∨ s.info.size ≤ t := by
  unfold leaveCore
  split
  · split
    · exact (reschedule_frame ..).mono (fun _ h => h) fun _ hf hb => .inl (hf hb)
    · exact .ok (.refl s)
  · rename_i h; exact .error fun _ => .inr (Nat.le_of_not_lt h)

theorem periodicCore_frame (cfg : Config) (time delta : ℕ) (s : Sim) (core : ℕ) :
    Ensures (periodicCore cfg time delta s core) (Frame s) (ShortInfo s) := by
  unfold periodicCore
  split
  · exact reschedule_frame ..
  · exact .ok (frame_setQuantum ..)

theorem takeFreeCore_frame (cfg : Config) (s : Sim) (t : ℕ) : Frame s (takeFreeCore cfg s t).1 := by
  unfold takeFreeCore
  split
  · rename_i core _
    refine (frame_setCoreRunning s t (some core)).trans ?_
    exact (frame_setCoreThread ..).trans (frame_setQuantum ..)
  · exact frame_setCoreRunning ..

/-- The searches for a core only read the state; they fail outside the tables or do not end. -/
theorem getNextCore_faults (cfg : Config) (rounds core : ℕ) :
    Ensures (getNextCore cfg rounds core) (fun _ => True) fun f => f = .diverges ∨ f = .index := by
  induction rounds generalizing core with
  | zero => exact .error (.inl rfl)
  | succ rounds ih =>
    rw [getNextCore]
    split
    · split
      · exact .ok trivial
      · exact ih _
    · exact .error (.inr rfl)

theorem searchFreeCore_faults (cfg : Config) (s : Sim) (first rounds core : ℕ) :
    Ensures (searchFreeCore cfg s first rounds core) (fun _ => True) fun f => f = .diverges ∨ f = .index := by
  induction rounds generalizing core with
  | zero => exact .error (.inl rfl)
  | succ rounds ih =>
    rw [searchFreeCore]
    split
    · split
      · exact .ok trivial
      · refine (getNextCore_faults ..).bind fun next _ => ?_
        split
        · exact .ok trivial
        · exact ih _
    · exact .error (.inr rfl)

/-- The hyper-period the scheduler is in, how much of it is over and who waits for the next one. -/
structure SamePeriod (s s' : Sim) : Prop where
  exited : s'.numThreadsExited = s.numThreadsExited
  number : s'.hyperPeriodNumber = s.hyperPeriodNumber
  apps : s'.threadsOfApp = s.threadsOfApp

theorem Frame.samePeriod (h : Frame s s') : SamePeriod s s' :=
  ⟨congrArg (·.numThreadsExited) h.fixed, congrArg (·.hyperPeriodNumber) h.fixed,
    congrArg (·.threadsOfApp) h.fixed⟩

theorem SamePeriod.trans (h : SamePeriod s s₁) (h' : SamePeriod s₁ s₂) : SamePeriod s s₂ :=
  ⟨h'.exited.trans h.exited, h'.number.trans h.number, h'.apps.trans h.apps⟩

theorem waitingThreads_congr {n : ℕ} (h : s'.threadsOfApp = s.threadsOfApp) :
    waitingThreads cfg n s' = waitingThreads cfg n s := by
  simp only [waitingThreads, h]

end LifeSim.Sched
