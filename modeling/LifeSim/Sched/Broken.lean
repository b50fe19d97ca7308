import LifeSim.Sched.FineSteps
import LifeSim.Sched.Bounds
import LifeSim.Sched.HyperPeriod

/-!
# Broken cores

A frequency that is not positive declares a core broken. The scheduler has no table of
broken cores: nothing in it looks at the state `BROKEN`, and `setFrequency` stalls the thread
whose number is that of the core. A core stays empty exactly by the threads keeping off it:
the thread on it is the one with its number, and no other thread that can run is allowed on
the core. The condition on the steps says that, in terms of the state before each step
and of the cores that were last given a frequency that is not positive.
-/

namespace LifeSim.Sched

open LifeSim.Lib

variable {cfg : Config} {broken : ℕ → Bool} {s s' a b : Sim} {t u c core time : ℕ} {clock : ℕ → ℕ}

/-- The broken cores run no thread, and no thread that can run is allowed on them. -/
structure Avoids (broken : ℕ → Bool) (s : Sim) : Prop where
  idle : ∀ c, broken c = true → s.coreThread c = none
  owner : ∀ c, broken c = true → s.coreOwner c = none
  shunned : ∀ c t, broken c = true → s.runnable.get t = true → (s.info.get t).affinity c = false

/-- A broken core is none of the others. -/
theorem ne_of_broken (hc : broken c = true) (hcore : broken core = false) : c ≠ core := by
  rintro rfl
  rw [hcore] at hc
  cases hc

namespace Avoids

theorem of_same (h : Avoids broken s) (hcore : s'.coreThread = s.coreThread) (howner : s'.coreOwner = s.coreOwner)
    (hrun : s'.runnable = s.runnable) (hinfo : s'.info = s.info) : Avoids broken s' where
  idle := by rw [hcore]; exact h.idle
  owner := by rw [howner]; exact h.owner
  shunned := by rw [hrun, hinfo]; exact h.shunned

/-- Changing an entry of `m_thread_info` but not its affinity. -/
theorem modifyInfo (h : Avoids broken s) (t : ℕ) {f : ThreadInfo → ThreadInfo}
    (hf : ∀ i, (f i).affinity = i.affinity) : Avoids broken (s.modifyInfo t f) where
  idle := h.idle
  owner := h.owner
  shunned c u hc hu := by
    by_cases hut : u = t
    · simpa [Sim.modifyInfo, hut, hf] using h.shunned c t hc (hut ▸ hu)
    · simpa [Sim.modifyInfo, hut] using h.shunned c u hc hu

theorem setCoreThread (h : Avoids broken s) {new : Option ℕ}
    (hnew : ∀ t, new = some t → broken core = false) : Avoids broken (s.setCoreThread core new) where
  idle c hc := by
    by_cases hcc : c = core
    · cases new with
      | none => simp [Sim.setCoreThread, hcc]
      | some t => rw [hcc, hnew t rfl] at hc; cases hc
    · simpa [Sim.setCoreThread, hcc] using h.idle c hc
  owner := h.owner
  shunned := h.shunned

/-- A thread becomes runnable that is not allowed on a broken core. -/
theorem setRunnable (h : Avoids broken s) {r : Bool}
    (ht : r = true → ∀ c, broken c = true → (s.info.get t).affinity c = false) :
    Avoids broken (s.setRunnable t r) where
  idle := h.idle
  owner := h.owner
  shunned c u hc hu := by
    by_cases hut : u = t
    · subst hut
      exact ht (by simpa [Sim.setRunnable] using hu) c hc
    · exact h.shunned c u hc (by simpa [Sim.setRunnable, hut] using hu)

theorem vacate (h : Avoids broken s) (t : ℕ) : Avoids broken (vacate s t) := by
  unfold Sched.vacate
  split
  · exact h.of_same rfl rfl rfl rfl
  · exact h

theorem letGo (h : Avoids broken s) (t : ℕ) : Avoids broken (letGo s t) := by
  unfold Sched.letGo
  split
  · rename_i old _
    refine ⟨h.idle, fun c hc => ?_, h.shunned⟩
    by_cases hcc : c = old
    · simp [hcc]
    · simpa [hcc] using h.owner c hc
  · exact h

theorem forgetOldCore (h : Avoids broken s) (t : ℕ) : Avoids broken (forgetOldCore s t) := by
  unfold Sched.forgetOldCore
  split
  · exact h.setCoreThread nofun
  · exact h

end Avoids

/-- Any fault. -/
def AnyFault : Fault → Prop := fun _ => True

/-- A thread enters a core that is not broken, or none. -/
theorem setCore_avoids (h : Avoids broken s) (t : ℕ) {core : Option ℕ}
    (hcore : ∀ c, core = some c → broken c = false) :
    Ensures (setCore s t core) (Avoids broken) AnyFault := by
  have hgone := h.letGo t
  unfold setCore
  dsimp only
  split
  · exact .ok (hgone.of_same rfl rfl rfl rfl)
  · rename_i new
    split
    · refine .ok ⟨hgone.idle, fun c hc => ?_, hgone.shunned⟩
      have hne : c ≠ new := ne_of_broken hc (hcore new rfl)
      simpa [hne] using hgone.owner c hc
    · exact .error trivial

theorem enterCore_avoids (h : Avoids broken s) (t : ℕ) (hcore : broken core = false) :
    Ensures (enterCore s t core) (Avoids broken) AnyFault := by
  refine (setCore_avoids h t fun c hc => ?_).bind fun a ha => .ok ?_
  · rw [← Option.some.inj hc]; exact hcore
  · split
    · exact ha
    · exact ha.of_same rfl rfl rfl rfl

theorem moveThread_avoids {resume : Sim → ℕ → Except Fault Sim} (h : Avoids broken s) {core : Option ℕ}
    (hcore : ∀ c, core = some c → broken c = false)
    (hres : ∀ a, Avoids broken a → (a.info.get t).affinity = (s.info.get t).affinity →
      Ensures (resume a t) (Avoids broken) AnyFault) :
    Ensures (moveThread resume s t core) (Avoids broken) AnyFault := by
  cases core with
  | none =>
    rw [moveThread]
    exact setCore_avoids (h.vacate t) t (by simp)
  | some new =>
    refine Ensures.bind (Q := Avoids broken) ?_ fun a ha => enterCore_avoids ha t (hcore new rfl)
    unfold wakeUnscheduled
    split
    · refine hres _ (h.vacate t) ?_
      unfold vacate
      split <;> rfl
    · exact .ok (h.vacate t)

/-- Waking a thread that is not allowed on a broken core. -/
theorem resumeThread_avoids {resched : Sim → ℕ → Except Fault Sim}
    (hre : ∀ a c, Avoids broken a → Ensures (resched a c) (Avoids broken) AnyFault) (h : Avoids broken s)
    (ht : ∀ c, broken c = true → (s.info.get t).affinity c = false) :
    Ensures (resumeThread cfg resched s t) (Avoids broken) AnyFault := by
  have hawake : Avoids broken ((s.setStatus t .running).setRunnable t true) := by
    have hstatus : Avoids broken (s.setStatus t .running) := h.of_same rfl rfl rfl rfl
    exact hstatus.setRunnable fun _ => ht
  unfold resumeThread scheduleIfFree
  dsimp only
  split
  · split
    · split
      · exact hre _ _ hawake
      · exact .ok hawake
    · exact .error trivial
  · exact .error trivial

theorem unschedule_avoids (h : Avoids broken s) (time core : ℕ) (current : Option ℕ) :
    Ensures (unschedule s time core current) (Avoids broken) AnyFault := by
  cases current with
  | none => exact .ok h
  | some t =>
    have hout : Avoids broken (s.modifyInfo t (ThreadInfo.scheduledOut (time + 1000 * core))) :=
      h.modifyInfo t fun _ => rfl
    rw [unschedule]
    exact moveThread_avoids hout (by simp) fun a ha _ => .ok ha

/-- A thread that is allowed on the core and on no broken one takes the core. -/
theorem schedule_avoids {resched : Sim → ℕ → Except Fault Sim} {new : Option ℕ}
    (hre : ∀ a c, Avoids broken a → Ensures (resched a c) (Avoids broken) AnyFault) (h : Avoids broken s)
    (time : ℕ) (hnew : ∀ t, new = some t →
      broken core = false ∧ ∀ c, broken c = true → (s.info.get t).affinity c = false) :
    Ensures (schedule (resumeThread cfg resched) s time core new) (Avoids broken) AnyFault := by
  cases new with
  | none => exact .ok h
  | some t =>
    obtain ⟨hcore, haff⟩ := hnew t rfl
    have hinfo : (forgetOldCore s t).info = s.info := by
      unfold forgetOldCore
      split <;> rfl
    have hin : Avoids broken ((forgetOldCore s t).modifyInfo t (ThreadInfo.scheduledIn core time)) :=
      (h.forgetOldCore t).modifyInfo t fun _ => rfl
    rw [schedule]
    refine moveThread_avoids hin (fun c hc => ?_) fun a ha hsame => resumeThread_avoids hre ha ?_
    · rw [← Option.some.inj hc]; exact hcore
    · intro c hc
      rw [hsame]
      simpa [Sim.modifyInfo, ThreadInfo.scheduledIn, hinfo] using haff c hc

/-- A core that is broken is not given to any thread, since none that can run is allowed on it. -/
theorem rescheduleDepth_avoids (cfg : Config) (time depth : ℕ) (h : Avoids broken s) (core : ℕ) :
    Ensures (rescheduleDepth cfg time depth s core) (Avoids broken) AnyFault := by
  induction depth generalizing s core with
  | zero => exact .error trivial
  | succ depth ih =>
    rw [rescheduleDepth, rescheduleBody]
    split
    · exact .ok h
    · split
      · exact .error trivial
      · dsimp only
        split
        · exact .ok (h.of_same rfl rfl rfl rfl)
        · have hpick : ∀ t, pickThread s time core = some t →
              broken core = false ∧ ∀ c, broken c = true → (s.info.get t).affinity c = false := by
            intro t ht
            obtain ⟨haff, hrun, -⟩ := eligible_iff.1 (pickThread_eligible ht).2
            refine ⟨?_, fun c hc => h.shunned c t hc hrun⟩
            by_contra hbroken
            rw [h.shunned core t (by simpa using hbroken) hrun] at haff
            cases haff
          refine Ensures.bind (Q := Avoids broken) ?_ fun b hb => .ok (hb.of_same rfl rfl rfl rfl)
          refine ((unschedule_avoids h time core _).and (unschedule_frame ..)).bind ?_
          rintro a ⟨ha, hframe⟩
          refine schedule_avoids (fun b c hb => ih hb c) (ha.setCoreThread fun t ht => (hpick t ht).1) time ?_
          intro t ht
          refine ⟨(hpick t ht).1, fun c hc => ?_⟩
          rw [show ((a.setCoreThread core (pickThread s time core)).info.get t).affinity =
            (s.info.get t).affinity from hframe.affinity t]
          exact (hpick t ht).2 c hc

theorem reschedule_avoids (h : Avoids broken s) (time core : ℕ) :
    Ensures (reschedule cfg s time core) (Avoids broken) AnyFault :=
  rescheduleDepth_avoids cfg time _ h core

theorem scheduleIfFree_avoids (h : Avoids broken s) (time t : ℕ) :
    Ensures (scheduleIfFree cfg (fun s core => reschedule cfg s time core) s t) (Avoids broken) AnyFault := by
  unfold scheduleIfFree
  split
  · split
    · exact reschedule_avoids h ..
    · exact .ok h
  · exact .error trivial

theorem leaveCore_avoids (h : Avoids broken s) (time t : ℕ) :
    Ensures (leaveCore cfg time s t) (Avoids broken) AnyFault := by
  unfold leaveCore
  split
  · split
    · exact reschedule_avoids h ..
    · exact .ok h
  · exact .error trivial

theorem threadYield_avoids (h : Avoids broken s) (clock : ℕ → ℕ) (t : ℕ) :
    Ensures (threadYield cfg clock s t) (Avoids broken) AnyFault := by
  unfold threadYield
  split
  · split
    · exact .ok h
    · rename_i core _
      have hquantum : Avoids broken (s.setQuantum core 0) := h.of_same rfl rfl rfl rfl
      refine (reschedule_avoids hquantum ..).bind fun a ha => ?_
      split
      · exact .ok ha
      · split
        · exact reschedule_avoids ha ..
        · exact .ok ha
  · exact .error trivial

theorem applyAffinity_avoids (h : Avoids broken s) (clock : ℕ → ℕ) (t : ℕ) :
    Ensures (applyAffinity cfg clock s t) (Avoids broken) AnyFault := by
  unfold applyAffinity
  split
  · split
    · split
      · exact .ok h
      · exact .error trivial
    · exact .ok (h.of_same rfl rfl rfl rfl)
  · split
    · split
      · split
        · exact reschedule_avoids h ..
        · exact .ok h
      · exact .ok h
    · exact .error trivial

/-- A thread that can run is given no broken core. -/
theorem threadSetAffinity_avoids {calling : Option ℕ} {mask : Option (List ℕ)} (h : Avoids broken s)
    (ht : s.runnable.get t = true → ∀ c, broken c = true →
      newAffinity cfg ((grownInfo s t).get t).affinity mask c = false) :
    Ensures (threadSetAffinity cfg clock s calling t mask) (Avoids broken) AnyFault := by
  refine ((recordAffinity_spec cfg s t mask).mono (fun _ h => h) fun _ _ => trivial).bind fun a ha => ?_
  have hrecorded : Avoids broken a := by
    refine ⟨by rw [ha.same]; exact h.idle, by rw [ha.same]; exact h.owner, fun c u hc hu => ?_⟩
    rw [ha.same] at hu
    by_cases hut : u = t
    · rw [hut, ha.affinity]
      exact ht (hut ▸ hu) c hc
    · rw [ha.other u hut]
      unfold grownInfo
      split
      · rw [Table.get_resize]
        split
        · exact h.shunned c u hc hu
        · rfl
      · exact h.shunned c u hc hu
  split
  · exact .ok hrecorded
  · split
    · exact threadYield_avoids hrecorded ..
    · exact applyAffinity_avoids hrecorded ..

/-- No big core, or no small core, is broken. -/
def Spared (cfg : Config) (broken : ℕ → Bool) (big : Bool) : Prop :=
  ∀ c, broken c = true → (coresOf cfg big).contains c = false

theorem moveTo_avoids (h : Avoids broken s) {big : Bool} (ht : s.runnable.get t = true → Spared cfg broken big) :
    Ensures (moveTo cfg clock big s t) (Avoids broken) AnyFault := by
  refine (threadSetAffinity_avoids h fun hrun c hc => ?_).bind fun a ha => .ok (ha.of_same rfl rfl rfl rfl)
  exact ht hrun c hc

/-- Every thread that can run is on the big cores. -/
def NothingToPromote (s : Sim) : Prop := ∀ u < s.numThreads, s.threadIsBig u = false → s.runnable.get u = false

theorem NothingToPromote.promotable (h : NothingToPromote s) : promotable s = [] := by
  refine List.filter_eq_nil_iff.2 fun u hu => ?_
  have hrun := h u (List.mem_range.1 hu)
  cases hbig : s.threadIsBig u with
  | true => simp
  | false => simp [hrun hbig]

theorem pickBigThread_avoids (h : Avoids broken s) (hbig : Spared cfg broken true ∨ NothingToPromote s) :
    Ensures (pickBigThread cfg clock s) (Avoids broken) AnyFault := by
  unfold pickBigThread
  split
  · split
    · exact .ok h
    · rename_i t ts hlist
      rcases hbig with hspared | hnone
      · have hrng : Avoids broken { s with rng := rngNext s.rng } := h.of_same rfl rfl rfl rfl
        exact moveTo_avoids hrng fun _ => hspared
      · rw [hnone.promotable] at hlist
        cases hlist
  · exact .error trivial

theorem replaceBigThread_avoids (h : Avoids broken s)
    (hbig : BigLooks cfg s t → Spared cfg broken true ∨ NothingToPromote s) :
    Ensures (replaceBigThread cfg clock s t) (Avoids broken) AnyFault := by
  unfold replaceBigThread
  split
  · rename_i hlooks; exact pickBigThread_avoids h (hbig hlooks)
  · exact .ok h

/-- What a change of affinity leaves alone. -/
theorem moveTo_same (cfg : Config) (clock : ℕ → ℕ) (big : Bool) (s : Sim) (t : ℕ) :
    Ensures (moveTo cfg clock big s t) (fun b => b.runnable = s.runnable ∧ b.numThreads = s.numThreads ∧
      b.coreThreadMap = s.coreThreadMap ∧ b.threadIsBig = Function.update s.threadIsBig t big) AnyFault := by
  refine Ensures.bind (Q := fun b => b.runnable = s.runnable ∧ b.numThreads = s.numThreads ∧
    b.coreThreadMap = s.coreThreadMap ∧ b.threadIsBig = s.threadIsBig) ?_
    fun b hb => .ok ⟨hb.1, hb.2.1, hb.2.2.1, by rw [hb.2.2.2]⟩
  refine (threadSetAffinity_spec ..).mono ?_ fun _ _ => trivial
  rintro b ⟨a, ha, hframe⟩
  have hmap : b.coreThreadMap = a.coreThreadMap := congrArg (·.coreThreadMap) hframe.fixed
  have hbig : b.threadIsBig = a.threadIsBig := congrArg (·.threadIsBig) hframe.fixed
  rw [hframe.runnable, hframe.numThreads, hmap, hbig, ha.same]
  exact ⟨rfl, rfl, rfl, rfl⟩

/-- Promoting a thread keeps the other threads stalled and the mapping as it is. -/
theorem pickBigThread_same (cfg : Config) (clock : ℕ → ℕ) (s : Sim) :
    Ensures (pickBigThread cfg clock s) (fun b => b.runnable = s.runnable ∧ b.numThreads = s.numThreads ∧
      b.coreThreadMap = s.coreThreadMap) AnyFault := by
  unfold pickBigThread
  split
  · split
    · exact .ok ⟨rfl, rfl, rfl⟩
    · exact (moveTo_same ..).mono (fun b hb => ⟨hb.1, hb.2.1, hb.2.2.1⟩) fun _ hf => hf
  · exact .error trivial

theorem replaceBigThread_same (cfg : Config) (clock : ℕ → ℕ) (s : Sim) (t : ℕ) :
    Ensures (replaceBigThread cfg clock s t) (fun b => b.runnable = s.runnable ∧ b.numThreads = s.numThreads ∧
      b.coreThreadMap = s.coreThreadMap) AnyFault := by
  unfold replaceBigThread
  split
  · exact pickBigThread_same ..
  · exact .ok ⟨rfl, rfl, rfl⟩

/-- A thread that stalls is no longer in the way. -/
theorem stallThread_avoids {reason : StallType} (h : Avoids broken s)
    (hbig : BigLooks cfg s t → Spared cfg broken true ∨ NothingToPromote s) :
    Ensures (stallThread cfg clock time s t reason) (Avoids broken) AnyFault := by
  unfold stallThread
  split
  · split
    · exact .ok (h.of_same rfl rfl rfl rfl)
    · split
      · have hstatus : Avoids broken (s.setStalled t reason) := h.of_same rfl rfl rfl rfl
        have hstalled : Avoids broken ((s.setStalled t reason).setRunnable t false) :=
          hstatus.setRunnable (by simp)
        have hbig' : BigLooks cfg ((s.setStalled t reason).setRunnable t false) t →
            Spared cfg broken true ∨ NothingToPromote ((s.setStalled t reason).setRunnable t false) := by
          refine fun hlooks => (hbig hlooks).imp id fun hnone u hu hsmall => ?_
          by_cases hut : u = t
          · simp [Sim.setRunnable, hut]
          · simpa [Sim.setRunnable, Sim.setStalled, hut] using hnone u hu hsmall
        rw [threadStall]
        refine ((replaceBigThread_avoids hstalled hbig').and (replaceBigThread_same ..)).bind ?_
        rintro a ⟨ha, hrun, -⟩
        refine Ensures.bind (Q := Avoids broken) ?_ fun b hb => leaveCore_avoids hb ..
        unfold demote
        split
        · refine moveTo_avoids ha fun ht => ?_
          rw [hrun] at ht
          simp [Sim.setRunnable] at ht
        · exact .ok ha
      · exact .error trivial
  · exact .error trivial

theorem wakeThread_avoids (h : Avoids broken s)
    (ht : t < s.numThreads → ∀ c, broken c = true → (s.info.get t).affinity c = false) :
    Ensures (wakeThread cfg time s t) (Avoids broken) AnyFault := by
  unfold wakeThread
  split
  · rename_i hlt
    exact resumeThread_avoids (fun a c ha => reschedule_avoids ha time c) h (ht hlt)
  · exact .error trivial

theorem onThreadStart_avoids (h : Avoids broken s)
    (ht : t < s.numThreads → ∀ c, broken c = true → (s.info.get t).affinity c = false) :
    Ensures (onThreadStart cfg time s t) (Avoids broken) AnyFault := by
  unfold onThreadStart
  split
  · rename_i hlt
    refine Ensures.bind (Q := Avoids broken) ?_ fun b hb => ?_
    · unfold hookThreadStart
      dsimp only
      split
      · refine scheduleIfFree_avoids (Avoids.setRunnable ?_ fun _ => ?_) ..
        · unfold growRunnable
          split
          · refine ⟨h.idle, h.owner, fun c u hc hu => h.shunned c u hc ?_⟩
            dsimp only [Sim.setStatus] at hu
            rw [Table.get_resize] at hu
            split at hu
            · exact hu
            · cases hu
          · exact h.of_same rfl rfl rfl rfl
        · unfold growRunnable
          split <;> exact ht hlt
      · exact .error trivial
    · split
      · exact .ok (hb.of_same rfl rfl rfl rfl)
      · exact .ok (hb.of_same rfl rfl rfl rfl)
  · exact .error trivial

/-- The first core of a new thread is not broken. -/
structure FirstCoreFine (cfg : Config) (broken : ℕ → Bool) (s : Sim) (app : ℕ) : Prop where
  given : ((growInfo s s.numThreads).info.get s.numThreads).hasAffinity = true → ∀ c, broken c = true →
    ((growInfo s s.numThreads).info.get s.numThreads).affinity c = false
  small : cfg.policy = .bigSmall → Spared cfg broken false
  mapped : cfg.policy = .pinned → cfg.modifiedCode = true →
    broken (mappedCore s app (s.currentThreadCount app)) = false
  free : cfg.policy = .pinned → cfg.modifiedCode = false →
    ∀ core, getFreeCore cfg s s.nextCore = .ok core → broken core = false

/-- The search for a free core looks at `m_core_thread_running` only. -/
theorem searchFreeCore_congr (h : s'.coreThread = s.coreThread) (first rounds core : ℕ) :
    searchFreeCore cfg s' first rounds core = searchFreeCore cfg s first rounds core := by
  induction rounds generalizing core with
  | zero => rfl
  | succ rounds ih => simp only [searchFreeCore, h, ih]

/-- A thread is pinned to a core that is not broken. -/
theorem Avoids.pinInfo (h : Avoids broken s) {i : ThreadInfo} (hi : ∀ c, broken c = true → i.affinity c = false)
    (hcore : s'.coreThread = s.coreThread) (howner : s'.coreOwner = s.coreOwner)
    (hrun : s'.runnable = s.runnable) (hinfo : s'.info = s.info.set t i) : Avoids broken s' where
  idle := by rw [hcore]; exact h.idle
  owner := by rw [howner]; exact h.owner
  shunned c u hc hu := by
    rw [hinfo, Table.get_set]
    split
    · exact hi c hc
    · exact h.shunned c u hc (hrun ▸ hu)

theorem setAffinitySingle_affinity (i : ThreadInfo) (core c : ℕ) :
    (i.setAffinitySingle core).affinity c = decide (c = core) := by
  by_cases hc : c = core
  · simp [ThreadInfo.setAffinitySingle, ThreadInfo.addAffinity, hc]
  · simp [ThreadInfo.setAffinitySingle, ThreadInfo.addAffinity, ThreadInfo.clearAffinity, hc]

/-- Being pinned to a core that is not broken rules out the broken ones. -/
theorem pinned_avoids (i : ThreadInfo) (hcore : broken core = false) (c : ℕ) (hc : broken c = true) :
    (i.setAffinitySingle core).affinity c = false := by
  rw [setAffinitySingle_affinity, decide_eq_false_iff_not]
  exact ne_of_broken hc hcore

theorem threadSetInitialAffinity_avoids (h : Avoids broken s)
    (hsmall : cfg.policy = .bigSmall → Spared cfg broken false)
    (hmapped : cfg.policy = .pinned → cfg.modifiedCode = true →
      broken (mappedCore s (s.appId t) (s.currentThreadCount (s.appId t))) = false)
    (hfree : cfg.policy = .pinned → cfg.modifiedCode = false →
      ∀ core, getFreeCore cfg s s.nextCore = .ok core → broken core = false) :
    Ensures (threadSetInitialAffinity cfg clock s t)
      (fun b => Avoids broken b ∧ ∀ c, broken c = true → (b.info.get t).affinity c = false) AnyFault := by
  unfold threadSetInitialAffinity
  split
  · rename_i hpol
    have hspared : ∀ c, broken c = true →
        newAffinity cfg ((grownInfo s t).get t).affinity (some (coresOf cfg false)) c = false := hsmall hpol
    refine ((threadSetAffinity_avoids h fun _ => hspared).and (threadSetAffinity_spec ..)).bind ?_
    rintro b ⟨hb, a, ha, hframe⟩
    refine .ok ⟨hb.of_same rfl rfl rfl rfl, fun c hc => ?_⟩
    rw [show ((Sim.info { b with threadIsBig := _ }).get t).affinity = (a.info.get t).affinity from
      hframe.affinity t, ha.affinity]
    exact hspared c hc
  · rename_i hpol
    split
    · rename_i hmod
      unfold setMappedAffinity
      dsimp only
      split
      · have hpin := pinned_avoids (s.info.get t) (hmapped hpol hmod)
        refine .ok ⟨h.pinInfo hpin rfl rfl rfl rfl, fun c hc => ?_⟩
        rw [Table.get_set, if_pos rfl]
        exact hpin c hc
      · exact .error trivial
    · rename_i hmod
      unfold setRoundRobinAffinity
      cases hcore : getFreeCore cfg s s.nextCore with
      | error f => exact .error trivial
      | ok core =>
        rw [ok_bind]
        refine ((getNextCore_faults ..).mono (fun _ h => h) fun _ _ => trivial).bind fun next _ => ?_
        have hpin := pinned_avoids (s.info.get t) (hfree hpol (by simpa using hmod) core hcore)
        refine .ok ⟨h.pinInfo hpin rfl rfl rfl rfl, fun c hc => ?_⟩
        rw [Sim.modifyInfo, Table.get_set, if_pos rfl]
        exact hpin c hc

theorem takeFreeCore_avoids (h : Avoids broken s) (ht : ∀ c, broken c = true → (s.info.get t).affinity c = false) :
    Avoids broken (takeFreeCore cfg s t).1 ∧ ∀ c, (takeFreeCore cfg s t).2 = some c → broken c = false := by
  unfold takeFreeCore
  split
  · rename_i core hcore
    have hfine : broken core = false := by
      by_contra hbroken
      have haff := (findFreeCoreForThread_some hcore).2.1
      rw [ht core (by simpa using hbroken)] at haff
      cases haff
    refine ⟨?_, fun c hc => by rw [← Option.some.inj hc]; exact hfine⟩
    have hinfo : Avoids broken (s.modifyInfo t (ThreadInfo.setCoreRunning (some core))) :=
      h.modifyInfo t fun _ => rfl
    have hplaced : Avoids broken
        ((s.modifyInfo t (ThreadInfo.setCoreRunning (some core))).setCoreThread core (some t)) :=
      hinfo.setCoreThread fun _ _ => hfine
    exact hplaced.of_same rfl rfl rfl rfl
  · exact ⟨h.modifyInfo t fun _ => rfl, nofun⟩

theorem Avoids.growInfo (h : Avoids broken s) (t : ℕ) : Avoids broken (growInfo s t) := by
  unfold Sched.growInfo
  split
  · refine ⟨h.idle, h.owner, fun c u hc hu => ?_⟩
    dsimp only
    rw [Table.get_resize]
    split
    · exact h.shunned c u hc hu
    · rfl
  · exact h

theorem createThread_avoids (h : Avoids broken s) {app : ℕ}
    (hnew : ¬ heldBack cfg s app → FirstCoreFine cfg broken s app) :
    Ensures (createThread cfg clock s app) (Avoids broken) AnyFault := by
  unfold createThread
  dsimp only
  generalize hs₀ : Sim.setStatus { s with numThreads := _, appId := _ } s.numThreads .initializing = s₀
  have hgrown : Avoids broken (Sched.growInfo s₀ s.numThreads) := by
    refine Avoids.growInfo (h.of_same ?_ ?_ ?_ ?_) _ <;> rw [← hs₀] <;> rfl
  have hsame : Sched.growInfo s₀ s.numThreads = { s₀ with info := (Sched.growInfo s s.numThreads).info } := by
    rw [← hs₀]
    by_cases hsize : s.info.size ≤ s.numThreads
    · simp [Sched.growInfo, Sim.setStatus, hsize]
    · simp [Sched.growInfo, Sim.setStatus, hsize]
  refine Ensures.bind (Q := fun r => Avoids broken r.1 ∧ ∀ c, r.2 = some c → broken c = false) ?_ fun r hr => ?_
  · rw [threadCreate]
    split
    · split
      · refine Ensures.bind (Q := Avoids broken) ?_ fun b hb => .ok ⟨hb.modifyInfo _ fun _ => rfl,
          fun c hc => by cases hc⟩
        unfold holdBack
        dsimp only
        split
        · exact .ok (hgrown.of_same rfl rfl rfl rfl)
        · exact .error trivial
      · rename_i hheld
        have happ : (Sched.growInfo s₀ s.numThreads).appId s.numThreads = app := by
          rw [hsame, ← hs₀]
          simp [Sim.setStatus]
        have hfine : FirstCoreFine cfg broken s app := by
          refine hnew fun hback => hheld ?_
          rw [happ, hsame, ← hs₀]
          exact hback
        refine Ensures.bind (Q := fun b => Avoids broken b ∧
          ∀ c, broken c = true → (b.info.get s.numThreads).affinity c = false) ?_
          fun b hb => .ok (takeFreeCore_avoids hb.1 hb.2)
        unfold ensureAffinity
        split
        · rename_i hhas
          refine .ok ⟨hgrown, ?_⟩
          rw [hsame] at hhas ⊢
          exact hfine.given hhas
        · refine threadSetInitialAffinity_avoids hgrown hfine.small ?_ ?_
          · intro hpol hmod
            rw [happ, hsame, ← hs₀]
            exact hfine.mapped hpol hmod
          · intro hpol hmod core hcore
            have hthreads : (Sched.growInfo s₀ s.numThreads).coreThread = s.coreThread := by rw [hsame, ← hs₀]; rfl
            have hnext : (Sched.growInfo s₀ s.numThreads).nextCore = s.nextCore := by rw [hsame, ← hs₀]; rfl
            rw [getFreeCore, searchFreeCore_congr hthreads, hnext] at hcore
            exact hfine.free hpol hmod core hcore
    · exact .error trivial
  · obtain ⟨a, core⟩ := r
    cases core with
    | none => exact .ok hr.1
    | some core =>
      refine (setCore_avoids hr.1 _ fun c hc => hr.2 c hc).bind fun b hb => .ok (hb.of_same rfl rfl rfl rfl)

/-- Waking a thread changes its own status and lets it run; the rest is rescheduling. -/
theorem wakeThread_frame (cfg : Config) (time : ℕ) (s : Sim) (t : ℕ) :
    Ensures (wakeThread cfg time s t) (Frame ((s.setStatus t .running).setRunnable t true)) AnyFault := by
  unfold wakeThread resumeThread
  dsimp only
  split
  · split
    · exact (scheduleIfFree_frame ..).mono (fun _ hb => hb) fun _ _ => trivial
    · exact .error trivial
  · exact .error trivial

/-- The threads an exit wakes up are not allowed on broken cores. -/
def WakesOff (broken : ℕ → Bool) (s : Sim) (wake : List ℕ) : Prop :=
  ∀ u ∈ wake, u < s.numThreads → ∀ c, broken c = true → (s.info.get u).affinity c = false

/-- The first part of an exit. Only the woken threads can run that could not before. -/
theorem beginExit_avoids {wake : List ℕ} (h : Avoids broken s) (hwake : WakesOff broken s wake) :
    Ensures (beginExit cfg time s t core wake)
      (fun b => Avoids broken b ∧ SamePlan s b ∧ b.numThreads = s.numThreads ∧
        b.coreThreadMap = s.coreThreadMap ∧
        ∀ u, b.runnable.get u = true → s.runnable.get u = true ∨ u ∈ wake) AnyFault := by
  refine Ensures.bind (Q := fun b => Avoids broken b ∧ SamePlan s b ∧ b.numThreads = s.numThreads ∧
    b.coreThreadMap = s.coreThreadMap ∧ (∀ u, (b.info.get u).affinity = (s.info.get u).affinity) ∧
    ∀ u, b.runnable.get u = true → s.runnable.get u = true ∨ u ∈ wake) ?_ fun a ha => ?_
  · refine Ensures.foldlM (fun a v hv ha => ?_)
      ⟨h.of_same rfl rfl rfl rfl, ⟨⟨rfl, rfl, rfl⟩, rfl⟩, rfl, rfl, fun _ => rfl, fun _ hu => .inl hu⟩
    obtain ⟨havoid, hplan, hnum, hmap, haff, hrun⟩ := ha
    have hfine : v < a.numThreads → ∀ c, broken c = true → (a.info.get v).affinity c = false := by
      rw [hnum, haff]
      exact hwake v hv
    refine ((wakeThread_avoids havoid hfine).and (wakeThread_frame ..)).mono ?_ fun _ hf => hf
    rintro b ⟨hb, hframe⟩
    have hwoken : SamePlan a ((a.setStatus v .running).setRunnable v true) := ⟨⟨rfl, rfl, rfl⟩, rfl⟩
    refine ⟨hb, hplan.trans (hwoken.trans (.of_frame hframe)), hframe.numThreads.trans hnum,
      (congrArg (·.coreThreadMap) hframe.fixed).trans hmap, fun u => (hframe.affinity u).trans (haff u), ?_⟩
    intro u hu
    rw [hframe.runnable] at hu
    by_cases huv : u = v
    · exact .inr (huv ▸ hv)
    · exact hrun u (by simpa [Sim.setRunnable, Sim.setStatus, huv] using hu)
  · obtain ⟨havoid, hplan, hnum, hmap, -, hrun⟩ := ha
    have hstate : Avoids broken (a.setState core .idle) := havoid.of_same rfl rfl rfl rfl
    refine ((setCore_avoids hstate t (by simp)).and (setCore_frame ..)).bind ?_
    rintro b ⟨hb, hframe⟩
    have hall := (frame_setState a core .idle).trans hframe
    split
    · have hend : SamePlan b (b.setRunnable t false) := ⟨⟨rfl, rfl, rfl⟩, rfl⟩
      refine .ok ⟨hb.setRunnable (by simp), hplan.trans ((SamePlan.of_frame hall).trans hend),
        hall.numThreads.trans hnum, (congrArg (·.coreThreadMap) hall.fixed).trans hmap, fun u hu => ?_⟩
      by_cases hut : u = t
      · simp [Sim.setRunnable, hut] at hu
      · refine hrun u ?_
        rw [← hall.runnable]
        simpa [Sim.setRunnable, hut] using hu
    · exact .error trivial

/-- The move of a waiting thread leaves the mapping alone. -/
theorem moveThread_map (cfg : Config) (time : ℕ) (s : Sim) (t core : ℕ) :
    Ensures (moveThread (resumeThread cfg fun s core => reschedule cfg s time core) s t (some core))
      (fun b => b.coreThreadMap = s.coreThreadMap) AnyFault := by
  have hvacate : (vacate s t).coreThreadMap = s.coreThreadMap := by
    unfold vacate
    split <;> rfl
  refine Ensures.bind (Q := fun b => b.coreThreadMap = s.coreThreadMap) ?_ fun a ha => ?_
  · unfold wakeUnscheduled resumeThread
    dsimp only
    split
    · split
      · refine (scheduleIfFree_frame ..).mono (fun b hb => ?_) fun _ _ => trivial
        exact (congrArg (·.coreThreadMap) hb.fixed).trans hvacate
      · exact .error trivial
    · exact .ok hvacate
  · refine ((setCore_frame a t (some core)).mono (fun b hb => ?_) fun _ _ => trivial).bind
      (Q := fun b => b.coreThreadMap = s.coreThreadMap) fun b hb => .ok ?_
    · exact (congrArg (·.coreThreadMap) hb.fixed).trans ha
    · split
      · exact hb
      · exact hb

/-- A waiting thread is placed on a core that is not broken. -/
theorem placeThread_avoids {w : Waiting} (h : Avoids broken s) (hcore : broken (coreOf s w) = false) :
    Ensures (placeThread cfg time s w) (fun b => Avoids broken b ∧ ∀ w', coreOf b w' = coreOf s w') AnyFault := by
  have hann : Avoids broken (announced cfg time s w) := by
    refine ⟨fun c hc => ?_, h.owner, fun c u hc hu => ?_⟩
    · have hne : c ≠ coreOf s w := ne_of_broken hc hcore
      simpa [announced, hne] using h.idle c hc
    · by_cases hut : u = w.thread
      · rw [hut, announced_affinity, decide_eq_false_iff_not]
        exact ne_of_broken hc hcore
      · rw [announced_info_of_ne _ _ _ _ hut]
        exact h.shunned c u hc hu
  unfold placeThread
  split
  · split
    · refine Ensures.bind (Q := fun b => Avoids broken b ∧ ∀ w', coreOf b w' = coreOf s w') ?_ fun b hb => .ok ?_
      · refine ((moveThread_avoids hann (fun c hc => ?_) fun a ha hsame => ?_).and (moveThread_map ..)).mono ?_
          fun _ hf => hf
        · rw [← Option.some.inj hc]; exact hcore
        · refine resumeThread_avoids (fun a c ha => reschedule_avoids ha time c) ha fun c hc => ?_
          rw [hsame, announced_affinity, decide_eq_false_iff_not]
          exact ne_of_broken hc hcore
        · rintro b ⟨hb, hmap⟩
          refine ⟨hb, fun w' => ?_⟩
          rw [coreOf, mappedCore, hmap]
          exact mappedCore_touchMap s w.app w.rank w'.app w'.rank
      · split
        · exact ⟨hb.1.of_same rfl rfl rfl rfl, hb.2⟩
        · exact hb
    · exact .error trivial
  · exact .error trivial

/-- The threads of the next hyper-period get cores that are not broken. -/
def NextPeriodFine (cfg : Config) (broken : ℕ → Bool) (s : Sim) (file : List (ℕ × ℕ × ℕ)) : Prop :=
  ∀ w ∈ waitingThreads cfg (s.hyperPeriodNumber + 1) s,
    broken ((insertLines ((s.hyperPeriodNumber + 1) * cfg.numAppPerHyperPeriod) s.coreThreadMap file w.app
      w.rank).getD 0) = false

theorem countExit_avoids {file : List (ℕ × ℕ × ℕ)} (h : Avoids broken s)
    (hnext : changesPeriod cfg s → NextPeriodFine cfg broken s file) :
    Ensures (countExit cfg time s file) (Avoids broken) AnyFault := by
  unfold countExit
  split
  · rename_i hper
    dsimp only
    split
    · rename_i hends
      unfold nextHyperPeriod
      dsimp only
      generalize hstart : Sim.mk .. = start
      have hstart' : Avoids broken start := by
        rw [← hstart]
        exact h.of_same rfl rfl rfl rfl
      have hcores : ∀ w ∈ waitingThreads cfg (s.hyperPeriodNumber + 1) s, broken (coreOf start w) = false := by
        intro w hw
        rw [← hstart]
        exact hnext ⟨hper, hends⟩ w hw
      refine Ensures.mono (Q := fun b => Avoids broken b ∧ ∀ w, coreOf b w = coreOf start w) ?_
        (fun b hb => hb.1) fun _ hf => hf
      refine Ensures.foldlM (fun a w hw ha => ?_) ⟨hstart', fun _ => rfl⟩
      refine (placeThread_avoids ha.1 ?_).mono (fun b hb => ⟨hb.1, fun w' => (hb.2 w').trans (ha.2 w')⟩)
        fun _ hf => hf
      rw [ha.2 w]
      exact hcores w hw
    · exact .ok (h.of_same rfl rfl rfl rfl)
  · exact .ok h

/-- What an exit relies on. -/
structure ExitsOff (cfg : Config) (broken : ℕ → Bool) (s : Sim) (t : ℕ) (wake : List ℕ)
    (file : List (ℕ × ℕ × ℕ)) : Prop where
  woken : WakesOff broken s wake
  big : BigLooks cfg s t → Spared cfg broken true ∨
    NothingToPromote s ∧ ∀ u ∈ wake, u < s.numThreads → s.threadIsBig u = true
  next : changesPeriod cfg s → NextPeriodFine cfg broken s file

theorem onThreadExit_avoids {wake : List ℕ} {file : List (ℕ × ℕ × ℕ)} (h : Avoids broken s)
    (hexit : ExitsOff cfg broken s t wake file) :
    Ensures (onThreadExit cfg clock time s t wake file) (Avoids broken) AnyFault := by
  unfold onThreadExit
  split
  · split
    · exact .error trivial
    · split
      · refine (beginExit_avoids h hexit.woken).bind ?_
        rintro a ⟨ha, hplan, hnum, hmap, hrun⟩
        have hbig : BigLooks cfg a t → Spared cfg broken true ∨ NothingToPromote a := by
          intro hlooks
          rw [BigLooks, hplan.2] at hlooks
          refine (hexit.big hlooks).imp id fun hnone u hu hsmall => ?_
          rw [hnum] at hu
          rw [hplan.2] at hsmall
          by_contra hcan
          rcases hrun u (by simpa using hcan) with hran | hwoken
          · rw [hnone.1 u hu hsmall] at hran
            cases hran
          · rw [hnone.2 u hwoken hu] at hsmall
            cases hsmall
        rw [threadExit]
        refine (((replaceBigThread_avoids ha hbig).and (replaceBigThread_period ..)).and
          (replaceBigThread_same ..)).bind ?_
        rintro b ⟨⟨hb, hbp⟩, -, -, hbm⟩
        refine ((leaveCore_avoids hb ..).and (leaveCore_frame ..)).bind ?_
        rintro d ⟨hd, hframe⟩
        have hperiod := (hplan.1.trans hbp).trans hframe.samePeriod
        have hmaps : d.coreThreadMap = s.coreThreadMap :=
          ((congrArg (·.coreThreadMap) hframe.fixed).trans hbm).trans hmap
        refine countExit_avoids hd fun hchange => ?_
        have hchange' : changesPeriod cfg s := by
          rw [changesPeriod, hyperPeriodEnds] at hchange ⊢
          simpa only [hperiod.exited, hperiod.number] using hchange
        intro w hw
        rw [hperiod.number, waitingThreads_congr hperiod.apps] at hw
        rw [hperiod.number, hmaps]
        exact hexit.next hchange' w hw
      · exact .error trivial
  · exact .error trivial

theorem migrateThread_avoids {dest : ℕ} (h : Avoids broken s)
    (ht : s.runnable.get t = true → broken dest = false) :
    Ensures (migrateThread cfg clock dest s t)
      (fun b => Avoids broken b ∧ b.runnable = s.runnable ∧ b.threadsOnCore = s.threadsOnCore) AnyFault := by
  unfold migrateThread
  split
  · split
    · dsimp only
      generalize ha : s.modifyInfo t _ = a
      have havoid : Avoids broken a ∧ a.runnable = s.runnable ∧ a.threadsOnCore = s.threadsOnCore := by
        rw [← ha]
        refine ⟨⟨h.idle, h.owner, fun c u hc hu => ?_⟩, rfl, rfl⟩
        by_cases hut : u = t
        · rw [hut, Sim.modifyInfo, Table.get_set, if_pos rfl]
          exact pinned_avoids _ (ht (hut ▸ hu)) c hc
        · simpa [Sim.modifyInfo, hut] using h.shunned c u hc hu
      split
      · exact .ok havoid
      · refine ((applyAffinity_avoids havoid.1 ..).and (applyAffinity_frame ..)).mono ?_ fun _ hf => hf
        rintro b ⟨hb, hframe⟩
        exact ⟨hb, hframe.runnable.trans havoid.2.1, hframe.threadsOnCore.trans havoid.2.2⟩
    · exact .error trivial
  · exact .error trivial

/-- No thread that can run is moved to a broken core. -/
def MovesOff (broken : ℕ → Bool) (s : Sim) (moves : Option (List (ℕ × ℕ))) : Prop :=
  ∀ l, moves = some l → ∀ move ∈ l, ∀ t ∈ s.threadsOnCore move.1, s.runnable.get t = true → broken move.2 = false

theorem changeMapping_avoids {moves : Option (List (ℕ × ℕ))} (h : Avoids broken s) (hmoves : MovesOff broken s moves) :
    Ensures (changeMapping cfg clock s moves) (Avoids broken) AnyFault := by
  have hkeeps : Ensures (changeMapping cfg clock s moves) (fun b => Avoids broken b ∧ b.runnable = s.runnable)
      AnyFault := by
    refine changeMapping_keeps ⟨h, rfl⟩ (fun a lists ha => ⟨ha.1.of_same rfl rfl rfl rfl, ha.2⟩) trivial
      fun lines hlines move hmove u hu a ha => ?_
    have hfine : a.runnable.get u = true → broken move.2 = false := by
      rw [ha.2]
      exact hmoves lines hlines move hmove u hu
    refine (migrateThread_avoids ha.1 hfine).mono ?_ fun _ hf => hf
    rintro b ⟨hb, hrun, -⟩
    exact ⟨hb, hrun.trans ha.2⟩
  exact hkeeps.mono (fun _ hb => hb.1) fun _ hf => hf

/-- A reshuffle gives every thread that can run a core of one kind or the other. -/
structure ReshufflesOff (cfg : Config) (broken : ℕ → Bool) (s : Sim) : Prop where
  demoted : (∃ t < s.numThreads, s.threadIsBig t = true ∧ s.runnable.get t = true) → Spared cfg broken false
  promoted : (∃ t < s.numThreads, s.runnable.get t = true) → Spared cfg broken true

/-- No thread that exists can run. -/
def NoneRunnable (s : Sim) : Prop := ∀ t < s.numThreads, s.runnable.get t = false

theorem reshuffle_avoids (h : Avoids broken s)
    (hshuffle : cfg.policy = .bigSmall → s.lastReshuffle + cfg.quantum < time → ReshufflesOff cfg broken s) :
    Ensures (reshuffle cfg clock time s) (Avoids broken) AnyFault := by
  unfold reshuffle
  split
  · rename_i hnow
    obtain ⟨hdemoted, hpromoted⟩ := hshuffle hnow.1 hnow.2
    have hnone : Spared cfg broken true ∨ NoneRunnable s := by
      by_cases hran : ∃ t < s.numThreads, s.runnable.get t = true
      · exact .inl (hpromoted hran)
      · refine .inr fun t ht => ?_
        by_contra hcan
        exact hran ⟨t, ht, by simpa using hcan⟩
    refine Ensures.bind (Q := fun b => Avoids broken b ∧ b.runnable = s.runnable ∧
      b.numThreads = s.numThreads ∧ ∀ u, b.threadIsBig u = true → s.threadIsBig u = true) ?_ fun a ha => ?_
    · refine Ensures.foldlM (fun a t ht ha => ?_) ⟨h, rfl, rfl, fun _ hu => hu⟩
      obtain ⟨havoid, hrun, hnum, hbig⟩ := ha
      split
      · rename_i htbig
        have hfine : a.runnable.get t = true → Spared cfg broken false := by
          rw [hrun]
          exact fun hran => hdemoted ⟨t, List.mem_range.1 ht, hbig t htbig, hran⟩
        refine ((moveTo_avoids havoid hfine).and (moveTo_same ..)).mono ?_ fun _ hf => hf
        rintro b ⟨hb, hbrun, hbnum, -, hbbig⟩
        refine ⟨hb, hbrun.trans hrun, hbnum.trans hnum, fun u hu => hbig u ?_⟩
        rw [hbbig] at hu
        by_cases hut : u = t
        · simp [hut] at hu
        · simpa [hut] using hu
      · exact .ok ⟨havoid, hrun, hnum, hbig⟩
    · refine Ensures.bind (Q := fun b => Avoids broken b ∧ b.runnable = s.runnable ∧
        b.numThreads = s.numThreads) ?_ fun b hb => .ok (hb.1.of_same rfl rfl rfl rfl)
      refine Ensures.foldlM (fun b _ _ hb => ?_) ⟨ha.1, ha.2.1, ha.2.2.1⟩
      have hfine : Spared cfg broken true ∨ NothingToPromote b := by
        refine hnone.imp id fun hall u hu _ => ?_
        rw [hb.2.1]
        exact hall u (hb.2.2 ▸ hu)
      refine ((pickBigThread_avoids hb.1 hfine).and (pickBigThread_same ..)).mono ?_ fun _ hf => hf
      rintro d ⟨hd, hdrun, hdnum, -⟩
      exact ⟨hd, hdrun.trans hb.2.1, hdnum.trans hb.2.2⟩
  · exact .ok h

theorem quanta_avoids (h : Avoids broken s) (time : ℕ) :
    Ensures (fineStep cfg s (.quanta time)) (Avoids broken) AnyFault := by
  refine Ensures.bind (Q := Avoids broken) ?_ fun b hb => .ok (hb.of_same rfl rfl rfl rfl)
  refine Ensures.foldlM (fun a c _ ha => ?_) h
  unfold periodicCore
  split
  · exact reschedule_avoids ha ..
  · exact .ok (ha.of_same rfl rfl rfl rfl)

/-- The thread that ran on the core before the step is stalled for the broken core, and no other
thread changes its state. -/
def StallsExactly (c : ℕ) (s b : Sim) : Prop :=
  ∀ t, (s.coreThread c = some t → b.status t = .stalled ∧ b.stalledReason t = .broken) ∧
    (s.coreThread c ≠ some t → b.status t = s.status t ∧ b.stalledReason t = s.stalledReason t)

/-- No thread but possibly one that cannot run is allowed on the core. -/
def Shunned (s : Sim) (c : ℕ) : Prop := ∀ u, s.runnable.get u = true → (s.info.get u).affinity c = false

/-- Only the affinity of a thread that cannot run has changed. -/
structure Stopped (c : ℕ) (s d : Sim) : Prop where
  status : d.status = s.status
  reason : d.stalledReason = s.stalledReason
  coreThread : d.coreThread = s.coreThread
  coreOwner : d.coreOwner = s.coreOwner
  threadCore : d.threadCore = s.threadCore
  runnable : d.runnable = s.runnable
  size : d.info.size = s.info.size
  running : (d.info.get c).coreRunning = (s.info.get c).coreRunning
  shunned : Shunned d c

/-- The masks of the two kinds of cores name existing cores. -/
theorem addAffinities_coresOf (cfg : Config) (s : Sim) (t : ℕ) (big : Bool) :
    Ensures (addAffinities cfg s t (coresOf cfg big)) (fun _ => True) fun _ => False := by
  refine Ensures.foldlM (fun a cpu hcpu _ => ?_) trivial
  have hlt : cpu < cfg.numCores := List.mem_range.1 (List.mem_of_mem_filter hcpu)
  rw [if_pos hlt]
  exact .ok trivial

/-- Sending a thread that cannot run to the small cores changes its affinity and nothing else. -/
theorem demote_stopped {big : Bool} (hlt : c < s.numThreads) (hsize : c < s.info.size) (hrun : c < s.runnable.size)
    (hstop : s.runnable.get c = false) (hshun : Shunned s c) :
    Ensures (demote cfg clock big s c) (Stopped c s) fun f => f = .bounds := by
  unfold demote
  split
  · have hgrown : grownInfo s c = s.info := if_neg (Nat.not_le_of_lt hsize)
    have hrecord : Ensures (recordAffinity cfg s c (some (coresOf cfg false))) 
        (Recorded cfg c (some (coresOf cfg false)) s) fun _ => False := by
      have hspec := recordAffinity_spec cfg s c (some (coresOf cfg false))
      have hfine : Ensures (recordAffinity cfg s c (some (coresOf cfg false))) (fun _ => True) fun _ => False :=
        addAffinities_coresOf ..
      exact (hfine.and hspec).mono (fun _ hb => hb.2) fun _ hf => hf
    refine Ensures.bind (Q := Stopped c s) ?_ fun b hb => .ok ⟨hb.status, hb.reason, hb.coreThread, hb.coreOwner,
      hb.threadCore, hb.runnable, hb.size, hb.running, hb.shunned⟩
    refine (hrecord.mono (fun _ hb => hb) fun _ hf => hf.elim).bind fun a ha => ?_
    have hsame := ha.same
    have hrunnable : a.runnable = s.runnable := by rw [hsame]
    have hstopped : Stopped c s a := by
      refine ⟨by rw [hsame], by rw [hsame], by rw [hsame], by rw [hsame], by rw [hsame], hrunnable,
        by rw [ha.size, hgrown], by rw [ha.running, hgrown], fun u hu => ?_⟩
      rw [hrunnable] at hu
      have hne : u ≠ c := by
        rintro rfl
        rw [hstop] at hu
        cases hu
      rw [ha.other u hne, hgrown]
      exact hshun u hu
    have hnum : a.numThreads = s.numThreads := by rw [hsame]
    rw [hnum, if_neg (Nat.not_le_of_lt hlt), if_neg (by simp)]
    unfold applyAffinity
    rw [hrunnable, if_pos hrun, if_pos hrun]
    split
    · split
      · exact .ok hstopped
      · exact .ok ⟨hstopped.status, hstopped.reason, hstopped.coreThread, hstopped.coreOwner, hstopped.threadCore,
          hstopped.runnable, hstopped.size, hstopped.running, hstopped.shunned⟩
    · rw [hstop]
      exact .ok hstopped
  · exact .ok ⟨rfl, rfl, rfl, rfl, rfl, rfl, rfl, rfl, hshun⟩

/-- Taking a thread off its core never fails. -/
theorem unschedule_some (s : Sim) (t time core : ℕ) :
    ∃ a, unschedule s time core (some t) = .ok a ∧ a.status = s.status ∧ a.coreThread = s.coreThread ∧
      a.coreOwner = (letGo s t).coreOwner := by
  refine ⟨_, rfl, ?_⟩
  cases hcore : s.threadCore t with
  | none => simp [vacate, letGo, Sim.modifyInfo, hcore]
  | some old => simp [vacate, letGo, Sim.modifyInfo, Sim.setState, hcore]

/-- A core whose thread cannot run any more and that no other thread waits for becomes empty. -/
theorem reschedule_empties (ht : s.coreThread core = some t) (hstarted : s.status t ≠ .initializing)
    (hshun : Shunned s core) :
    Ensures (reschedule cfg s time core) (fun b => b.status = s.status ∧ b.stalledReason = s.stalledReason ∧
      b.coreThread = Function.update s.coreThread core none ∧ b.coreOwner = (letGo s t).coreOwner ∧
      b.runnable = s.runnable ∧ Shunned b core) fun f => f = .bounds := by
  have hpick : pickThread s time core = none := by
    refine Option.eq_none_iff_forall_not_mem.2 fun u hu => ?_
    obtain ⟨haff, hrun, -⟩ := eligible_iff.1 (pickThread_eligible hu).2
    rw [hshun u hrun] at haff
    cases haff
  have hcurrent : ¬ ((s.coreThread core).any fun u => s.status u = .initializing) = true := by
    simpa [ht] using hstarted
  rw [reschedule, rescheduleDepth, rescheduleBody]
  dsimp only
  rw [if_neg hcurrent]
  split
  · exact .error rfl
  · obtain ⟨a, ha, hstatus, hthreads, howner⟩ := unschedule_some s t time core
    have hframe := (unschedule_frame s time core (some t)).of_ok ha
    rw [hpick, ht, if_neg (by simp), switchThread, ha]
    refine .ok ⟨hstatus, hframe.stalledReason, ?_, howner, hframe.runnable, fun u hu => ?_⟩
    · simp only [Sim.setQuantum, Sim.setCoreThread, hthreads]
    · have hsame : (a.info.get u).affinity core = (s.info.get u).affinity core := by rw [hframe.affinity]
      exact hsame.trans (hshun u (hframe.runnable ▸ hu))

/-- The thread runs on the core of its own number, according to all tables. -/
def RunsOnOwn (s : Sim) (c : ℕ) : Prop :=
  s.coreThread c = some c ∧ (s.info.get c).coreRunning = some c ∧ s.threadCore c = some c

/-- The core is empty. -/
def EmptyCore (s : Sim) (c : ℕ) : Prop := s.coreThread c = none ∧ s.coreOwner c = none

/-- The core is empty and the thread of its number is stalled for it already. -/
def BrokenBefore (s : Sim) (c : ℕ) : Prop :=
  EmptyCore s c ∧ (s.info.get c).coreRunning = none ∧ s.status c = .stalled ∧ s.stalledReason c = .broken

/-- What `setFrequency` relies on when it stalls the thread with the number of the core. -/
structure StallReaches (cfg : Config) (s : Sim) (c : ℕ) : Prop where
  created : c < s.numThreads
  size : c < s.info.size
  runs : RunsOnOwn s c ∨ BrokenBefore s c
  others : ∀ u, u ≠ c → s.runnable.get u = true → (s.info.get u).affinity c = false
  big : BigLooks cfg s c → NothingToPromote s

/-- What `setFrequency` relies on for a value that is not positive. A negative value is a large
number after the conversion, and then nothing is stalled. -/
def Breakable (cfg : Config) (s : Sim) (c : ℕ) (value : ℤ) : Prop :=
  if freqInHz (readUInt64 value) = 0 then StallReaches cfg s c else EmptyCore s c ∧ Shunned s c

theorem stallThread_broken (h : StallReaches cfg s c) :
    Ensures (stallThread cfg clock time s c .broken)
      (fun b => StallsExactly c s b ∧ EmptyCore b c ∧ Shunned b c) fun f => f = .bounds := by
  unfold stallThread
  rw [if_pos h.created, if_neg (by simp)]
  split
  · rename_i hsize
    rw [threadStall]
    generalize hs₁ : (s.setStalled c .broken).setRunnable c false = s₁
    have hshun : Shunned s₁ c := by
      intro u hu
      rw [← hs₁] at hu ⊢
      by_cases huc : u = c
      · simp [Sim.setRunnable, huc] at hu
      · exact h.others u huc (by simpa [Sim.setRunnable, Sim.setStalled, huc] using hu)
    have hnone : BigLooks cfg s₁ c → NothingToPromote s₁ := by
      rw [← hs₁]
      intro hlooks u hu hsmall
      by_cases huc : u = c
      · simp [Sim.setRunnable, huc]
      · simpa [Sim.setRunnable, Sim.setStalled, huc] using h.big hlooks u hu hsmall
    have hstay : Ensures (replaceBigThread cfg clock s₁ c) (fun a => a = s₁) fun f => f = .bounds := by
      unfold replaceBigThread
      split
      · rename_i hlooks
        unfold pickBigThread
        rw [(hnone hlooks).promotable]
        split
        · exact .ok rfl
        · exact .error rfl
      · exact .ok rfl
    have hstop : s₁.runnable.get c = false := by
      rw [← hs₁]
      simp [Sim.setRunnable]
    refine hstay.bind fun a ha => ?_
    rw [ha]
    refine (demote_stopped ?_ ?_ ?_ hstop hshun).bind fun d hd => ?_
    · rw [← hs₁]; exact h.created
    · rw [← hs₁]; exact h.size
    · rw [← hs₁]; exact hsize
    have hstatus : d.status = Function.update s.status c .stalled := by rw [hd.status, ← hs₁]; rfl
    have hreason : d.stalledReason = Function.update s.stalledReason c .broken := by rw [hd.reason, ← hs₁]; rfl
    have hthreads : d.coreThread = s.coreThread := by rw [hd.coreThread, ← hs₁]; rfl
    have howner : d.coreOwner = s.coreOwner := by rw [hd.coreOwner, ← hs₁]; rfl
    have hrunning : (d.info.get c).coreRunning = (s.info.get c).coreRunning := by rw [hd.running, ← hs₁]; rfl
    unfold leaveCore
    rw [hrunning]
    split
    · rcases h.runs with ⟨hct, hrun, htc⟩ | ⟨⟨hct, hco⟩, hrun, hst, hre⟩
      · have htc' : d.threadCore c = some c := by rw [hd.threadCore, ← hs₁]; exact htc
        rw [hrun]
        refine (reschedule_empties (hthreads ▸ hct) ?_ hd.shunned).mono ?_ fun _ hf => hf
        · simp [hstatus]
        · rintro b ⟨hb, hbr, hbt, hbo, -, hbs⟩
          refine ⟨fun t => ⟨fun ht => ?_, fun ht => ?_⟩, ⟨by simp [hbt], ?_⟩, hbs⟩
          · obtain rfl : c = t := Option.some.inj (hct.symm.trans ht)
            simp [hb, hbr, hstatus, hreason]
          · have hne : t ≠ c := by
              rintro rfl
              exact ht hct
            simp [hb, hbr, hstatus, hreason, hne]
          · rw [hbo, letGo, htc']
            simp
      · rw [hrun]
        refine .ok ⟨fun t => ⟨fun ht => ?_, fun _ => ?_⟩, ⟨by rw [hthreads, hct], by rw [howner, hco]⟩, hd.shunned⟩
        · rw [hct] at ht
          cases ht
        · rw [hstatus, hreason]
          by_cases htc : t = c
          · simp [htc, hst, hre]
          · simp [htc]
    · exact .error rfl
  · exact .error rfl

/-- The value marks the core, when there is such a core. -/
def markBroken (cfg : Config) (broken : ℕ → Bool) (core : ℕ) (value : ℤ) : ℕ → Bool :=
  if core < cfg.numCores then Function.update broken core (decide (value ≤ 0)) else broken

/-- A core that is marked is one of those marked before, unless it is the one of the step. -/
theorem Avoids.mark (h : Avoids broken b) (hempty : EmptyCore b core) (hshun : Shunned b core) :
    Avoids (Function.update broken core true) b where
  idle c hc := by
    by_cases hcc : c = core
    · exact hcc ▸ hempty.1
    · exact h.idle c (by simpa [hcc] using hc)
  owner c hc := by
    by_cases hcc : c = core
    · exact hcc ▸ hempty.2
    · exact h.owner c (by simpa [hcc] using hc)
  shunned c u hc hu := by
    by_cases hcc : c = core
    · exact hcc ▸ hshun u hu
    · exact h.shunned c u (by simpa [hcc] using hc) hu

/-- Fewer cores are broken. -/
theorem Avoids.unmark (h : Avoids broken b) : Avoids (Function.update broken core false) b := by
  have hsub : ∀ c, Function.update broken core false c = true → broken c = true := by
    intro c hc
    by_cases hcc : c = core
    · simp [hcc] at hc
    · simpa [hcc] using hc
  exact ⟨fun c hc => h.idle c (hsub c hc), fun c hc => h.owner c (hsub c hc),
    fun c u hc => h.shunned c u (hsub c hc)⟩

/-- A value that is not positive empties the core and stalls exactly the thread on it. -/
theorem setFrequency_breaks {value : ℤ} (h : Avoids broken s) (hc : c < cfg.numCores)
    (hbreak : Breakable cfg s c value) :
    Ensures (setFrequency cfg clock s c (readUInt64 value))
      (fun b => StallsExactly c s b ∧ Avoids (Function.update broken c true) b) fun f => f = .bounds := by
  unfold Breakable at hbreak
  unfold setFrequency
  rw [if_neg (Nat.not_le_of_lt hc)]
  split at hbreak
  · rename_i hhz
    rw [hhz, if_neg (by simp)]
    refine ((stallThread_broken hbreak).and (stallThread_avoids h fun hlooks => .inr (hbreak.big hlooks))).bind ?_
    rintro b ⟨⟨hexact, hempty, hshun⟩, havoid⟩
    exact .ok ⟨hexact, (havoid.mark hempty hshun).of_same rfl rfl rfl rfl⟩
  · rename_i hhz
    rw [if_pos (Nat.pos_of_ne_zero hhz)]
    refine .ok ⟨fun t => ⟨fun ht => ?_, fun _ => ⟨rfl, rfl⟩⟩, h.mark hbreak.1 hbreak.2⟩
    rw [hbreak.1.1] at ht
    cases ht

/-- A positive value can stall the thread all the same, when the product is zero in 64 bits. -/
theorem setFrequency_avoids {mhz : ℕ} (h : Avoids broken s)
    (hbig : freqInHz mhz = 0 → BigLooks cfg s c → Spared cfg broken true ∨ NothingToPromote s) :
    Ensures (setFrequency cfg clock s c mhz) (Avoids broken) AnyFault := by
  unfold setFrequency
  split
  · exact .ok h
  · split
    · exact .ok h
    · rename_i hhz
      refine (stallThread_avoids h (hbig (Nat.eq_zero_of_not_pos hhz))).bind fun b hb => .ok ?_
      exact hb.of_same rfl rfl rfl rfl

/-- The cores that were last given a value that is not positive. -/
def brokenAfter (cfg : Config) (broken : ℕ → Bool) : FineStep → ℕ → Bool
  | .setFrequency _ core value => markBroken cfg broken core value
  | _ => broken

/-- The simulator in small steps, with the broken cores recorded beside it. -/
def trackedMachine (cfg : Config) : Machine (Sim × (ℕ → Bool)) FineStep Fault where
  step p e := do
    let s ← fineStep cfg p.1 e
    .ok (s, brokenAfter cfg p.2 e)

/-- The condition on an event. -/
def EventKeepsOff (cfg : Config) (broken : ℕ → Bool) (s : Sim) : Event → Prop
  | .create app => ¬ heldBack cfg s app → FirstCoreFine cfg broken s app
  | .start t => t < s.numThreads → ∀ c, broken c = true → (s.info.get t).affinity c = false
  | .stall t _ => BigLooks cfg s t → Spared cfg broken true ∨ NothingToPromote s
  | .resume t => t < s.numThreads → ∀ c, broken c = true → (s.info.get t).affinity c = false
  | .exit t wake file => ExitsOff cfg broken s t wake file
  | .yield _ => True
  | .setAffinity _ t mask => s.runnable.get t = true → ∀ c, broken c = true →
      newAffinity cfg ((grownInfo s t).get t).affinity mask c = false
  | .periodic .. => True
  | .setFrequency .. => True

/-- The condition on a step, in terms of the state before it and the cores that are broken: a core
that is declared broken runs the thread of its own number or none, and no thread that can run is
ever allowed on a broken core. -/
def KeepsOff (cfg : Config) (p : Sim × (ℕ → Bool)) : FineStep → Prop
  | .event call _ => EventKeepsOff cfg p.2 p.1 call.event
  | .reshuffle _ time => cfg.policy = .bigSmall → p.1.lastReshuffle + cfg.quantum < time → ReshufflesOff cfg p.2 p.1
  | .changeMapping _ moves => MovesOff p.2 p.1 moves
  | .setFrequency _ core value =>
    (core < cfg.numCores → value ≤ 0 → Breakable cfg p.1 core value) ∧
    (0 < value → freqInHz (readUInt64 value) = 0 → BigLooks cfg p.1 core →
      Spared cfg p.2 true ∨ NothingToPromote p.1)
  | .intervened _ => True
  | .quanta _ => True

theorem event_avoids {call : Call} (hplain : call.event.plain = true) (h : Avoids broken s)
    (hcall : EventKeepsOff cfg broken s call.event) : Ensures (step cfg s call) (Avoids broken) AnyFault := by
  unfold step
  split <;> rename_i heq <;> rw [heq] at hcall hplain
  · exact createThread_avoids h hcall
  · exact onThreadStart_avoids h hcall
  · exact stallThread_avoids h hcall
  · exact wakeThread_avoids h hcall
  · exact onThreadExit_avoids h hcall
  · split
    · exact threadYield_avoids h ..
    · exact .error trivial
  · exact threadSetAffinity_avoids h hcall
  · cases hplain
  · cases hplain

/-- Every step that meets the condition keeps the threads off the broken cores. -/
theorem fineStep_avoids {e : FineStep} (h : Avoids broken s) (he : KeepsOff cfg (s, broken) e) :
    Ensures (fineStep cfg s e) (Avoids (brokenAfter cfg broken e)) AnyFault := by
  cases e with
  | event call hplain => exact event_avoids hplain h he
  | reshuffle clock time => exact reshuffle_avoids h he
  | changeMapping clock moves => exact changeMapping_avoids h he
  | setFrequency clock core value =>
    rw [brokenAfter, markBroken]
    split
    · rename_i hcore
      by_cases hvalue : value ≤ 0
      · rw [decide_eq_true hvalue]
        exact (setFrequency_breaks h hcore (he.1 hcore hvalue)).mono (fun _ hb => hb.2) fun _ _ => trivial
      · rw [decide_eq_false hvalue]
        exact (setFrequency_avoids h (he.2 (Int.not_le.1 hvalue))).mono (fun _ hb => hb.unmark) fun _ hf => hf
    · rename_i hcore
      rw [fineStep, setFrequency, if_pos (Nat.le_of_not_lt hcore)]
      exact .ok h
  | intervened time => exact .ok (h.of_same rfl rfl rfl rfl)
  | quanta time => exact quanta_avoids h time

/-- In every run whose steps meet the condition, a core runs no thread from a value that is not
positive to the next positive one, and each such value stalls exactly the thread that was running
on the core. -/
theorem brokenCore_respected (cfg : Config) (map : ℕ → ℕ → Option ℕ) (steps : List FineStep) (s : Sim)
    (broken : ℕ → Bool)
    (hsteps : (trackedMachine cfg).Guarded (KeepsOff cfg) (initial map, fun _ => false) steps)
    (hrun : (trackedMachine cfg).run (initial map, fun _ => false) steps = .ok (s, broken)) :
    (∀ c, broken c = true → s.coreThread c = none ∧ s.coreOwner c = none) ∧
    ∀ clock c value, c < cfg.numCores → value ≤ 0 → KeepsOff cfg (s, broken) (.setFrequency clock c value) →
      Ensures (fineStep cfg s (.setFrequency clock c value)) (StallsExactly c s) fun f => f = .bounds := by
  have hinit : Avoids (fun _ => false) (initial map) := ⟨nofun, nofun, nofun⟩
  have havoid : Avoids broken s := by
    refine (trackedMachine cfg).guarded_induction (P := fun p => Avoids p.2 p.1) ?_ hinit hsteps hrun
    rintro ⟨a, marked⟩ e ⟨b, marked'⟩ ha he hstep
    have hkeeps : Ensures ((trackedMachine cfg).step (a, marked) e) (fun p => Avoids p.2 p.1) AnyFault :=
      (fineStep_avoids ha he).bind fun d hd => .ok hd
    exact hkeeps.of_ok hstep
  refine ⟨fun c hc => ⟨havoid.idle c hc, havoid.owner c hc⟩, fun clock c value hcore hvalue hkeeps => ?_⟩
  exact (setFrequency_breaks havoid hcore (hkeeps.1 hcore hvalue)).mono (fun _ hb => hb.1) fun _ hf => hf

/-- Thread 0 runs on core 0, which is then declared broken. -/
def ownCoreRun : List FineStep :=
  [.event ((Event.create 0).at 0) rfl, .event ((Event.start 0).at 0) rfl, .setFrequency (fun _ => 5) 0 0, .quanta 10]

theorem brokenCore_respected_ownCore :
    let p := (trackedMachine twoCores).final (initial fun _ _ => none, fun _ => false) ownCoreRun
    p.2 0 = true ∧ p.1.status 0 = .stalled ∧ p.1.coreThread 0 = none ∧ p.1.coreOwner 0 = none := by
  intro p
  have hguard : (trackedMachine twoCores).Guarded (KeepsOff twoCores) (initial fun _ _ => none, fun _ => false)
      ownCoreRun := by
    refine .cons_final (by decide +kernel) (fun _ => ⟨nofun, nofun, nofun, fun _ _ _ _ => rfl⟩) ?_
    refine .cons_final (by decide +kernel) (fun _ _ => nofun) ?_
    refine .cons_final (by decide +kernel) ⟨fun _ _ => ?_, nofun⟩ <| .cons_final (by decide +kernel) trivial trivial
    rw [Breakable, if_pos (by decide +kernel)]
    refine ⟨by decide +kernel, by decide +kernel, .inl ⟨by decide +kernel, by decide +kernel, by decide +kernel⟩,
      fun u hu hrun => ?_, nofun⟩
    have honly : Function.update (fun _ => false) 0 true u = true := hrun
    simp [hu] at honly
  have hrun : (trackedMachine twoCores).run (initial fun _ _ => none, fun _ => false) ownCoreRun = .ok (p.1, p.2) :=
    (trackedMachine twoCores).run_final (by decide +kernel)
  have hbroken : p.2 0 = true := by decide +kernel
  exact ⟨hbroken, by decide +kernel, (brokenCore_respected twoCores _ _ _ _ hguard hrun).1 0 hbroken⟩

/-- Thread 0 was given core 1 before it existed, so thread 1 gets core 0. -/
def crossedRun : List Call :=
  [(Event.setAffinity none 0 (some [1])).at 0, (Event.create 0).at 0, (Event.start 0).at 0, (Event.create 0).at 0,
    (Event.start 1).at 0]

/-- Declaring core 0 broken stalls the thread on core 1 and leaves the one on core 0 running. -/
theorem brokenCore_wrongThread :
    ∃ s s', (machine twoCores).Reachable (initial fun _ _ => none) s ∧
      step twoCores s ((Event.setFrequency 0 0).at 5) = .ok s' ∧ s.coreThread 0 = some 1 ∧
      s'.coreThread 0 = some 1 ∧ s'.status 1 = .running ∧ s.status 0 = .running ∧ s'.status 0 = .stalled ∧
      ¬ StallsExactly 0 s s' := by
  let s := (machine twoCores).final (initial fun _ _ => none) crossedRun
  refine ⟨s, (machine twoCores).final s [(Event.setFrequency 0 0).at 5],
    ⟨crossedRun, (machine twoCores).run_final (by decide +kernel)⟩, ?_, by decide +kernel, by decide +kernel,
    by decide +kernel, by decide +kernel, by decide +kernel, fun h => ?_⟩
  · have hrun : (machine twoCores).run s [(Event.setFrequency 0 0).at 5] = .ok _ :=
      (machine twoCores).run_final (by decide +kernel)
    obtain ⟨b, hb, hlast⟩ := (machine twoCores).run_cons_ok hrun
    cases hlast
    exact hb
  · exact absurd ((h 1).1 (by decide +kernel)).1 (by decide +kernel)

end LifeSim.Sched
