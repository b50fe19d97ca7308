import Mathlib.Data.Finset.Card
import Mathlib.Data.Finset.Range
import LifeSim.Sched.Frame

/-!
# The records of where threads run agree

`Linked cfg pend s` says that the scheduler's thread for each core and core for each thread are
inverse to each other, and that `Thread` and `Core` point to each other in the same way, except
for the threads in `pend`. A thread is pending while `moveThread` has announced its core but
`Thread::setCore` has not been called yet, which is when the resume hook re-enters the
scheduler, and while it exits, when `Thread::setCore` has run before the scheduler knows.

A nested call of `reschedule` is about an empty core. It keeps every occupied core as it is, so
the half-finished move it interrupts is not disturbed, and it fills a core, so the recursion is
no deeper than the number of cores.
-/

namespace LifeSim.Sched

open LifeSim.Lib

variable {cfg : Config} {s s' a : Sim} {pend : Set ℕ} {t u c core time depth : ℕ}

/-- The records of the placement agree, up to the pending threads. -/
structure Linked (cfg : Config) (pend : Set ℕ) (s : Sim) : Prop where
  running : ∀ c t, s.coreThread c = some t ↔ (s.info.get t).coreRunning = some c
  thread : ∀ t c, s.threadCore t = some c ↔ (s.info.get t).coreRunning = some c ∧ t ∉ pend
  owner : ∀ c t, s.coreOwner c = some t ↔ s.coreThread c = some t ∧ t ∉ pend
  pending : ∀ t ∈ pend, (s.info.get t).coreRunning ≠ none
  bound : ∀ c t, s.coreThread c = some t → c < cfg.numCores ∧ t < s.numThreads ∧ t < s.info.size
  live : ∀ t, s.runnable.get t = true → t < s.numThreads

/-- The faults that the agreement of the records rules out. -/
def Safe (f : Fault) : Prop := f ≠ .coreBusy ∧ f ≠ .recursion

/-- Every occupied core keeps its thread. -/
def Keeps (s s' : Sim) : Prop := ∀ c t, s.coreThread c = some t → s'.coreThread c = some t

namespace Linked

/-- Changes outside the placement do not matter. -/
theorem of_eq (h : Linked cfg pend s) (hthread : s'.threadCore = s.threadCore)
    (howner : s'.coreOwner = s.coreOwner) (hcore : s'.coreThread = s.coreThread)
    (hrun : ∀ t, (s'.info.get t).coreRunning = (s.info.get t).coreRunning)
    (hinfo : s.info.size ≤ s'.info.size) (hnum : s.numThreads ≤ s'.numThreads)
    (hlive : ∀ t, s'.runnable.get t = true → t < s'.numThreads) : Linked cfg pend s' where
  running c t := by rw [hcore, hrun]; exact h.running c t
  thread t c := by rw [hthread, hrun]; exact h.thread t c
  owner c t := by rw [howner, hcore]; exact h.owner c t
  pending t ht := by rw [hrun]; exact h.pending t ht
  bound c t hc := by
    rw [hcore] at hc
    obtain ⟨h1, h2, h3⟩ := h.bound c t hc
    exact ⟨h1, Nat.lt_of_lt_of_le h2 hnum, Nat.lt_of_lt_of_le h3 hinfo⟩
  live := hlive

/-- A change of states, quanta and statuses only. -/
theorem of_same (h : Linked cfg pend s) (hthread : s'.threadCore = s.threadCore)
    (howner : s'.coreOwner = s.coreOwner) (hcore : s'.coreThread = s.coreThread)
    (hinfo : s'.info = s.info) (hnum : s'.numThreads = s.numThreads) (hrun : s'.runnable = s.runnable) :
    Linked cfg pend s' :=
  h.of_eq hthread howner hcore (fun t => by rw [hinfo]) (by rw [hinfo]) (by rw [hnum])
    (by rw [hrun, hnum]; exact h.live)

theorem setState (h : Linked cfg pend s) (c : ℕ) (state : State) : Linked cfg pend (s.setState c state) :=
  h.of_same rfl rfl rfl rfl rfl rfl

theorem setQuantum (h : Linked cfg pend s) (c q : ℕ) : Linked cfg pend (s.setQuantum c q) :=
  h.of_same rfl rfl rfl rfl rfl rfl

theorem setStatus (h : Linked cfg pend s) (t : ℕ) (state : State) : Linked cfg pend (s.setStatus t state) :=
  h.of_same rfl rfl rfl rfl rfl rfl

theorem setStalled (h : Linked cfg pend s) (t : ℕ) (reason : StallType) :
    Linked cfg pend (s.setStalled t reason) :=
  h.of_same rfl rfl rfl rfl rfl rfl

theorem setRunnable (h : Linked cfg pend s) {b : Bool} (hb : b = true → t < s.numThreads) :
    Linked cfg pend (s.setRunnable t b) := by
  refine h.of_eq rfl rfl rfl (fun _ => rfl) le_rfl le_rfl fun u hu => ?_
  by_cases hut : u = t
  · subst hut
    exact hb (by simpa [Sim.setRunnable] using hu)
  · exact h.live u (by simpa [Sim.setRunnable, hut] using hu)

/-- The affinity of a thread may change freely. -/
theorem modifyInfo (h : Linked cfg pend s) (t : ℕ) {f : ThreadInfo → ThreadInfo}
    (hf : ∀ i, (f i).coreRunning = i.coreRunning) : Linked cfg pend (s.modifyInfo t f) := by
  refine h.of_eq rfl rfl rfl (fun u => ?_) le_rfl le_rfl h.live
  rw [Sim.modifyInfo, Table.get_set]
  split
  · rename_i hu; rw [hf, hu]
  · rfl

theorem vacate (h : Linked cfg pend s) (t : ℕ) : Linked cfg pend (vacate s t) := by
  unfold Sched.vacate
  split
  · exact h.setState ..
  · exact h

/-- No thread runs on two cores. -/
theorem core_unique (h : Linked cfg pend s) {c d : ℕ} (hc : s.coreThread c = some t)
    (hd : s.coreThread d = some t) : c = d := by
  rw [h.running] at hc hd
  exact Option.some.inj (hc.symm.trans hd)

/-- A pending thread enters its core: the assertion of `Thread::setCore` holds. -/
theorem enter {fault : Fault → Prop} (h : Linked cfg pend s) (hp : t ∈ pend) (hc : s.coreThread c = some t) :
    Ensures (setCore s t (some c)) (fun s' => Linked cfg (pend \ {t}) s' ∧ s'.coreThread = s.coreThread)
      fault := by
  have hrun : (s.info.get t).coreRunning = some c := (h.running c t).1 hc
  have hnone : s.threadCore t = none := by
    refine Option.eq_none_iff_forall_not_mem.2 fun d hd => ?_
    exact ((h.thread t d).1 hd).2 hp
  have hfree : s.coreOwner c = none := by
    refine Option.eq_none_iff_forall_not_mem.2 fun u hu => ?_
    have hu' := (h.owner c u).1 hu
    obtain rfl : t = u := Option.some.inj (hc.symm.trans hu'.1)
    exact hu'.2 hp
  unfold setCore letGo
  rw [hnone]
  dsimp only
  rw [if_pos hfree]
  refine .ok ⟨⟨h.running, fun u d => ?_, fun d u => ?_, fun u hu => h.pending u hu.1, h.bound, h.live⟩, rfl⟩
  · by_cases hut : u = t
    · subst hut
      simp [hrun]
    · simp [h.thread u d, hut]
  · by_cases hdc : d = c
    · subst hdc
      simp only [Function.update_self, hc]
      constructor
      · rintro ⟨⟩; simp
      · rintro ⟨hu, -⟩; exact hu
    · have hne : s.coreThread d = some u → u ≠ t := by
        rintro hd rfl
        exact hdc (h.core_unique hd hc)
      simp only [Function.update_of_ne hdc, h.owner d u, Set.mem_sdiff, Set.mem_singleton_iff, not_and, not_not]
      constructor
      · rintro ⟨h1, h2⟩; exact ⟨h1, fun h3 => absurd h3 h2⟩
      · rintro ⟨h1, h2⟩; exact ⟨h1, fun h3 => hne h1 (h2 h3)⟩

/-- A running thread lets go of its core before the scheduler knows. -/
theorem release {fault : Fault → Prop} (h : Linked cfg pend s) (hc : s.coreThread c = some t) :
    Ensures (setCore s t none) (fun s' => Linked cfg (insert t pend) s' ∧ s'.coreThread = s.coreThread) fault := by
  have hrun : (s.info.get t).coreRunning = some c := (h.running c t).1 hc
  have hpending : ∀ u ∈ insert t pend, (s.info.get u).coreRunning ≠ none := by
    rintro u (rfl | hu)
    · rw [hrun]; nofun
    · exact h.pending u hu
  have hother : ∀ d u, s.coreThread d = some u → d ≠ c → u ≠ t := by
    rintro d u hd hdc rfl
    exact hdc (h.core_unique hd hc)
  unfold setCore letGo
  cases hcore : s.threadCore t with
  | none =>
    refine .ok ⟨⟨h.running, fun u d => ?_, fun d u => ?_, hpending, h.bound, h.live⟩, rfl⟩
    · by_cases hut : u = t
      · subst hut; simp
      · simp [h.thread u d, hut]
    · have ht : t ∈ pend := by
        by_contra hp
        have := (h.thread t c).2 ⟨hrun, hp⟩
        rw [hcore] at this
        cases this
      rw [Set.insert_eq_of_mem ht]
      exact h.owner d u
  | some c' =>
    obtain ⟨hc', hp⟩ := (h.thread t c').1 hcore
    obtain rfl : c = c' := Option.some.inj (hrun.symm.trans hc')
    refine .ok ⟨⟨h.running, fun u d => ?_, fun d u => ?_, hpending, h.bound, h.live⟩, rfl⟩
    · by_cases hut : u = t
      · subst hut; simp
      · simp [h.thread u d, hut]
    · by_cases hdc : d = c
      · subst hdc
        simp only [Function.update_self, hc]
        constructor
        · nofun
        · rintro ⟨⟨⟩, hu⟩; exact absurd (Set.mem_insert ..) hu
      · simp only [Function.update_of_ne hdc, h.owner d u, Set.mem_insert_iff, not_or]
        constructor
        · rintro ⟨h1, h2⟩; exact ⟨h1, hother d u h1 hdc, h2⟩
        · rintro ⟨h1, -, h2⟩; exact ⟨h1, h2⟩

/-- The scheduler forgets a thread that has let go of its core. -/
theorem drop (h : Linked cfg (insert t pend) s) (hc : s.coreThread core = some t) (time : ℕ) :
    Linked cfg (pend \ {t}) ((s.modifyInfo t (ThreadInfo.scheduledOut time)).setCoreThread core none) where
  running c u := by
    by_cases hut : u = t
    · subst hut
      by_cases hcc : c = core
      · simp [Sim.setCoreThread, Sim.modifyInfo, ThreadInfo.scheduledOut, hcc]
      · have : s.coreThread c ≠ some u := fun hcu => hcc (h.core_unique hcu hc)
        simp [Sim.setCoreThread, Sim.modifyInfo, ThreadInfo.scheduledOut, hcc, this]
    · by_cases hcc : c = core
      · have : (s.info.get u).coreRunning ≠ some core := by
          intro hcu
          rw [← h.running, hc] at hcu
          exact hut (Option.some.inj hcu).symm
        simp [Sim.setCoreThread, Sim.modifyInfo, hut, hcc, this]
      · simpa [Sim.setCoreThread, Sim.modifyInfo, hut, hcc] using h.running c u
  thread u c := by
    by_cases hut : u = t
    · subst hut
      have : s.threadCore u ≠ some c := fun hcu => ((h.thread u c).1 hcu).2 (Set.mem_insert ..)
      simp [Sim.setCoreThread, Sim.modifyInfo, ThreadInfo.scheduledOut, this]
    · simpa [Sim.setCoreThread, Sim.modifyInfo, hut] using h.thread u c
  owner c u := by
    by_cases hcc : c = core
    · subst hcc
      have : s.coreOwner c ≠ some u := by
        intro hcu
        obtain ⟨h1, h2⟩ := (h.owner c u).1 hcu
        rw [hc] at h1
        exact h2 (Option.some.inj h1 ▸ Set.mem_insert ..)
      simp [Sim.setCoreThread, Sim.modifyInfo, this]
    · have hne : s.coreThread c = some u → u ≠ t := by
        rintro hcu rfl
        exact hcc (h.core_unique hcu hc)
      have hown := h.owner c u
      simp only [Set.mem_insert_iff, not_or] at hown
      simp only [Sim.setCoreThread, Sim.modifyInfo, Function.update_of_ne hcc, hown, Set.mem_sdiff,
        Set.mem_singleton_iff, not_and, not_not]
      constructor
      · rintro ⟨h1, -, h2⟩; exact ⟨h1, fun h3 => absurd h3 h2⟩
      · rintro ⟨h1, h2⟩; exact ⟨h1, hne h1, fun h3 => hne h1 (h2 h3)⟩
  pending u hu := by
    have := h.pending u (.inr hu.1)
    have hut : u ≠ t := hu.2
    simpa [Sim.setCoreThread, Sim.modifyInfo, hut] using this
  bound c u hcu := by
    by_cases hcc : c = core
    · simp [Sim.setCoreThread, hcc] at hcu
    · exact h.bound c u (by simpa [Sim.setCoreThread, Sim.modifyInfo, hcc] using hcu)
  live := h.live

/-- The scheduler announces that a waiting thread is about to run on an empty core. -/
theorem announce (h : Linked cfg pend s) (hfree : s.coreThread core = none) (hcore : core < cfg.numCores)
    (hrun : (s.info.get t).coreRunning = none) (hnum : t < s.numThreads) (hsize : t < s.info.size) (time : ℕ) :
    Linked cfg (insert t pend)
      ((s.setCoreThread core (some t)).modifyInfo t (ThreadInfo.scheduledIn core time)) where
  running c u := by
    by_cases hut : u = t
    · subst hut
      by_cases hcc : c = core
      · simp [Sim.setCoreThread, Sim.modifyInfo, ThreadInfo.scheduledIn, hcc]
      · have : s.coreThread c ≠ some u := by simp [h.running, hrun]
        simp [Sim.setCoreThread, Sim.modifyInfo, ThreadInfo.scheduledIn, hcc, this, Ne.symm hcc]
    · by_cases hcc : c = core
      · have : (s.info.get u).coreRunning ≠ some core := by simp [← h.running, hfree]
        simp [Sim.setCoreThread, Sim.modifyInfo, hut, hcc, this, Ne.symm hut]
      · simpa [Sim.setCoreThread, Sim.modifyInfo, hut, hcc] using h.running c u
  thread u c := by
    by_cases hut : u = t
    · subst hut
      have : s.threadCore u ≠ some c := by simp [h.thread, hrun]
      simp [Sim.setCoreThread, Sim.modifyInfo, this]
    · simpa [Sim.setCoreThread, Sim.modifyInfo, hut] using h.thread u c
  owner c u := by
    by_cases hcc : c = core
    · subst hcc
      have : s.coreOwner c ≠ some u := by simp [h.owner, hfree]
      simp only [Sim.setCoreThread, Sim.modifyInfo, Function.update_self, this, false_iff, not_and]
      rintro ⟨⟩ hu
      exact hu (Set.mem_insert ..)
    · have hne : s.coreThread c = some u → u ≠ t := by
        rintro hcu rfl
        rw [h.running, hrun] at hcu
        cases hcu
      simp only [Sim.setCoreThread, Sim.modifyInfo, Function.update_of_ne hcc, h.owner c u, Set.mem_insert_iff,
        not_or]
      constructor
      · rintro ⟨h1, h2⟩; exact ⟨h1, hne h1, h2⟩
      · rintro ⟨h1, -, h2⟩; exact ⟨h1, h2⟩
  pending u hu := by
    by_cases hut : u = t
    · simp [Sim.setCoreThread, Sim.modifyInfo, ThreadInfo.scheduledIn, hut]
    · simpa [Sim.setCoreThread, Sim.modifyInfo, hut] using h.pending u (hu.resolve_left hut)
  bound c u hcu := by
    by_cases hcc : c = core
    · obtain rfl : t = u := by simpa [Sim.setCoreThread, Sim.modifyInfo, hcc] using hcu
      exact ⟨hcc ▸ hcore, hnum, hsize⟩
    · exact h.bound c u (by simpa [Sim.setCoreThread, Sim.modifyInfo, hcc] using hcu)
  live := h.live

end Linked

/-- Letting go of a core does not look at the scheduler's record of it. -/
theorem setCore_none_modifyInfo (s : Sim) (t : ℕ) (f : ThreadInfo → ThreadInfo) :
    setCore (vacate (s.modifyInfo t f) t) t none =
      setCore (vacate s t) t none >>= fun a => .ok (a.modifyInfo t f) := by
  have hcore : (s.modifyInfo t f).threadCore t = s.threadCore t := rfl
  have hvacate : vacate (s.modifyInfo t f) t = (vacate s t).modifyInfo t f := by
    unfold vacate
    rw [hcore]
    cases s.threadCore t <;> rfl
  have hletGo : letGo ((vacate s t).modifyInfo t f) t = (letGo (vacate s t) t).modifyInfo t f := by
    unfold letGo
    rw [show ((vacate s t).modifyInfo t f).threadCore t = (vacate s t).threadCore t from rfl]
    cases (vacate s t).threadCore t <;> rfl
  unfold setCore
  rw [hvacate, hletGo]
  rfl

@[simp] theorem vacate_coreThread (s : Sim) (t : ℕ) : (vacate s t).coreThread = s.coreThread := by
  unfold vacate
  split <;> rfl

@[simp] theorem vacate_runnable (s : Sim) (t : ℕ) : (vacate s t).runnable = s.runnable := by
  unfold vacate
  split <;> rfl

theorem setCoreThread_setCoreThread (s : Sim) (core : ℕ) (t u : Option ℕ) :
    (s.setCoreThread core t).setCoreThread core u = s.setCoreThread core u := by
  simp [Sim.setCoreThread]

/-- Taking the thread that runs on a core off it empties the core. -/
theorem unschedule_linked {fault : Fault → Prop} (h : Linked cfg pend s) (time core : ℕ) :
    Ensures (unschedule s time core (s.coreThread core))
      (fun b => Linked cfg (pend \ {u | s.coreThread core = some u}) (b.setCoreThread core none) ∧
        b.coreThread = s.coreThread) fault := by
  cases hc : s.coreThread core with
  | none =>
    have hpend : pend \ {u | (none : Option ℕ) = some u} = pend := by ext u; simp
    have hsame : s.setCoreThread core none = s := by
      simp only [Sim.setCoreThread, ← hc, Function.update_eq_self]
    rw [hpend]
    exact .ok ⟨hsame.symm ▸ h, rfl⟩
  | some t =>
    have hpend : pend \ {u | some t = some u} = pend \ {t} := by ext u; simp [eq_comm]
    rw [hpend, unschedule, moveThread, setCore_none_modifyInfo]
    have hv : (vacate s t).coreThread core = some t := by rw [vacate_coreThread, hc]
    refine ((h.vacate t).release hv).bind fun a ha => .ok ⟨?_, ?_⟩
    · exact ha.1.drop (by rw [ha.2, hv]) _
    · rw [show (a.modifyInfo t _).coreThread = a.coreThread from rfl, ha.2, vacate_coreThread]

/-- A pending thread is moved to its core. The resume hook runs while it is still pending. -/
theorem moveThread_linked {resume : Sim → ℕ → Except Fault Sim} (h : Linked cfg pend s) (hp : t ∈ pend)
    (hc : s.coreThread core = some t)
    (hres : ∀ a, Linked cfg pend a → a.coreThread = s.coreThread → a.runnable = s.runnable →
      Ensures (resume a t) (fun b => Linked cfg pend b ∧ Keeps a b) Safe) :
    Ensures (moveThread resume s t (some core)) (fun b => Linked cfg (pend \ {t}) b ∧ Keeps s b) Safe := by
  have hv := h.vacate t
  rw [moveThread]
  refine Ensures.bind (Q := fun b => Linked cfg pend b ∧ Keeps s b) ?_ fun a ha => ?_
  · unfold wakeUnscheduled
    split
    · refine (hres _ hv (by simp) (by simp)).mono (fun b hb => ⟨hb.1, fun c u hcu => ?_⟩) fun _ hf => hf
      exact hb.2 c u (by rwa [vacate_coreThread])
    · exact .ok ⟨hv, fun c u hcu => by rwa [vacate_coreThread]⟩
  · refine (ha.1.enter hp (ha.2 core t hc)).bind fun b hb => ?_
    have hkeeps : Keeps s b := fun c u hcu => by rw [hb.2]; exact ha.2 c u hcu
    split
    · exact .ok ⟨hb.1, hkeeps⟩
    · exact .ok ⟨hb.1.setState .., hkeeps⟩

/-- The number of cores without a thread. -/
def freeCores (cfg : Config) (s : Sim) : ℕ :=
  ((Finset.range cfg.numCores).filter fun c => s.coreThread c = none).card

theorem freeCores_le (cfg : Config) (s : Sim) : freeCores cfg s ≤ cfg.numCores := by
  simpa [freeCores] using Finset.card_filter_le (Finset.range cfg.numCores) fun c => s.coreThread c = none

/-- Filling an empty core leaves fewer empty ones. -/
theorem freeCores_setCoreThread (hcore : core < cfg.numCores) (hfree : s.coreThread core = none) (t : ℕ) :
    freeCores cfg (s.setCoreThread core (some t)) < freeCores cfg s := by
  refine Finset.card_lt_card ⟨fun c hc => ?_, fun hsub => ?_⟩
  · obtain ⟨hrange, hnone⟩ := Finset.mem_filter.1 hc
    refine Finset.mem_filter.2 ⟨hrange, ?_⟩
    by_cases hcc : c = core
    · rw [hcc, hfree]
    · simpa [Sim.setCoreThread, hcc] using hnone
  · have hmem := hsub (Finset.mem_filter.2 ⟨Finset.mem_range.2 hcore, hfree⟩)
    have hnone := (Finset.mem_filter.1 hmem).2
    simp [Sim.setCoreThread] at hnone

/-- What the resume hook may be relied on for, when at most `depth` cores are empty. -/
def ResumeLinked (cfg : Config) (depth : ℕ) (resume : Sim → ℕ → Except Fault Sim) : Prop :=
  ∀ pend a t, Linked cfg pend a → a.runnable.get t = true → freeCores cfg a ≤ depth →
    Ensures (resume a t) (fun b => Linked cfg pend b ∧ Keeps a b) Safe

/-- Putting a waiting thread on an empty core. -/
theorem schedule_linked {resume : Sim → ℕ → Except Fault Sim} (depth : ℕ) (h : Linked cfg pend s)
    (hfree : s.coreThread core = none) (hcore : core < cfg.numCores)
    (hrun : (s.info.get t).coreRunning = none) (hrunnable : s.runnable.get t = true)
    (hsize : t < s.info.size) (hres : ResumeLinked cfg depth resume)
    (hdepth : freeCores cfg (s.setCoreThread core (some t)) ≤ depth) :
    Ensures (schedule resume (s.setCoreThread core (some t)) time core (some t))
      (fun b => Linked cfg pend b ∧ Keeps s b) Safe := by
  have hnot : t ∉ pend := fun hp => h.pending t hp hrun
  have ha := h.announce hfree hcore hrun (h.live t hrunnable) hsize time
  have hold : forgetOldCore (s.setCoreThread core (some t)) t = s.setCoreThread core (some t) := by
    unfold forgetOldCore
    rw [show ((s.setCoreThread core (some t)).info.get t).coreRunning = none from hrun]
  have hpend : insert t pend \ {t} = pend := by
    simp [hnot]
  have hkeeps : Keeps s (s.setCoreThread core (some t)) := by
    intro c u hcu
    have hcc : c ≠ core := by rintro rfl; rw [hfree] at hcu; cases hcu
    simpa [Sim.setCoreThread, hcc] using hcu
  rw [schedule, hold]
  refine (moveThread_linked ha (Set.mem_insert ..) (by simp [Sim.modifyInfo, Sim.setCoreThread]) ?_).mono
    (fun b hb => ⟨hpend ▸ hb.1, fun c u hcu => hb.2 c u (hkeeps c u hcu)⟩) fun _ hf => hf
  intro b hb hcoreThread hrun'
  refine hres _ b t hb (by rw [hrun']; exact hrunnable) ?_
  rw [freeCores, hcoreThread]
  exact hdepth

/-- Rescheduling a core keeps the records in agreement and leaves the threads on other cores where
they are. A pending thread on this core must be on its way out; it is pending no longer. -/
theorem rescheduleBody_linked {resume : Sim → ℕ → Except Fault Sim} (depth : ℕ) (h : Linked cfg pend s)
    (hcore : core < cfg.numCores)
    (hout : ∀ t ∈ pend, s.coreThread core = some t → s.status t ≠ .initializing ∧ s.runnable.get t = false)
    (hres : ResumeLinked cfg depth resume)
    (hdepth : ∀ t, freeCores cfg (s.setCoreThread core (some t)) ≤ depth) :
    Ensures (rescheduleBody cfg resume s time core)
      (fun b => Linked cfg (pend \ {u | s.coreThread core = some u}) b ∧
        ∀ c u, c ≠ core → s.coreThread c = some u → b.coreThread c = some u) Safe := by
  have hstay : (∀ t, s.coreThread core = some t → t ∉ pend) →
      Linked cfg (pend \ {u | s.coreThread core = some u}) s := by
    intro hnot
    have : pend \ {u | s.coreThread core = some u} = pend := by
      ext u
      exact ⟨fun hu => hu.1, fun hu => ⟨hu, fun hc => hnot u hc hu⟩⟩
    rwa [this]
  unfold rescheduleBody
  dsimp only
  split
  · rename_i hinit
    refine .ok ⟨hstay fun u hu hp => ?_, fun c u _ hcu => hcu⟩
    exact (hout u hp hu).1 (by simpa [hu] using hinit)
  split
  · exact .error ⟨nofun, nofun⟩
  rename_i hsize
  split
  · rename_i hsame
    refine .ok ⟨(hstay fun u hu hp => ?_).setQuantum .., fun c u _ hcu => hcu⟩
    have hel := eligible_iff.1 (pickThread_eligible (hsame.symm.trans hu)).2
    rw [(hout u hp hu).2] at hel
    cases hel.2.1
  · rename_i hdiff
    refine Ensures.bind (Q := fun b => Linked cfg (pend \ {u | s.coreThread core = some u}) b ∧
        ∀ c u, c ≠ core → s.coreThread c = some u → b.coreThread c = some u) ?_
      fun b hb => .ok ⟨hb.1.setQuantum .., hb.2⟩
    refine ((unschedule_linked h time core).and (unschedule_frame s time core _)).bind fun a ha => ?_
    obtain ⟨⟨hlinked, hsame⟩, hframe⟩ := ha
    have hempty : (a.setCoreThread core none).coreThread core = none := by simp [Sim.setCoreThread]
    have hother : ∀ c u, c ≠ core → s.coreThread c = some u →
        (a.setCoreThread core none).coreThread c = some u := by
      intro c u hcc hcu
      simpa [Sim.setCoreThread, hcc, hsame] using hcu
    cases hnew : pickThread s time core with
    | none => exact .ok ⟨hlinked, hother⟩
    | some t =>
      obtain ⟨hlt, hel⟩ := pickThread_eligible hnew
      obtain ⟨-, hrunnable, hwaits⟩ := eligible_iff.1 hel
      rw [← setCoreThread_setCoreThread a core none]
      refine (schedule_linked depth hlinked hempty hcore ?_ ?_ ?_ hres ?_).mono
        (fun b hb => ⟨hb.1, fun c u hcc hcu => hb.2 c u (hother c u hcc hcu)⟩) fun _ hf => hf
      · refine Option.eq_none_iff_forall_not_mem.2 fun c hc => ?_
        rw [Option.mem_def, ← hlinked.running] at hc
        have hcc : c ≠ core := by rintro rfl; rw [hempty] at hc; cases hc
        have hc' : s.coreThread c = some t := by simpa [Sim.setCoreThread, hcc, hsame] using hc
        rcases hwaits with hnone | hhere
        · rw [h.running, hnone] at hc'
          cases hc'
        · exact hdiff (((h.running core t).2 hhere).trans hnew.symm)
      · rw [show (a.setCoreThread core none).runnable = a.runnable from rfl, hframe.runnable]
        exact hrunnable
      · rw [show (a.setCoreThread core none).info = a.info from rfl, hframe.info_size]
        exact Nat.lt_of_lt_of_le hlt (Nat.le_of_not_lt hsize)
      · rw [setCoreThread_setCoreThread]
        have := hdepth t
        simp only [freeCores, Sim.setCoreThread, hsame] at this ⊢
        exact this

/-- What rescheduling an empty core may be relied on for, when at most `depth` cores are empty. -/
def FillLinked (cfg : Config) (depth : ℕ) (resched : Sim → ℕ → Except Fault Sim) : Prop :=
  ∀ pend a core, Linked cfg pend a → core < cfg.numCores → a.coreThread core = none →
    freeCores cfg a ≤ depth → Ensures (resched a core) (fun b => Linked cfg pend b ∧ Keeps a b) Safe

/-- If a core of the thread is empty it is filled; otherwise nothing happens. -/
theorem scheduleIfFree_linked {resched : Sim → ℕ → Except Fault Sim} (hre : FillLinked cfg depth resched)
    (h : Linked cfg pend s) (hdepth : freeCores cfg s ≤ depth) :
    Ensures (scheduleIfFree cfg resched s t) (fun b => Linked cfg pend b ∧ Keeps s b) Safe := by
  unfold scheduleIfFree
  split
  · split
    · rename_i core hfind
      obtain ⟨hcore, -, hfree⟩ := findFreeCoreForThread_some hfind
      exact hre pend s core h hcore hfree hdepth
    · exact .ok ⟨h, fun _ _ hc => hc⟩
  · exact .error ⟨nofun, nofun⟩

theorem resumeThread_linked {resched : Sim → ℕ → Except Fault Sim} (hre : FillLinked cfg depth resched)
    (h : Linked cfg pend s) (ht : t < s.numThreads) (hdepth : freeCores cfg s ≤ depth) :
    Ensures (resumeThread cfg resched s t) (fun b => Linked cfg pend b ∧ Keeps s b) Safe := by
  unfold resumeThread
  dsimp only
  split
  · exact scheduleIfFree_linked hre ((h.setStatus t .running).setRunnable fun _ => ht) hdepth
  · exact .error ⟨nofun, nofun⟩

/-- The recursion: every nested call fills an empty core. -/
theorem rescheduleDepth_linked (cfg : Config) (time depth : ℕ) :
    FillLinked cfg depth (rescheduleDepth cfg time depth) := by
  induction depth with
  | zero =>
    intro pend a core _ hcore hfree hdepth
    have := freeCores_setCoreThread hcore hfree 0
    omega
  | succ depth ih =>
    intro pend a core h hcore hfree hdepth
    have hpend : pend \ {u | a.coreThread core = some u} = pend := by simp [hfree]
    refine (rescheduleBody_linked depth h hcore ?_ ?_ fun t => ?_).mono ?_ fun _ hf => hf
    · intro t _ ht
      rw [hfree] at ht
      cases ht
    · exact fun pend b t hb ht hdepth => resumeThread_linked ih hb (hb.live t ht) hdepth
    · have := freeCores_setCoreThread hcore hfree t
      omega
    · rintro b ⟨hb, hkeeps⟩
      refine ⟨hpend ▸ hb, fun c u hcu => hkeeps c u ?_ hcu⟩
      rintro rfl
      rw [hfree] at hcu
      cases hcu

/-- Rescheduling any core, as the events do it. -/
theorem reschedule_linked (h : Linked cfg pend s) (hcore : core < cfg.numCores)
    (hout : ∀ t ∈ pend, s.coreThread core = some t → s.status t ≠ .initializing ∧ s.runnable.get t = false) :
    Ensures (reschedule cfg s time core)
      (Linked cfg (pend \ {u | s.coreThread core = some u})) Safe := by
  refine (rescheduleBody_linked cfg.numCores h hcore hout ?_ fun t => freeCores_le ..).mono
    (fun b hb => hb.1) fun _ hf => hf
  intro pend a t ha ht hdepth
  exact resumeThread_linked (rescheduleDepth_linked cfg time cfg.numCores) ha (ha.live t ht) hdepth

/-- Rescheduling an empty core, as the events do it. -/
theorem reschedule_fill (cfg : Config) (time : ℕ) :
    FillLinked cfg cfg.numCores (fun s core => reschedule cfg s time core) := by
  intro pend a core h hcore hfree _
  exact rescheduleDepth_linked cfg time _ pend a core h hcore hfree
    (Nat.le_succ_of_le (freeCores_le ..))

end LifeSim.Sched
