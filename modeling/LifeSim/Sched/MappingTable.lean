import LifeSim.Sched.Bijection

/-!
# The mapping lists and the affinities

With `MODIFIED_CODE` the lists `threads_on_core` repeat what the affinities say: a thread is in
the list of a core when it is pinned to it. The lists are written where a thread gets its first
core and where `changeMapping` moves the threads of a core, and both keep the two in step.
`threadSetAffinity` changes the affinity alone, and the change of hyper-period empties the lists
of the threads that have exited; in runs without these the lists are exact.
-/

namespace LifeSim.Sched

open LifeSim.Lib

variable {cfg : Config} {s s' a b : Sim} {lists : ℕ → List ℕ} {t u c core time : ℕ} {clock : ℕ → ℕ}

/-- The lists agree with the affinities: a thread may run on a core when it is listed there, and it
is listed at most once. Threads that do not exist yet have no affinity. -/
structure Tabled (cfg : Config) (lists : ℕ → List ℕ) (s : Sim) : Prop where
  affinity : ∀ t c, (s.info.get t).affinity c = true ↔ t ∈ lists c
  disjoint : ∀ t c d, t ∈ lists c → t ∈ lists d → c = d
  nodup : ∀ c, (lists c).Nodup
  bound : ∀ t c, t ∈ lists c → c < cfg.numCores ∧ t < s.numThreads
  fresh : ∀ t, s.numThreads ≤ t → (s.info.get t).hasAffinity = false
  size : s.numThreads ≤ s.info.size

namespace Tabled

/-- Changes outside the affinities do not matter. -/
theorem of_eq (h : Tabled cfg lists s) (haff : ∀ t, (s'.info.get t).affinity = (s.info.get t).affinity)
    (hhas : ∀ t, s.numThreads ≤ t → (s'.info.get t).hasAffinity = (s.info.get t).hasAffinity)
    (hnum : s'.numThreads = s.numThreads) (hsize : s.info.size ≤ s'.info.size) : Tabled cfg lists s' where
  affinity t c := by rw [haff]; exact h.affinity t c
  disjoint := h.disjoint
  nodup := h.nodup
  bound t c ht := by rw [hnum]; exact h.bound t c ht
  fresh t ht := by
    rw [hnum] at ht
    rw [hhas t ht]
    exact h.fresh t ht
  size := by rw [hnum]; exact h.size.trans hsize

theorem of_frame (h : Tabled cfg lists s) (hf : Frame s s') : Tabled cfg lists s' :=
  h.of_eq hf.affinity (fun t _ => hf.hasAffinity t) hf.numThreads hf.info_size.ge

/-- A change that leaves `m_thread_info` alone. -/
theorem of_same (h : Tabled cfg lists s) (hinfo : s'.info = s.info) (hnum : s'.numThreads = s.numThreads) :
    Tabled cfg lists s' :=
  h.of_eq (fun _ => by rw [hinfo]) (fun _ _ => by rw [hinfo]) hnum (by rw [hinfo])

/-- A thread that does not exist yet has no affinity. -/
theorem no_affinity (h : Tabled cfg lists s) (ht : s.numThreads ≤ t) (c : ℕ) :
    (s.info.get t).affinity c = false := by
  by_contra hc
  have := (h.bound t c ((h.affinity t c).1 (by simpa using hc))).2
  omega

/-- The new entries of a grown `m_thread_info` belong to threads that do not exist yet. -/
theorem resizeInfo (h : Tabled cfg lists s) {n : ℕ} (hn : s.info.size ≤ n) :
    Tabled cfg lists { s with info := s.info.resize n .fresh } := by
  refine h.of_eq (fun u => ?_) (fun u hu => ?_) rfl hn
  · dsimp only
    rw [Table.get_resize]
    split
    · rfl
    · rename_i hu
      funext c
      exact (h.no_affinity (h.size.trans (Nat.le_of_not_lt hu)) c).symm
  · dsimp only
    rw [Table.get_resize]
    split
    · rfl
    · exact (h.fresh u hu).symm

end Tabled

/-- What the lists are for: every created thread with a core is in exactly one list, once, and it is
in the list of a core exactly when it is pinned to that core alone. -/
def MappingConsistent (s : Sim) : Prop :=
  ∀ t, t < s.numThreads →
    (∀ c, t ∈ s.threadsOnCore c ↔ ∀ d, (s.info.get t).affinity d = true ↔ d = c) ∧
    ((∃ d, (s.info.get t).affinity d = true) → ∃! c, t ∈ s.threadsOnCore c) ∧
    ∀ c, (s.threadsOnCore c).count t ≤ 1

theorem Tabled.consistent (h : Tabled cfg s.threadsOnCore s) : MappingConsistent s := by
  intro t _
  refine ⟨fun c => ⟨fun hc d => ?_, fun hall => ?_⟩, fun ⟨d, hd⟩ => ?_, fun c => ?_⟩
  · rw [h.affinity]
    exact ⟨fun hd => h.disjoint t d c hd hc, fun hdc => hdc ▸ hc⟩
  · exact (h.affinity t c).1 ((hall c).2 rfl)
  · exact ⟨d, (h.affinity t d).1 hd, fun c hc => h.disjoint t c d hc ((h.affinity t d).1 hd)⟩
  · exact List.nodup_iff_count_le_one.1 (h.nodup c) t

/-- The condition on a step: an affinity call does not change the affinity set (and gives a thread
that does not exist yet none), and no exit changes the hyper-period. -/
def KeepsMapping (cfg : Config) (s : Sim) (call : Call) : Prop :=
  match call.event with
  | .setAffinity _ t mask =>
    if t < s.numThreads then ∀ c, newAffinity cfg (s.info.get t).affinity mask c = (s.info.get t).affinity c
    else mask = some []
  | .exit .. => cfg.periodicWorkload = true →
    hyperPeriodEnds cfg { s with numThreadsExited := s.numThreadsExited + 1 } = false
  | _ => True

/-- Affinity calls that do not change the affinity set. -/
theorem Recorded.tabled {mask : Option (List ℕ)} (ha : Recorded cfg t mask s a) (h : Tabled cfg lists s)
    (hmask : if t < s.numThreads then
      ∀ c, newAffinity cfg (s.info.get t).affinity mask c = (s.info.get t).affinity c else mask = some []) :
    Tabled cfg lists a := by
  have hgrown : Tabled cfg lists { s with info := grownInfo s t } := by
    unfold grownInfo
    split
    · exact h.resizeInfo (by omega)
    · exact h
  refine hgrown.of_eq (fun u => ?_) (fun u hu => ?_) (by rw [ha.same]) (by rw [ha.size])
  · by_cases hut : u = t
    · subst hut
      rw [ha.affinity]
      funext c
      split at hmask
      · rename_i hlt
        have hsame : grownInfo s u = s.info := if_neg (Nat.not_le_of_lt (Nat.lt_of_lt_of_le hlt h.size))
        rw [hsame]
        exact hmask c
      · rename_i hge
        rw [hmask, hgrown.no_affinity (Nat.le_of_not_lt hge) c]
        rfl
    · rw [ha.other u hut]
  · by_cases hut : u = t
    · subst hut
      rw [if_neg (Nat.not_lt_of_le hu)] at hmask
      exact ha.hasAffinity.resolve_left fun hne => hne hmask
    · rw [ha.other u hut]

/-- The lists of the state itself are exact. -/
def ListsExact (cfg : Config) (s : Sim) : Prop := Tabled cfg s.threadsOnCore s

theorem ListsExact.of_frame (h : ListsExact cfg s) (hf : Frame s s') : ListsExact cfg s' := by
  unfold ListsExact
  rw [hf.threadsOnCore]
  exact Tabled.of_frame h hf

theorem ListsExact.of_same (h : ListsExact cfg s) (hinfo : s'.info = s.info)
    (hnum : s'.numThreads = s.numThreads) (hlists : s'.threadsOnCore = s.threadsOnCore) : ListsExact cfg s' := by
  unfold ListsExact
  rw [hlists]
  exact Tabled.of_same h hinfo hnum

/-- Every computation that only moves threads keeps the lists exact. -/
theorem ListsExact.ensures {x : Except Fault Sim} {fault : Fault → Prop} (h : ListsExact cfg s)
    (hx : Ensures x (Frame s) fault) : Ensures x (ListsExact cfg) fun _ => True :=
  hx.mono (fun _ hf => h.of_frame hf) fun _ _ => trivial

theorem threadSetAffinity_exact {calling : Option ℕ} {mask : Option (List ℕ)} (h : ListsExact cfg s)
    (hmask : if t < s.numThreads then
      ∀ c, newAffinity cfg (s.info.get t).affinity mask c = (s.info.get t).affinity c else mask = some []) :
    Ensures (threadSetAffinity cfg clock s calling t mask) (ListsExact cfg) fun _ => True := by
  refine (threadSetAffinity_spec ..).mono ?_ fun _ _ => trivial
  rintro b ⟨a, ha, hframe⟩
  refine ListsExact.of_frame ?_ hframe
  unfold ListsExact
  rw [show a.threadsOnCore = s.threadsOnCore by rw [ha.same]]
  exact ha.tabled h hmask

theorem setMappedAffinity_tabled (h : Tabled cfg s.threadsOnCore s)
    (hnone : ∀ c, (s.info.get t).affinity c = false) (ht : t < s.numThreads) :
    Ensures (setMappedAffinity cfg s t) (fun b => Tabled cfg b.threadsOnCore b ∧ b.numThreads = s.numThreads)
      fun _ => True := by
  have hnot : ∀ c, t ∉ s.threadsOnCore c := fun c hc => by
    have := (h.affinity t c).2 hc
    rw [hnone] at this
    cases this
  unfold setMappedAffinity
  dsimp only
  split
  · rename_i hrange
    generalize mappedCore s (s.appId t) (s.currentThreadCount (s.appId t)) = core at hrange ⊢
    -- the one new entry is that of the thread, in the list of its core
    have hlist : ∀ u c, u ∈ Function.update s.threadsOnCore core (s.threadsOnCore core ++ [t]) c ↔
        u ∈ s.threadsOnCore c ∨ u = t ∧ c = core := by
      intro u c
      by_cases hc : c = core
      · subst hc; simp
      · simp [hc]
    refine .ok ⟨⟨fun u c => ?_, fun u c d hc hd => ?_, fun c => ?_, fun u c hc => ?_, fun u hu => ?_, h.size⟩, rfl⟩
    · dsimp only
      rw [hlist]
      by_cases hut : u = t
      · subst hut
        by_cases hc : c = core
        · simp [ThreadInfo.setAffinitySingle, ThreadInfo.addAffinity, hc]
        · simp [ThreadInfo.setAffinitySingle, ThreadInfo.addAffinity, ThreadInfo.clearAffinity, hc, hnot]
      · simpa [hut] using h.affinity u c
    · dsimp only at hc hd
      rw [hlist] at hc hd
      rcases hc with hc | ⟨rfl, rfl⟩ <;> rcases hd with hd | ⟨hut, rfl⟩
      · exact h.disjoint u c d hc hd
      · exact absurd (hut ▸ hc) (hnot c)
      · exact absurd hd (hnot d)
      · rfl
    · dsimp only
      by_cases hc : c = core
      · subst hc
        rw [Function.update_self, List.nodup_append]
        refine ⟨h.nodup c, List.nodup_singleton t, fun u hu v hv huv => hnot c ?_⟩
        rw [List.mem_singleton] at hv
        rw [← hv, ← huv]
        exact hu
      · rw [Function.update_of_ne hc]
        exact h.nodup c
    · dsimp only at hc
      rw [hlist] at hc
      rcases hc with hc | ⟨rfl, rfl⟩
      · exact h.bound u c hc
      · exact ⟨hrange.2, ht⟩
    · have hut : u ≠ t := by
        rintro rfl
        exact absurd ht (Nat.not_lt_of_le hu)
      simpa [hut] using h.fresh u hu
  · exact .error trivial

/-- One more thread, which has an entry already. -/
theorem Tabled.grow (h : Tabled cfg lists s) (hinfo : s'.info = s.info)
    (hnum : s'.numThreads = s.numThreads + 1) (hsize : s.numThreads < s.info.size) : Tabled cfg lists s' where
  affinity t c := by rw [hinfo]; exact h.affinity t c
  disjoint := h.disjoint
  nodup := h.nodup
  bound t c ht := by rw [hnum]; exact ⟨(h.bound t c ht).1, Nat.lt_succ_of_lt (h.bound t c ht).2⟩
  fresh t ht := by rw [hinfo]; exact h.fresh t (by omega)
  size := by rw [hinfo, hnum]; exact hsize

/-- Creating the entry and counting the thread. -/
theorem growInfo_tabled (h : Tabled cfg lists s) (hinfo : s'.info = s.info)
    (hnum : s'.numThreads = s.numThreads + 1) :
    Tabled cfg lists (growInfo s' s.numThreads) ∧
      ((growInfo s' s.numThreads).info.get s.numThreads).hasAffinity = false ∧
      ∀ c, ((growInfo s' s.numThreads).info.get s.numThreads).affinity c = false := by
  have hgrown : ∃ a, Tabled cfg lists a ∧ a.numThreads = s.numThreads ∧ s.numThreads < a.info.size ∧
      (growInfo s' s.numThreads).info = a.info := by
    unfold growInfo
    rw [hinfo]
    split
    · rename_i hle
      exact ⟨_, h.resizeInfo (n := s.info.size + 16) (by omega), rfl, by have := h.size; simp; omega, rfl⟩
    · rename_i hle
      exact ⟨s, h, rfl, by omega, hinfo⟩
  have hcount : (growInfo s' s.numThreads).numThreads = s.numThreads + 1 := by
    rw [← hnum, growInfo]
    split <;> rfl
  obtain ⟨a, ha, hanum, hsize, heq⟩ := hgrown
  refine ⟨ha.grow heq (by rw [hcount, hanum]) (by rw [hanum]; exact hsize), ?_, fun c => ?_⟩
  · rw [heq]; exact ha.fresh _ hanum.le
  · rw [heq]; exact ha.no_affinity hanum.le c

theorem createThread_exact (hpol : cfg.policy = .pinned) (hmod : cfg.modifiedCode = true)
    (h : ListsExact cfg s) (app : ℕ) : Ensures (createThread cfg clock s app) (ListsExact cfg) fun _ => True := by
  unfold createThread
  dsimp only
  generalize hs₀ : Sim.setStatus { s with numThreads := _, appId := _ } s.numThreads .initializing = s₀
  have hinfo : s₀.info = s.info := by rw [← hs₀]; rfl
  have hnum : s₀.numThreads = s.numThreads + 1 := by rw [← hs₀]; rfl
  have hlists : s₀.threadsOnCore = s.threadsOnCore := by rw [← hs₀]; rfl
  obtain ⟨htabled, hhas, hnone⟩ := growInfo_tabled h hinfo hnum
  have hcount : (growInfo s₀ s.numThreads).numThreads = s.numThreads + 1 := by
    rw [← hnum, growInfo]
    split <;> rfl
  have hsame : (growInfo s₀ s.numThreads).threadsOnCore = s.threadsOnCore := by
    rw [← hlists, growInfo]
    split <;> rfl
  have hexact : ListsExact cfg (growInfo s₀ s.numThreads) := by
    unfold ListsExact
    rw [hsame]
    exact htabled
  refine Ensures.bind (Q := fun r => ListsExact cfg r.1) ?_ fun r hr => ?_
  · unfold threadCreate
    dsimp only
    split
    · split
      · refine Ensures.bind (Q := ListsExact cfg) ?_ fun b hb => .ok (hb.of_frame (frame_setCoreRunning ..))
        unfold holdBack
        dsimp only
        split
        · exact .ok (hexact.of_same rfl rfl rfl)
        · exact .error trivial
      · refine Ensures.bind (Q := ListsExact cfg) ?_ fun b hb => .ok (hb.of_frame (takeFreeCore_frame ..))
        rw [ensureAffinity, if_neg (by rw [hhas]; nofun), threadSetInitialAffinity, hpol]
        dsimp only
        rw [if_pos hmod]
        refine (setMappedAffinity_tabled hexact hnone ?_).mono (fun b hb => hb.1) fun _ hf => hf
        rw [hcount]
        exact Nat.lt_succ_self _
    · exact .error trivial
  · obtain ⟨a, core⟩ := r
    cases core with
    | none => exact .ok hr
    | some core =>
      exact (hr.ensures (setCore_frame ..)).bind fun b hb => .ok (hb.of_frame (frame_setState ..))

theorem onThreadStart_exact (h : ListsExact cfg s) :
    Ensures (onThreadStart cfg time s t) (ListsExact cfg) fun _ => True := by
  unfold onThreadStart
  split
  · refine Ensures.bind (Q := ListsExact cfg) ?_ fun b hb => ?_
    · have hgrown : ListsExact cfg (growRunnable (s.setStatus t .running) t) := by
        unfold growRunnable
        split
        · exact h.of_same rfl rfl rfl
        · exact h.of_same rfl rfl rfl
      unfold hookThreadStart
      dsimp only
      split
      · have hrun : ListsExact cfg ((growRunnable (s.setStatus t .running) t).setRunnable t true) :=
          hgrown.of_same rfl rfl rfl
        exact hrun.ensures (scheduleIfFree_frame ..)
      · exact .error trivial
    · split
      · exact .ok (hb.of_same rfl rfl rfl)
      · exact .ok (hb.of_same rfl rfl rfl)
  · exact .error trivial

theorem replaceBigThread_pinned (hpol : cfg.policy = .pinned) (s : Sim) (t : ℕ) :
    replaceBigThread cfg clock s t = .ok s :=
  if_neg fun h => by rw [hpol] at h; cases h.1

theorem stallThread_exact (hpol : cfg.policy = .pinned) (h : ListsExact cfg s) (reason : StallType) :
    Ensures (stallThread cfg clock time s t reason) (ListsExact cfg) fun _ => True := by
  unfold stallThread
  split
  · split
    · exact .ok (h.of_same rfl rfl rfl)
    · split
      · have hstalled : ListsExact cfg ((s.setStalled t reason).setRunnable t false) := h.of_same rfl rfl rfl
        rw [threadStall, replaceBigThread_pinned hpol, ok_bind, demote, if_neg, ok_bind]
        · exact hstalled.ensures (leaveCore_frame ..)
        · intro hp
          rw [hpol] at hp
          cases hp.1
      · exact .error trivial
  · exact .error trivial

theorem setFrequency_exact (hpol : cfg.policy = .pinned) (h : ListsExact cfg s) (mhz : ℕ) :
    Ensures (setFrequency cfg clock s core mhz) (ListsExact cfg) fun _ => True := by
  unfold setFrequency
  split
  · exact .ok h
  · split
    · exact .ok h
    · exact (stallThread_exact hpol h .broken).bind fun a ha => .ok (ha.of_same rfl rfl rfl)

theorem wakeThread_exact (h : ListsExact cfg s) :
    Ensures (wakeThread cfg time s t) (fun b => ListsExact cfg b ∧ SamePeriod s b) fun _ => True := by
  unfold wakeThread resumeThread
  dsimp only
  split
  · split
    · have hwoken : ListsExact cfg ((s.setStatus t .running).setRunnable t true) := h.of_same rfl rfl rfl
      have hperiod : SamePeriod s ((s.setStatus t .running).setRunnable t true) := ⟨rfl, rfl, rfl⟩
      exact (scheduleIfFree_frame ..).mono
        (fun b hb => ⟨hwoken.of_frame hb, hperiod.trans hb.samePeriod⟩) fun _ _ => trivial
    · exact .error trivial
  · exact .error trivial

theorem beginExit_exact (h : ListsExact cfg s) (wake : List ℕ) :
    Ensures (beginExit cfg time s t core wake) (fun b => ListsExact cfg b ∧ SamePeriod s b) fun _ => True := by
  refine Ensures.bind (Q := fun b => ListsExact cfg b ∧ SamePeriod s b) ?_ fun a ha => ?_
  · refine Ensures.foldlM (fun a u _ ha => ?_) ⟨h.of_same rfl rfl rfl, rfl, rfl, rfl⟩
    exact (wakeThread_exact ha.1).mono (fun b hb => ⟨hb.1, ha.2.trans hb.2⟩) fun _ hf => hf
  · refine Ensures.bind (Q := fun b => ListsExact cfg b ∧ SamePeriod s b) ?_ fun b hb => ?_
    · have hidle := frame_setState a core .idle
      exact (setCore_frame ..).mono (fun b hb => ⟨ha.1.of_frame (hidle.trans hb),
        ha.2.trans (hidle.trans hb).samePeriod⟩) fun _ _ => trivial
    · split
      · exact .ok ⟨hb.1.of_same rfl rfl rfl, hb.2.trans ⟨rfl, rfl, rfl⟩⟩
      · exact .error trivial

theorem onThreadExit_exact (hpol : cfg.policy = .pinned) (h : ListsExact cfg s)
    (hperiod : cfg.periodicWorkload = true →
      hyperPeriodEnds cfg { s with numThreadsExited := s.numThreadsExited + 1 } = false)
    (wake : List ℕ) (file : List (ℕ × ℕ × ℕ)) :
    Ensures (onThreadExit cfg clock time s t wake file) (ListsExact cfg) fun _ => True := by
  unfold onThreadExit
  split
  · split
    · exact .error trivial
    · split
      · refine (beginExit_exact h wake).bind fun a ha => ?_
        rw [threadExit, replaceBigThread_pinned hpol, ok_bind]
        refine Ensures.bind (Q := fun b => ListsExact cfg b ∧ SamePeriod s b) ?_ fun b hb => ?_
        · exact (leaveCore_frame ..).mono (fun b hb => ⟨ha.1.of_frame hb, ha.2.trans hb.samePeriod⟩)
            fun _ _ => trivial
        · unfold countExit
          split
          · rename_i hper
            have hnot : hyperPeriodEnds cfg { b with numThreadsExited := b.numThreadsExited + 1 } = false := by
              have := hperiod hper
              unfold hyperPeriodEnds at this ⊢
              simpa only [hb.2.exited, hb.2.number] using this
            dsimp only
            rw [if_neg (by rw [hnot]; nofun)]
            exact .ok (hb.1.of_same rfl rfl rfl)
          · exact .ok hb.1
      · exact .error trivial
  · exact .error trivial

/-- The threads of a core after they have been moved: they are pinned to the new core, nobody else's
affinity has changed. -/
structure Migrated (threads : List ℕ) (dest : ℕ) (s s' : Sim) : Prop where
  moved : ∀ t ∈ threads, ∀ c, (s'.info.get t).affinity c = decide (c = dest)
  other : ∀ t, t ∉ threads → (s'.info.get t).affinity = (s.info.get t).affinity ∧
    (s'.info.get t).hasAffinity = (s.info.get t).hasAffinity
  lists : s'.threadsOnCore = s.threadsOnCore
  numThreads : s'.numThreads = s.numThreads
  size : s'.info.size = s.info.size

theorem migrateThread_spec (cfg : Config) (clock : ℕ → ℕ) (dest : ℕ) (s : Sim) (t : ℕ) :
    Ensures (migrateThread cfg clock dest s t) (fun b => Migrated [t] dest s b ∧ dest < cfg.numCores)
      fun _ => True := by
  unfold migrateThread
  split
  · rename_i hdest
    split
    · dsimp only
      generalize ha : s.modifyInfo t _ = a
      have hpinned : Migrated [t] dest s a := by
        rw [← ha]
        refine ⟨fun u hu c => ?_, fun u hu => ?_, rfl, rfl, rfl⟩
        · obtain rfl : u = t := by simpa using hu
          by_cases hc : c = dest <;>
            simp [Sim.modifyInfo, ThreadInfo.setAffinitySingle, ThreadInfo.addAffinity, ThreadInfo.clearAffinity, hc]
        · have hne : u ≠ t := by simpa using hu
          simp [Sim.modifyInfo, hne]
      split
      · exact .ok ⟨hpinned, hdest⟩
      · refine (applyAffinity_frame ..).mono (fun b hb => ⟨⟨fun u hu c => ?_, fun u hu => ?_, ?_, ?_, ?_⟩, hdest⟩)
          fun _ _ => trivial
        · rw [hb.affinity]; exact hpinned.moved u hu c
        · rw [hb.affinity, hb.hasAffinity]; exact hpinned.other u hu
        · rw [hb.threadsOnCore]; exact hpinned.lists
        · rw [hb.numThreads]; exact hpinned.numThreads
        · rw [hb.info_size]; exact hpinned.size
    · exact .error trivial
  · exact .error trivial

/-- The loop over the threads of a core. -/
theorem migrateThreads_spec (cfg : Config) (clock : ℕ → ℕ) (dest : ℕ) (s : Sim) (threads : List ℕ) :
    Ensures (threads.foldlM (migrateThread cfg clock dest) s)
      (fun b => Migrated threads dest s b ∧ (threads ≠ [] → dest < cfg.numCores)) fun _ => True := by
  induction threads generalizing s with
  | nil => exact .ok ⟨⟨nofun, fun _ _ => ⟨rfl, rfl⟩, rfl, rfl, rfl⟩, fun h => absurd rfl h⟩
  | cons t threads ih =>
    rw [List.foldlM_cons]
    refine (migrateThread_spec cfg clock dest s t).bind fun a ha => (ih a).mono ?_ fun _ hf => hf
    rintro b ⟨hb, -⟩
    refine ⟨⟨fun u hu c => ?_, fun u hu => ?_, hb.lists.trans ha.1.lists, hb.numThreads.trans ha.1.numThreads,
      hb.size.trans ha.1.size⟩, fun _ => ha.2⟩
    · by_cases hmem : u ∈ threads
      · exact hb.moved u hmem c
      · obtain rfl : u = t := (List.mem_cons.1 hu).resolve_right hmem
        rw [(hb.other u hmem).1]
        exact ha.1.moved u (List.mem_singleton.2 rfl) c
    · rw [List.mem_cons, not_or] at hu
      obtain ⟨hne, hnot⟩ := hu
      have ha' := ha.1.other u (by simpa using hne)
      have hb' := hb.other u hnot
      exact ⟨hb'.1.trans ha'.1, hb'.2.trans ha'.2⟩

/-- The lists together with the threads that have been moved already. -/
def allLists (acc : Sim × (ℕ → List ℕ)) : ℕ → List ℕ := fun c => acc.1.threadsOnCore c ++ acc.2 c

/-- Moving the threads of one core takes them from its list to the list of the new core. -/
theorem migrateCore_tabled {acc : Sim × (ℕ → List ℕ)} (h : Tabled cfg (allLists acc) acc.1) (move : ℕ × ℕ) :
    Ensures (migrateCore cfg clock acc move) (fun r => Tabled cfg (allLists r) r.1) fun _ => True := by
  obtain ⟨s, moved⟩ := acc
  obtain ⟨src, dest⟩ := move
  unfold migrateCore
  dsimp only
  split
  · refine (migrateThreads_spec cfg clock dest s (s.threadsOnCore src)).bind ?_
    rintro b ⟨hb, hdest⟩
    -- a thread of the moved core is in no other list and has not been moved before
    have honly : ∀ u ∈ s.threadsOnCore src, ∀ c, u ∉ moved c ∧ (c ≠ src → u ∉ s.threadsOnCore c) := by
      intro u hu c
      have hsrc : u ∈ allLists (s, moved) src := List.mem_append_left _ hu
      refine ⟨fun hm => ?_, fun hc hm => hc (h.disjoint u c src (List.mem_append_left _ hm) hsrc)⟩
      obtain rfl : c = src := h.disjoint u c src (List.mem_append_right _ hm) hsrc
      exact (List.nodup_append.1 (h.nodup c)).2.2 u hu u hm rfl
    generalize hr : (({ b with threadsOnCore := Function.update b.threadsOnCore src [] } : Sim),
      Function.update moved dest (moved dest ++ s.threadsOnCore src)) = r
    have hfst : r.1 = { b with threadsOnCore := Function.update b.threadsOnCore src [] } := by rw [← hr]
    have hlists : ∀ c, allLists r c = Function.update s.threadsOnCore src [] c ++
        Function.update moved dest (moved dest ++ s.threadsOnCore src) c := by
      intro c
      rw [← hr, allLists, hb.lists]
    have hmem : ∀ u c, u ∈ allLists r c ↔ u ∈ s.threadsOnCore src ∧ c = dest ∨
        u ∉ s.threadsOnCore src ∧ u ∈ allLists (s, moved) c := by
      intro u c
      rw [hlists, List.mem_append]
      by_cases hu : u ∈ s.threadsOnCore src
      · have hnot : u ∉ Function.update s.threadsOnCore src [] c := by
          by_cases hc : c = src
          · simp [hc]
          · rw [Function.update_of_ne hc]; exact (honly u hu c).2 hc
        by_cases hc : c = dest
        · subst hc; simp [hu]
        · simp [hu, hc, hnot, (honly u hu c).1]
      · have hkeep : u ∈ Function.update s.threadsOnCore src [] c ↔ u ∈ s.threadsOnCore c := by
          by_cases hc : c = src
          · subst hc; simp [hu]
          · rw [Function.update_of_ne hc]
        by_cases hc : c = dest
        · subst hc; simp [hu, hkeep, allLists]
        · simp [hu, hc, hkeep, allLists]
    refine .ok ⟨fun u c => ?_, fun u c d hc hd => ?_, fun c => ?_, fun u c hc => ?_, fun u hu => ?_, ?_⟩
    · rw [hmem, hfst]
      by_cases hu : u ∈ s.threadsOnCore src
      · simp [hu, hb.moved u hu c]
      · have := h.affinity u c
        simp [hu, (hb.other u hu).1, this]
    · rcases (hmem u c).1 hc with ⟨hu, rfl⟩ | ⟨hu, hc⟩ <;> rcases (hmem u d).1 hd with ⟨hu', rfl⟩ | ⟨hu', hd⟩
      · rfl
      · exact absurd hu hu'
      · exact absurd hu' hu
      · exact h.disjoint u c d hc hd
    · rw [hlists]
      have hsub : (Function.update s.threadsOnCore src [] c ++ moved c).Sublist (allLists (s, moved) c) := by
        refine List.Sublist.append ?_ (List.Sublist.refl _)
        by_cases hc : c = src
        · subst hc; simp
        · rw [Function.update_of_ne hc]
      have hnodup := (h.nodup c).sublist hsub
      by_cases hc : c = dest
      · subst hc
        rw [Function.update_self, ← List.append_assoc, List.nodup_append]
        refine ⟨hnodup, (List.nodup_append.1 (h.nodup src)).1, fun u hu v hv huv => ?_⟩
        subst huv
        rcases List.mem_append.1 hu with hu | hu
        · by_cases hc : c = src
          · simp [hc] at hu
          · exact (honly u hv c).2 hc (by rwa [Function.update_of_ne hc] at hu)
        · exact (honly u hv c).1 hu
      · rwa [Function.update_of_ne hc]
    · rw [hfst]
      rcases (hmem u c).1 hc with ⟨hu, rfl⟩ | ⟨-, hc⟩
      · refine ⟨hdest (List.ne_nil_of_mem hu), ?_⟩
        rw [show Sim.numThreads { b with threadsOnCore := _ } = b.numThreads from rfl, hb.numThreads]
        exact (h.bound u src (List.mem_append_left _ hu)).2
      · rw [show Sim.numThreads { b with threadsOnCore := _ } = b.numThreads from rfl, hb.numThreads]
        exact h.bound u c hc
    · rw [hfst] at hu ⊢
      rw [show Sim.numThreads { b with threadsOnCore := _ } = b.numThreads from rfl, hb.numThreads] at hu
      have hnot : u ∉ s.threadsOnCore src := fun hmem' => by
        exact absurd (h.bound u src (List.mem_append_left _ hmem')).2 (Nat.not_lt_of_le hu)
      rw [show Sim.info { b with threadsOnCore := _ } = b.info from rfl, (hb.other u hnot).2]
      exact h.fresh u hu
    · rw [hfst]
      change b.numThreads ≤ b.info.size
      rw [hb.numThreads, hb.size]
      exact h.size
  · exact .error trivial

theorem changeMapping_exact (h : ListsExact cfg s) (moves : Option (List (ℕ × ℕ))) :
    Ensures (changeMapping cfg clock s moves) (ListsExact cfg) fun _ => True := by
  unfold changeMapping
  split
  · exact .ok h
  · refine Ensures.bind (Q := fun r => Tabled cfg (allLists r) r.1) ?_ fun r hr => .ok (hr.of_same rfl rfl)
    refine Ensures.foldlM (fun acc move _ hacc => migrateCore_tabled hacc move) ?_
    have hsame : allLists (s, fun _ => []) = s.threadsOnCore := by
      funext c
      simp [allLists]
    rw [hsame]
    exact h

theorem periodic_exact (hpol : cfg.policy = .pinned) (h : ListsExact cfg s) (moves : Option (List (ℕ × ℕ)))
    (dvfs : ℕ → ℤ) : Ensures (periodic cfg clock time s moves dvfs) (ListsExact cfg) fun _ => True := by
  have hquiet : reshuffle cfg clock time s = .ok s := if_neg fun hp => by
    rw [hpol] at hp
    cases hp.1
  rw [periodic, hquiet, ok_bind, periodicBase]
  refine Ensures.bind (Q := ListsExact cfg) ?_ fun b hb => ?_
  · unfold intervene
    split
    · refine (changeMapping_exact h moves).bind fun b hb => ?_
      refine Ensures.bind (Q := ListsExact cfg) ?_ fun d hd => .ok (hd.of_same rfl rfl rfl)
      refine Ensures.foldlM (fun d c _ hd => ?_) hb
      exact setFrequency_exact hpol hd _
    · exact .ok h
  · refine Ensures.bind (Q := ListsExact cfg) ?_ fun d hd => .ok (hd.of_same rfl rfl rfl)
    exact Ensures.foldlM (fun d c _ hd => hd.ensures (periodicCore_frame ..)) hb

/-- Every step that meets the condition keeps the lists exact. -/
theorem step_exact (hpol : cfg.policy = .pinned) (hmod : cfg.modifiedCode = true) {call : Call}
    (h : ListsExact cfg s) (hcall : KeepsMapping cfg s call) :
    Ensures (step cfg s call) (ListsExact cfg) fun _ => True := by
  unfold KeepsMapping at hcall
  unfold step
  split <;> rename_i heq <;> rw [heq] at hcall
  · exact createThread_exact hpol hmod h _
  · exact onThreadStart_exact h
  · exact stallThread_exact hpol h _
  · exact (wakeThread_exact h).mono (fun _ hb => hb.1) fun _ hf => hf
  · exact onThreadExit_exact hpol h hcall _ _
  · split
    · exact h.ensures (threadYield_frame ..)
    · exact .error trivial
  · exact threadSetAffinity_exact h hcall
  · exact periodic_exact hpol h _ _
  · exact setFrequency_exact hpol h _

/-- In every run whose affinity calls leave the affinity sets alone and that does not change the
hyper-period, the lists say exactly which threads are pinned to which core. -/
theorem mappingTable_consistent (cfg : Config) (hpol : cfg.policy = .pinned) (hmod : cfg.modifiedCode = true)
    (map : ℕ → ℕ → Option ℕ) (calls : List Call) (s : Sim)
    (hcalls : (machine cfg).Guarded (KeepsMapping cfg) (initial map) calls)
    (hrun : (machine cfg).run (initial map) calls = .ok s) : MappingConsistent s := by
  have hinit : ListsExact cfg (initial map) :=
    ⟨fun _ _ => ⟨nofun, nofun⟩, fun _ _ _ => nofun, fun _ => List.nodup_nil, fun _ _ => nofun, fun _ _ => rfl, le_rfl⟩
  have hexact := (machine cfg).guarded_induction (P := ListsExact cfg)
    (fun a call b ha hcall hstep => (step_exact hpol hmod ha hcall).of_ok hstep) hinit hcalls hrun
  exact Tabled.consistent hexact

/-- Two cores, initial cores from the mapping file, interventions at every period. -/
def mappedCores : Config := { twoCores with modifiedCode := true, runtimeIntervention := true }

/-- The mapping puts the first two threads of the application on cores 0 and 1. -/
def oneToOne : ℕ → ℕ → Option ℕ := fun app rank => if app = 0 ∧ rank < 2 then some rank else none

/-- Two threads are created and started, then the mapping file exchanges their cores. -/
def exchangeRun : List Call :=
  [(Event.create 0).at 0, (Event.start 0).at 0, (Event.create 0).at 0, (Event.start 1).at 0,
    (Event.periodic (some [(0, 1), (1, 0)]) fun _ => 1000).at 10]

theorem mappingTable_consistent_exchange :
    ((machine mappedCores).final (initial oneToOne) exchangeRun).threadsOnCore 0 = [1] ∧
      MappingConsistent ((machine mappedCores).final (initial oneToOne) exchangeRun) := by
  refine ⟨by decide +kernel, ?_⟩
  refine mappingTable_consistent mappedCores rfl rfl oneToOne exchangeRun _ ?_
    ((machine mappedCores).run_final (by decide +kernel))
  exact ⟨trivial, fun _ _ => ⟨trivial, fun _ _ => ⟨trivial, fun _ _ => ⟨trivial, fun _ _ =>
    ⟨trivial, fun _ _ => trivial⟩⟩⟩⟩⟩

/-- A thread on core 0 pins itself to core 1. -/
def pinRun : List Call :=
  [(Event.create 0).at 0, (Event.start 0).at 0, (Event.setAffinity (some 0) 0 (some [1])).at 5]

/-- After `sched_setaffinity` the thread is pinned to core 1 and still in the list of core 0. -/
theorem mappingTable_stale :
    ∃ s, (machine mappedCores).Reachable (initial oneToOne) s ∧ s.threadsOnCore 0 = [0] ∧
      s.threadsOnCore 1 = [] ∧ (s.info.get 0).affinity 0 = false ∧ (s.info.get 0).affinity 1 = true ∧
      ¬ MappingConsistent s := by
  refine ⟨(machine mappedCores).final (initial oneToOne) pinRun,
    ⟨pinRun, (machine mappedCores).run_final (by decide +kernel)⟩, by decide +kernel, by decide +kernel,
    by decide +kernel, by decide +kernel, fun h => ?_⟩
  have hlist : (0 : ℕ) ∈ ((machine mappedCores).final (initial oneToOne) pinRun).threadsOnCore 0 := by decide +kernel
  have haff : (((machine mappedCores).final (initial oneToOne) pinRun).info.get 0).affinity 0 = true :=
    (((h 0 (by decide +kernel)).1 0).1 hlist 0).2 rfl
  exact absurd haff (by decide +kernel)

end LifeSim.Sched
