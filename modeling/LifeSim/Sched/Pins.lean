import LifeSim.Sched.FineSteps
import LifeSim.Sched.Bounds

/-!
# Which threads get a new affinity

Most events move threads about and leave their affinities alone. Under `SchedulerBigSmall` a stall, an exit and the
reshuffle give some threads the affinity of a class of cores; `Moved` says which, as a list of threads and classes in the
order of the calls. What the other operations do is said for one thread at a time.
-/

namespace LifeSim.Sched

open LifeSim.Lib

variable {cfg : Config} {s s' a b : Sim} {t u core time : ℕ} {clock : ℕ → ℕ} {l l' : List (ℕ × Bool)}

/-- What the scheduler has on record about where a thread may run. -/
structure Pin where
  affinity : ℕ → Bool
  explicit : Bool
  big : Bool

def Sim.pin (s : Sim) (t : ℕ) : Pin :=
  ⟨(s.info.get t).affinity, (s.info.get t).explicitAffinity, s.threadIsBig t⟩

/-- The record of a thread that is free to run on the cores of a class. -/
def Pin.ofClass (cfg : Config) (big : Bool) : Pin := ⟨fun c => (coresOf cfg big).contains c, true, big⟩

/-- The record of a thread after it has been given classes. -/
def Pin.after (cfg : Config) (t : ℕ) (l : List (ℕ × Bool)) (p : Pin) : Pin :=
  l.foldl (fun p m => if m.1 = t then .ofClass cfg m.2 else p) p

theorem Pin.after_of_forall_ne (h : ∀ m ∈ l, m.1 ≠ t) (p : Pin) : p.after cfg t l = p := by
  induction l generalizing p with
  | nil => rfl
  | cons m l ih =>
    rw [Pin.after, List.foldl_cons, if_neg (h m List.mem_cons_self)]
    exact ih (fun n hn => h n (List.mem_cons_of_mem m hn)) p

theorem Pin.after_append (p : Pin) : p.after cfg t (l ++ l') = (p.after cfg t l).after cfg t l' :=
  List.foldl_append

/-- A thread that has been given a class has the last one it was given. -/
theorem Pin.after_class (p : Pin) :
    (∀ m ∈ l, m.1 ≠ t) ∨ ∃ big, (t, big) ∈ l ∧ p.after cfg t l = .ofClass cfg big := by
  induction l using List.reverseRecOn with
  | nil => exact .inl fun m hm => absurd hm List.not_mem_nil
  | append_singleton l m ih =>
    rw [Pin.after_append]
    change _ ∨ ∃ big, (t, big) ∈ l ++ [m] ∧
      (if m.1 = t then Pin.ofClass cfg m.2 else p.after cfg t l) = .ofClass cfg big
    by_cases hm : m.1 = t
    · rw [if_pos hm]
      refine .inr ⟨m.2, List.mem_append_right _ ?_, rfl⟩
      rw [← hm]
      exact List.mem_cons_self
    · rw [if_neg hm]
      refine ih.imp (fun hne n hn => ?_) (Exists.imp fun big => And.imp_left (List.mem_append_left _))
      exact (List.mem_append.1 hn).elim (hne n) fun hn => List.mem_singleton.1 hn ▸ hm

theorem Frame.pin (h : Frame s s') : s'.pin = s.pin := by
  funext t
  have hinfo := h.pinning t
  have hbig : s'.threadIsBig t = s.threadIsBig t := congrArg (fun s => s.threadIsBig t) h.fixed
  have haffinity : (s'.info.get t).affinity = (s.info.get t).affinity := congrArg (·.affinity) hinfo
  have hexplicit : (s'.info.get t).explicitAffinity = (s.info.get t).explicitAffinity :=
    congrArg (·.explicitAffinity) hinfo
  rw [Sim.pin, Sim.pin, haffinity, hexplicit, hbig]

/-! ### Classes of cores -/

/-- These threads have been given classes, in this order, and nothing else has happened to affinities. -/
structure Moved (cfg : Config) (l : List (ℕ × Bool)) (s s' : Sim) : Prop where
  size : s'.info.size = s.info.size
  numThreads : s'.numThreads = s.numThreads
  listed : s'.threadsOnCore = s.threadsOnCore
  period : SamePeriod s s'
  pins : ∀ t, s'.pin t = (s.pin t).after cfg t l
  hasAffinity : ∀ t, (∀ m ∈ l, m.1 ≠ t) → (s'.info.get t).hasAffinity = (s.info.get t).hasAffinity

namespace Moved

theorem of_frame (h : Frame s s') : Moved cfg [] s s' :=
  ⟨h.info_size, h.numThreads, h.threadsOnCore, h.samePeriod, fun t => congrFun h.pin t, fun t _ => h.hasAffinity t⟩

theorem refl (s : Sim) : Moved cfg [] s s := of_frame (.refl s)

theorem trans (h : Moved cfg l s a) (h' : Moved cfg l' a b) : Moved cfg (l ++ l') s b where
  size := h'.size.trans h.size
  numThreads := h'.numThreads.trans h.numThreads
  listed := h'.listed.trans h.listed
  period := h.period.trans h'.period
  pins t := by rw [h'.pins, h.pins, Pin.after_append]
  hasAffinity t ht := by
    rw [h'.hasAffinity t fun m hm => ht m (List.mem_append_right _ hm),
      h.hasAffinity t fun m hm => ht m (List.mem_append_left _ hm)]

/-- A change that affinities do not see. -/
theorem of_same (hinfo : s'.info = s.info) (hnum : s'.numThreads = s.numThreads)
    (hlisted : s'.threadsOnCore = s.threadsOnCore) (hperiod : SamePeriod s s')
    (hbig : s'.threadIsBig = s.threadIsBig) : Moved cfg [] s s' where
  size := congrArg Table.size hinfo
  numThreads := hnum
  listed := hlisted
  period := hperiod
  pins t := by
    rw [Sim.pin, Sim.pin, hinfo, hbig]
    rfl
  hasAffinity t _ := by rw [hinfo]

/-- A thread that is not in the list keeps its affinity. -/
theorem pin_eq (h : Moved cfg l s s') (ht : ∀ m ∈ l, m.1 ≠ t) : s'.pin t = s.pin t := by
  rw [h.pins, Pin.after_of_forall_ne ht]

end Moved

theorem addAffinities_explicit (cfg : Config) (t : ℕ) (mask : List ℕ) (s : Sim)
    (h : (s.info.get t).explicitAffinity = true) :
    Ensures (addAffinities cfg s t mask) (fun b => (b.info.get t).explicitAffinity = true) fun _ => True := by
  induction mask generalizing s with
  | nil => exact .ok h
  | cons cpu mask ih =>
    rw [addAffinities, List.foldlM_cons]
    split_ifs
    · refine ih _ ?_
      rw [Sim.modifyInfo, Table.get_set, if_pos rfl]
      exact h
    · exact .error trivial

theorem recordAffinity_explicit (cfg : Config) (s : Sim) (t : ℕ) (mask : Option (List ℕ)) :
    Ensures (recordAffinity cfg s t mask) (fun b => (b.info.get t).explicitAffinity = true) fun _ => True := by
  unfold recordAffinity
  cases mask with
  | none =>
    refine addAffinities_explicit cfg t _ _ ?_
    rw [Sim.modifyInfo, Table.get_set, if_pos rfl]
  | some mask =>
    refine addAffinities_explicit cfg t _ _ ?_
    rw [Sim.modifyInfo, Table.get_set, if_pos rfl, ThreadInfo.clearAffinity, Sim.modifyInfo, Table.get_set, if_pos rfl]

/-- The affinity of one thread has been set. -/
structure Pinned (cfg : Config) (t : ℕ) (mask : Option (List ℕ)) (s s' : Sim) : Prop where
  size : s'.info.size = (grownInfo s t).size
  numThreads : s'.numThreads = s.numThreads
  listed : s'.threadsOnCore = s.threadsOnCore
  period : SamePeriod s s'
  big : s'.threadIsBig = s.threadIsBig
  set : s'.pin t = ⟨newAffinity cfg ((grownInfo s t).get t).affinity mask, true, s.threadIsBig t⟩
  others : ∀ u, u ≠ t →
    s'.pin u = ⟨((grownInfo s t).get u).affinity, ((grownInfo s t).get u).explicitAffinity, s.threadIsBig u⟩
  hasAffinity : ∀ u, u ≠ t → (s'.info.get u).hasAffinity = ((grownInfo s t).get u).hasAffinity

/-- The entries that are in use are those of the other threads as they were. -/
theorem Pinned.pin_eq {mask : Option (List ℕ)} (h : Pinned cfg t mask s s') (hu : u ≠ t)
    (hlt : u < s.info.size ∨ t < s.info.size) : s'.pin u = s.pin u := by
  have hentry : (grownInfo s t).get u = s.info.get u := by
    rw [grownInfo]
    split_ifs with hle
    · exact if_pos (hlt.resolve_right (Nat.not_lt.2 hle))
    · rfl
  rw [h.others u hu, hentry]
  rfl

theorem Pinned.explicit {mask : Option (List ℕ)} (h : Pinned cfg t mask s s') (hu : u ≠ t)
    (hfresh : (s.pin u).explicit = false) : (s'.pin u).explicit = false := by
  rw [h.others u hu]
  change ((grownInfo s t).get u).explicitAffinity = false
  rw [grownInfo]
  split_ifs
  · rw [Table.get_resize]
    split_ifs
    · exact hfresh
    · rfl
  · exact hfresh

theorem threadSetAffinity_pinned (cfg : Config) (clock : ℕ → ℕ) (s : Sim) (calling : Option ℕ) (t : ℕ)
    (mask : Option (List ℕ)) :
    Ensures (threadSetAffinity cfg clock s calling t mask) (Pinned cfg t mask s) fun _ => True := by
  rw [threadSetAffinity]
  have hrecord := ((recordAffinity_spec cfg s t mask).mono (fun _ h => h) fun _ _ => trivial).and
    (recordAffinity_explicit cfg s t mask)
  refine hrecord.bind fun a ha => ?_
  obtain ⟨ha, hexplicit⟩ := ha
  have hsame : a.numThreads = s.numThreads ∧ a.threadsOnCore = s.threadsOnCore ∧ a.threadIsBig = s.threadIsBig := by
    rw [ha.same]
    exact ⟨rfl, rfl, rfl⟩
  have hperiod : SamePeriod s a := by
    rw [ha.same]
    exact ⟨rfl, rfl, rfl⟩
  have hframe (b : Sim) (hb : Frame a b) : Pinned cfg t mask s b := by
    refine ⟨hb.info_size.trans ha.size, hb.numThreads.trans hsame.1, hb.threadsOnCore.trans hsame.2.1,
      hperiod.trans hb.samePeriod, (congrArg (·.threadIsBig) hb.fixed : b.threadIsBig = a.threadIsBig).trans hsame.2.2,
        ?_, fun u hu => ?_, fun u hu => ?_⟩
    · rw [congrFun hb.pin t, Sim.pin, ha.affinity, hexplicit, hsame.2.2]
    · rw [congrFun hb.pin u, Sim.pin, ha.other u hu, hsame.2.2]
    · rw [hb.hasAffinity, ha.other u hu]
  split_ifs
  · exact .ok (hframe a (.refl a))
  · exact (threadYield_frame cfg clock a t).mono hframe fun _ _ => trivial
  · exact (applyAffinity_frame cfg clock a t).mono hframe fun _ _ => trivial

/-- `moveToSmall` and `moveToBig`. -/
theorem moveTo_moved (big : Bool) (ht : t < s.info.size) :
    Ensures (moveTo cfg clock big s t) (Moved cfg [(t, big)] s) fun _ => True := by
  rw [moveTo]
  refine (threadSetAffinity_pinned ..).bind fun a ha => .ok ?_
  have hgrown : grownInfo s t = s.info := if_neg (Nat.not_le.2 ht)
  refine ⟨?_, ha.numThreads, ha.listed, ⟨ha.period.exited, ha.period.number, ha.period.apps⟩, fun u => ?_,
    fun u hu => ?_⟩
  · rw [← hgrown]
    exact ha.size
  · change (⟨(a.info.get u).affinity, (a.info.get u).explicitAffinity, Function.update a.threadIsBig t big u⟩ : Pin) =
      if t = u then .ofClass cfg big else s.pin u
    by_cases hu : t = u
    · rw [if_pos hu, ← hu, Function.update_self]
      have hset := ha.set
      rw [Sim.pin, Pin.mk.injEq] at hset
      rw [hset.1, hset.2.1]
      rfl
    · rw [if_neg hu, Function.update_of_ne (Ne.symm hu), ← ha.pin_eq (Ne.symm hu) (.inr ht)]
      rfl
  · change (a.info.get u).hasAffinity = _
    rw [ha.hasAffinity u (hu _ List.mem_cons_self).symm, hgrown]

/-- At most one thread is promoted, and it is none of those on the big cores. -/
def Promotion (s : Sim) (l : List (ℕ × Bool)) : Prop := l = [] ∨ ∃ t ∈ promotable s, l = [(t, true)]

/-- `pickBigThread` promotes one of the candidates, if there is any. -/
theorem pickBigThread_moved (hsize : s.numThreads ≤ s.info.size) :
    Ensures (pickBigThread cfg clock s) (fun b => ∃ l, Promotion s l ∧ Moved cfg l s b) fun _ => True := by
  rw [pickBigThread]
  split_ifs
  · split
    · exact .ok ⟨[], .inl rfl, .refl s⟩
    · rename_i t ts hcandidates
      have hlt : rngNext s.rng / 2 ^ 16 % (ts.length + 1) < (t :: ts).length := Nat.mod_lt _ (Nat.succ_pos _)
      have hmem : (t :: ts).getD (rngNext s.rng / 2 ^ 16 % (ts.length + 1)) t ∈ promotable s := by
        rw [hcandidates, List.getD_eq_getElem _ _ hlt]
        exact List.getElem_mem _
      generalize (t :: ts).getD (rngNext s.rng / 2 ^ 16 % (ts.length + 1)) t = u at hmem
      have hcreated : u < s.info.size := (List.mem_range.1 (List.mem_filter.1 hmem).1).trans_le hsize
      have hdrawn : Moved cfg [] s { s with rng := rngNext s.rng } := .of_same rfl rfl rfl ⟨rfl, rfl, rfl⟩ rfl
      rw [moveToBig]
      refine (moveTo_moved (s := { s with rng := rngNext s.rng }) true hcreated).mono (fun b hb => ?_) fun _ _ => trivial
      exact ⟨_, .inr ⟨_, hmem, rfl⟩, hdrawn.trans hb⟩
  · exact .error trivial

/-! ### The events -/

/-- Resuming a thread, from outside the scheduler or in the middle of a move. -/
theorem resumeThread_moved (cfg : Config) (time : ℕ) (s : Sim) (t : ℕ) :
    Ensures (resumeThread cfg (fun s core => reschedule cfg s time core) s t) (Moved cfg [] s) fun _ => True := by
  have hawake : Moved cfg [] s ((s.setStatus t .running).setRunnable t true) :=
    .of_same rfl rfl rfl ⟨rfl, rfl, rfl⟩ rfl
  unfold resumeThread
  dsimp only
  split_ifs
  · exact (scheduleIfFree_frame ..).mono (fun b hb => hawake.trans (.of_frame hb)) fun _ _ => trivial
  · exact .error trivial

theorem wakeThread_moved (cfg : Config) (time : ℕ) (s : Sim) (t : ℕ) :
    Ensures (wakeThread cfg time s t) (Moved cfg [] s) fun _ => True := by
  rw [wakeThread]
  split_ifs
  · exact resumeThread_moved ..
  · exact .error trivial

/-- Moving a thread, waking it if it waits for a core. -/
theorem moveThread_moved (cfg : Config) (time : ℕ) (s : Sim) (t core : ℕ) :
    Ensures (moveThread (resumeThread cfg fun s core => reschedule cfg s time core) s t (some core))
      (Moved cfg [] s) fun _ => True := by
  have hvacated : Moved cfg [] s (vacate s t) := .of_frame (frame_vacate ..)
  rw [moveThread]
  refine Ensures.bind (Q := Moved cfg [] s) ?_ fun a ha => ?_
  · rw [wakeUnscheduled]
    split_ifs
    · exact (resumeThread_moved ..).mono (fun b hb => hvacated.trans hb) fun _ _ => trivial
    · exact .ok hvacated
  · refine Ensures.bind (Q := Moved cfg [] s) ?_ fun b hb => .ok ?_
    · exact (setCore_frame ..).mono (fun b hb => ha.trans (.of_frame hb)) fun _ _ => trivial
    · split_ifs
      · exact hb
      · exact hb.trans (.of_frame (frame_setState ..))

theorem onThreadStart_moved (cfg : Config) (time : ℕ) (s : Sim) (t : ℕ) :
    Ensures (onThreadStart cfg time s t) (Moved cfg [] s) fun _ => True := by
  have hhook (a : Sim) : Ensures (hookThreadStart cfg time a t) (Moved cfg [] a) fun _ => True := by
    have hgrown : Moved cfg [] a ((growRunnable a t).setRunnable t true) := by
      rw [growRunnable]
      split_ifs
      · exact .of_same rfl rfl rfl ⟨rfl, rfl, rfl⟩ rfl
      · exact .of_same rfl rfl rfl ⟨rfl, rfl, rfl⟩ rfl
    rw [hookThreadStart]
    split_ifs
    · exact (scheduleIfFree_frame ..).mono (fun b hb => hgrown.trans (.of_frame hb)) fun _ _ => trivial
    · exact .error trivial
  have hrunning : Moved cfg [] s (s.setStatus t .running) := .of_same rfl rfl rfl ⟨rfl, rfl, rfl⟩ rfl
  rw [onThreadStart]
  split_ifs
  · refine (hhook _).bind fun a ha => ?_
    have hstarted := hrunning.trans ha
    split
    · exact .ok (hstarted.trans (.of_same rfl rfl rfl ⟨rfl, rfl, rfl⟩ rfl))
    · exact .ok (hstarted.trans (.of_same rfl rfl rfl ⟨rfl, rfl, rfl⟩ rfl))
  · exact .error trivial

/-- A thread that leaves the big cores by stalling or exiting may be replaced by another one. -/
theorem replaceBigThread_moved (hsize : s.numThreads ≤ s.info.size) :
    Ensures (replaceBigThread cfg clock s t)
      (fun b => ∃ l, (l = [] ∨ cfg.policy = .bigSmall ∧ s.threadIsBig t = true) ∧ Promotion s l ∧ Moved cfg l s b)
      fun _ => True := by
  rw [replaceBigThread]
  split_ifs with hbig
  · exact (pickBigThread_moved hsize).mono (fun b => Exists.imp fun l => And.intro (.inr hbig)) fun _ _ => trivial
  · exact .ok ⟨[], .inl rfl, .inl rfl, .refl s⟩

/-- A thread on the big cores that stalls is replaced, if possible, and goes back to the small cores. -/
theorem stallThread_moved (reason : StallType) (hsize : s.numThreads ≤ s.info.size) :
    Ensures (stallThread cfg clock time s t reason)
      (fun b => Moved cfg [] s b ∨ cfg.policy = .bigSmall ∧ s.threadIsBig t = true ∧
        ∃ l, Promotion ((s.setStalled t reason).setRunnable t false) l ∧ Moved cfg (l ++ [(t, false)]) s b)
      fun _ => True := by
  rw [stallThread]
  split_ifs with hcreated hreason hrun
  · exact .ok (.inl (.of_same rfl rfl rfl ⟨rfl, rfl, rfl⟩ rfl))
  · have hstalled : Moved cfg [] s ((s.setStalled t reason).setRunnable t false) :=
      .of_same rfl rfl rfl ⟨rfl, rfl, rfl⟩ rfl
    have hsize' : ((s.setStalled t reason).setRunnable t false).numThreads ≤
      ((s.setStalled t reason).setRunnable t false).info.size := hsize
    rw [threadStall]
    refine (replaceBigThread_moved hsize').bind fun a ha => ?_
    obtain ⟨l, hbig, hl, ha⟩ := ha
    have hreplaced := hstalled.trans ha
    rw [demote]
    split_ifs with hdemote
    · rw [moveToSmall]
      refine (moveTo_moved false (hreplaced.size.symm ▸ hcreated.trans_le hsize)).bind fun b hb => ?_
      refine (leaveCore_frame ..).mono (fun d hd => .inr ⟨hdemote.1, hdemote.2, l, hl, ?_⟩) fun _ _ => trivial
      have hmoved := (hreplaced.trans hb).trans (.of_frame hd)
      rw [List.nil_append, List.append_nil] at hmoved
      exact hmoved
    · refine (leaveCore_frame ..).mono (fun d hd => .inl ?_) fun _ _ => trivial
      rw [hbig.resolve_right hdemote] at hreplaced
      exact hreplaced.trans (.of_frame hd)
  · exact .error trivial
  · exact .error trivial

/-- The threads that wait for the exiting thread are woken, nothing else happens to affinities. -/
theorem beginExit_moved (cfg : Config) (time : ℕ) (s : Sim) (t core : ℕ) (wake : List ℕ) :
    Ensures (beginExit cfg time s t core wake) (Moved cfg [] s) fun _ => True := by
  rw [beginExit]
  refine Ensures.bind (Q := Moved cfg [] s) ?_ fun a ha => ?_
  · refine Ensures.foldlM (fun a u _ ha => ?_) (.of_same rfl rfl rfl ⟨rfl, rfl, rfl⟩ rfl)
    exact (wakeThread_moved cfg time a u).mono (fun b hb => ha.trans hb) fun _ _ => trivial
  · have hcore : Ensures (setCore (a.setState core .idle) t none) (Moved cfg [] s) fun _ => True :=
      (setCore_frame ..).mono (fun b hb => ha.trans (.of_frame ((frame_setState a core .idle).trans hb)))
        fun _ _ => trivial
    refine hcore.bind fun b hb => ?_
    split_ifs
    · exact .ok (hb.trans (.of_same rfl rfl rfl ⟨rfl, rfl, rfl⟩ rfl))
    · exact .error trivial

/-- An exit up to the point where the scheduler counts it. -/
theorem onThreadExit_moved {wake : List ℕ} {file : List (ℕ × ℕ × ℕ)} (hsize : s.numThreads ≤ s.info.size)
    (h : onThreadExit cfg clock time s t wake file = .ok b) : ∃ core a d l,
      beginExit cfg time s t core wake = .ok a ∧ (l = [] ∨ cfg.policy = .bigSmall ∧ s.threadIsBig t = true) ∧
      Promotion a l ∧ Moved cfg l s d ∧ countExit cfg time d file = .ok b := by
  rw [onThreadExit] at h
  split at h
  · split at h
    · cases h
    · rename_i core _
      split_ifs at h
      obtain ⟨a, ha, h⟩ := exists_of_bind_ok h
      rw [threadExit] at h
      obtain ⟨c, hc, h⟩ := exists_of_bind_ok h
      obtain ⟨d, hd, h⟩ := exists_of_bind_ok h
      have hbegun := (beginExit_moved cfg time s t core wake).of_ok ha
      have hsize' : a.numThreads ≤ a.info.size := by
        rw [hbegun.numThreads, hbegun.size]
        exact hsize
      obtain ⟨l, hbig, hl, hreplaced⟩ := (replaceBigThread_moved hsize').of_ok hc
      have hframe := (leaveCore_frame ..).of_ok hd
      refine ⟨core, a, d, l, ha, ?_, hl, ?_, h⟩
      · rwa [show a.threadIsBig t = s.threadIsBig t from congrArg Pin.big (hbegun.pins t)] at hbig
      · have hmoved := (hbegun.trans hreplaced).trans (.of_frame hframe)
        rwa [List.nil_append, List.append_nil] at hmoved
  · cases h

theorem setFrequency_moved (mhz : ℕ) (hsize : s.numThreads ≤ s.info.size) :
    Ensures (setFrequency cfg clock s core mhz)
      (fun b => Moved cfg [] s b ∨ cfg.policy = .bigSmall ∧ s.threadIsBig core = true ∧
        ∃ l, Promotion ((s.setStalled core .broken).setRunnable core false) l ∧
          Moved cfg (l ++ [(core, false)]) s b)
      fun _ => True := by
  rw [setFrequency]
  split_ifs
  · exact .ok (.inl (.refl s))
  · exact .ok (.inl (.refl s))
  · refine (stallThread_moved .broken hsize).bind fun a ha => .ok ?_
    have hbroken : Frame a (a.setState core .broken) := frame_setState ..
    refine ha.imp (fun ha => ha.trans (.of_frame hbroken)) fun hstalled => ?_
    obtain ⟨hpolicy, hbig, l, hl, ha⟩ := hstalled
    refine ⟨hpolicy, hbig, l, hl, ?_⟩
    have hmoved : Moved cfg (l ++ [(core, false)] ++ []) s (a.setState core .broken) := ha.trans (.of_frame hbroken)
    rwa [List.append_nil] at hmoved

theorem moveTo_runnable (cfg : Config) (clock : ℕ → ℕ) (big : Bool) (s : Sim) (t : ℕ) :
    Ensures (moveTo cfg clock big s t) (fun b => b.runnable = s.runnable) fun _ => True := by
  rw [moveTo]
  refine Ensures.bind (Q := fun b => b.runnable = s.runnable) ?_ fun b hb => .ok hb
  refine (threadSetAffinity_spec ..).mono (fun b hset => ?_) fun _ _ => trivial
  obtain ⟨a, ha, hb⟩ := hset
  rw [hb.runnable, ha.same]

theorem pickBigThread_runnable (cfg : Config) (clock : ℕ → ℕ) (s : Sim) :
    Ensures (pickBigThread cfg clock s) (fun b => b.runnable = s.runnable) fun _ => True := by
  rw [pickBigThread]
  split_ifs
  · split
    · exact .ok rfl
    · exact moveTo_runnable ..
  · exact .error trivial

/-! ### The reshuffle -/

/-- The threads among these that are on the big cores go back to the small ones. -/
def demoted (s : Sim) (threads : List ℕ) : List (ℕ × Bool) :=
  (threads.filter fun t => s.threadIsBig t).map fun t => (t, false)

/-- The loop over the threads on the big cores. -/
theorem demoteAll_moved (hsize : s.numThreads ≤ s.info.size) (n : ℕ) (hn : n ≤ s.numThreads) :
    Ensures ((List.range n).foldlM (fun s t => if s.threadIsBig t then moveToSmall cfg clock s t else .ok s) s)
      (fun b => Moved cfg (demoted s (List.range n)) s b ∧ b.runnable = s.runnable) fun _ => True := by
  induction n with
  | zero => exact .ok ⟨.refl s, rfl⟩
  | succ n ih =>
    rw [List.range_succ, List.foldlM_append]
    refine (ih (Nat.le_of_succ_le hn)).bind fun a ha => ?_
    obtain ⟨ha, hrun⟩ := ha
    have hflag : a.threadIsBig n = s.threadIsBig n := by
      have hpin := ha.pin_eq (t := n) fun m hm => ?_
      · exact congrArg Pin.big hpin
      · obtain ⟨u, hu, hm⟩ := List.mem_map.1 hm
        rw [← hm]
        exact (List.mem_range.1 (List.mem_filter.1 hu).1).ne
    have hsplit : demoted s (List.range n ++ [n]) =
        demoted s (List.range n) ++ if s.threadIsBig n then [(n, false)] else [] := by
      rw [demoted, demoted, List.filter_append, List.map_append]
      cases hbig : s.threadIsBig n <;> simp [hbig]
    rw [hsplit, List.foldlM_cons, hflag]
    split_ifs
    · have hlt : n < a.info.size := by
        rw [ha.size]
        omega
      refine ((moveTo_moved false hlt).and (moveTo_runnable cfg clock false a n)).bind fun b hb => ?_
      obtain ⟨hb, hrun'⟩ := hb
      exact .ok ⟨ha.trans hb, hrun'.trans hrun⟩
    · rw [List.append_nil]
      exact .ok ⟨ha, hrun⟩

/-- The loop that promotes threads, each of which is runnable. -/
theorem promoteAll_moved (hsize : s.numThreads ≤ s.info.size) (n : ℕ) :
    Ensures ((List.range n).foldlM (fun s _ => pickBigThread cfg clock s) s)
      (fun b => ∃ l, l.length ≤ n ∧
        (∀ m ∈ l, m.2 = true ∧ m.1 < s.numThreads ∧ s.runnable.get m.1 = true) ∧ Moved cfg l s b ∧
        b.runnable = s.runnable) fun _ => True := by
  induction n with
  | zero => exact .ok ⟨[], le_rfl, fun m hm => absurd hm List.not_mem_nil, .refl s, rfl⟩
  | succ n ih =>
    rw [List.range_succ, List.foldlM_append]
    refine ih.bind fun a ha => ?_
    obtain ⟨l, hlen, hl, ha, hrun⟩ := ha
    have hsize' : a.numThreads ≤ a.info.size := by
      rw [ha.numThreads, ha.size]
      exact hsize
    rw [List.foldlM_cons]
    refine ((pickBigThread_moved hsize').and (pickBigThread_runnable cfg clock a)).bind fun b hb => .ok ?_
    obtain ⟨⟨l', hl', hb⟩, hrun'⟩ := hb
    have hone : l'.length ≤ 1 ∧ ∀ m ∈ l', m.2 = true ∧ m.1 < s.numThreads ∧ s.runnable.get m.1 = true := by
      rcases hl' with rfl | ⟨t, ht, rfl⟩
      · exact ⟨Nat.zero_le 1, fun m hm => absurd hm List.not_mem_nil⟩
      · refine ⟨le_rfl, fun m hm => ?_⟩
        obtain ⟨hcreated, hfree⟩ := List.mem_filter.1 ht
        rw [List.mem_singleton.1 hm]
        rw [ha.numThreads, List.mem_range] at hcreated
        rw [Bool.and_eq_true, hrun] at hfree
        exact ⟨rfl, hcreated, hfree.2⟩
    refine ⟨l ++ l', ?_, fun m hm => ?_, ha.trans hb, hrun'.trans hrun⟩
    · rw [List.length_append]
      omega
    · exact (List.mem_append.1 hm).elim (hl m) (hone.2 m)

/-- All threads on the big cores leave them, and no more are promoted than there are big cores. -/
theorem reshuffle_moved (hsize : s.numThreads ≤ s.info.size) :
    Ensures (reshuffle cfg clock time s)
      (fun b => b.runnable = s.runnable ∧ (b = s ∨
        (cfg.policy = .bigSmall ∧ s.lastReshuffle + cfg.quantum < time) ∧ ∃ l, l.length ≤ (coresOf cfg true).length ∧
          (∀ m ∈ l, m.2 = true ∧ m.1 < s.numThreads ∧ s.runnable.get m.1 = true) ∧
          Moved cfg (demoted s (List.range s.numThreads) ++ l) s b))
      fun _ => True := by
  rw [reshuffle]
  split_ifs with hdue
  · refine (demoteAll_moved hsize _ le_rfl).bind fun a ha => ?_
    obtain ⟨ha, hrun⟩ := ha
    have hsize' : a.numThreads ≤ a.info.size := by
      rw [ha.numThreads, ha.size]
      exact hsize
    refine (promoteAll_moved hsize' _).bind fun b hpromoted => .ok ?_
    obtain ⟨l, hlen, hl, hb, hrun'⟩ := hpromoted
    refine ⟨hrun'.trans hrun, .inr ⟨hdue, l, ?_⟩⟩
    rw [ha.numThreads, hrun] at hl
    refine ⟨hlen.trans (Nat.min_le_left ..), hl, ?_⟩
    have hlast : Moved cfg [] b { b with lastReshuffle := time } := .of_same rfl rfl rfl ⟨rfl, rfl, rfl⟩ rfl
    have hmoved := (ha.trans hb).trans hlast
    rwa [List.append_nil] at hmoved
  · exact .ok ⟨rfl, .inl rfl⟩

/-! ### New threads -/

/-- The state in which a new thread gets its first affinity. -/
def newThread (s : Sim) (app : ℕ) : Sim :=
  growInfo (({ s with
    numThreads := s.numThreads + 1
    appId := Function.update s.appId s.numThreads app }).setStatus s.numThreads .initializing) s.numThreads

/-- Only the number of threads, its application and its status are new, besides the entries. -/
theorem newThread_same (s : Sim) (app : ℕ) :
    (newThread s app).numThreads = s.numThreads + 1 ∧ (newThread s app).threadsOnCore = s.threadsOnCore ∧
      (newThread s app).threadIsBig = s.threadIsBig := by
  rw [newThread, growInfo]
  split_ifs
  · exact ⟨rfl, rfl, rfl⟩
  · exact ⟨rfl, rfl, rfl⟩

/-- The entries that are in use stay, the new ones are fresh. -/
theorem newThread_info (s : Sim) (app t : ℕ) :
    (newThread s app).info.get t = s.info.get t ∨ s.info.size ≤ t ∧ (newThread s app).info.get t = .fresh := by
  rw [newThread, growInfo]
  split_ifs
  · by_cases ht : t < s.info.size
    · exact .inl (if_pos ht)
    · exact .inr ⟨Nat.le_of_not_lt ht, if_neg ht⟩
  · exact .inl rfl

/-- The entry of a new thread gets its affinity, unless the thread waits for its hyper-period. Then the thread may be put
on a core. -/
theorem createThread_cases {app : ℕ} (h : createThread cfg clock s app = .ok b) :
    s.numThreads < (newThread s app).info.size ∧ ∃ a, Frame a b ∧
      (ensureAffinity cfg clock (newThread s app) s.numThreads = .ok a ∨
        cfg.periodicWorkload = true ∧ holdBack cfg (newThread s app) s.numThreads = .ok a) := by
  rw [createThread] at h
  obtain ⟨⟨c, core⟩, hcreate, h⟩ := exists_of_bind_ok h
  have hentered : Frame c b := by
    dsimp only at h
    cases core with
    | none => exact Except.ok.inj h ▸ .refl c
    | some core =>
      obtain ⟨d, hd, h⟩ := exists_of_bind_ok h
      exact Except.ok.inj h ▸ ((setCore_frame ..).of_ok hd).trans (frame_setState ..)
  rw [threadCreate] at hcreate
  change (if s.numThreads < (newThread s app).info.size then _ else _) = _ at hcreate
  split_ifs at hcreate with hsize hheld
  · obtain ⟨a, ha, hcreate⟩ := exists_of_bind_ok hcreate
    obtain rfl := congrArg Prod.fst (Except.ok.inj hcreate)
    exact ⟨hsize, a, (frame_setCoreRunning ..).trans hentered, .inr ⟨hheld.1, ha⟩⟩
  · obtain ⟨a, ha, hcreate⟩ := exists_of_bind_ok hcreate
    obtain rfl := congrArg Prod.fst (Except.ok.inj hcreate)
    exact ⟨hsize, a, (takeFreeCore_frame ..).trans hentered, .inl ha⟩

end LifeSim.Sched
