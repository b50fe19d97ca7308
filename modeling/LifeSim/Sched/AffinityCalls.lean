import LifeSim.Sched.Pins
import LifeSim.Sched.MappingTable
import LifeSim.Sched.HyperPeriod

/-!
# `sched_setaffinity` and `sched_getaffinity`

The two system calls look up the thread they are about by the number the traced operating system gave it.
`sched_setaffinity` hands the thread it found to the scheduler. `sched_getaffinity` finds the thread too, but asks the
scheduler about the caller, so it is right about another thread only if the two masks are equal.
-/

namespace LifeSim.Sched

open LifeSim.Lib

variable {cfg : Config} {s s' a b : Sim} {t u core time : ℕ} {clock : ℕ → ℕ}

/-- The scheduler, with `m_os_info.tid` of every thread. -/
structure Kernel where
  sim : Sim
  tid : ℕ → ℤ

/-- `ThreadManager::findThreadByTid`. -/
def findThreadByTid (k : Kernel) (tid : ℤ) : Option ℕ :=
  (List.range k.sim.numThreads).find? fun t => k.tid t = tid

/-- The thread a system call is about; zero stands for the calling thread. -/
def targetThread (k : Kernel) (caller : ℕ) (pid : ℤ) : Option ℕ :=
  if pid = 0 then some caller else findThreadByTid k pid

/-- A `cpu_set_t` of the program, with its size in bytes. -/
structure CpuSet where
  size : ℕ
  isSet : ℕ → Bool

/-- The cores in a set, in the order in which the loop of `threadSetAffinity` meets them. -/
def CpuSet.cores (m : CpuSet) : List ℕ := (List.range (8 * m.size)).filter m.isSet

/-- `SYS_sched_setaffinity` for a pointer that may be null, and the error it returns. The loop over the bits counts with
32 bits, so a larger set keeps it going for ever. -/
def schedSetAffinity (cfg : Config) (clock : ℕ → ℕ) (k : Kernel) (caller : ℕ) (pid : ℤ) :
    Option CpuSet → Except Fault (Kernel × ℤ)
  | none => .ok (k, -14)
  | some cpuset =>
    match targetThread k caller pid with
    | none => .ok (k, -3)
    | some t =>
      if 2 ^ 32 ≤ 8 * cpuset.size then .error .diverges
      else do
        let sim ← threadSetAffinity cfg clock k.sim (some caller) t (some cpuset.cores)
        .ok ({ k with sim := sim }, 0)

/-- The memory a program offers for a mask; its size in bits fits in 64 bits. -/
structure Buffer where
  size : ℕ
  isNull : Bool
  fits : size * 8 < 2 ^ 64

/-- What `SYS_sched_getaffinity` comes to. -/
inductive Reply
  | einval
  /-- The size of a mask in bytes is returned, and a mask is written to the program's memory. -/
  | mask (bytes : ℕ) (cores : List ℕ)
  /-- The mask is written through a null pointer. -/
  | crash
  deriving DecidableEq, Repr

/-- `threadGetAffinity` counts a core as the thread's. As long as the application has set no mask, all of them are. -/
def reported (s : Sim) (t core : ℕ) : Bool := (s.info.get t).affinity core || !(s.info.get t).explicitAffinity

/-- The mask that `threadGetAffinity` reads off a thread. -/
def readBack (cfg : Config) (s : Sim) (t : ℕ) : List ℕ := (List.range cfg.numCores).filter (reported s t)

/-- `SchedulerPinnedBase::threadGetAffinity`. -/
def threadGetAffinity (cfg : Config) (s : Sim) (t size : ℕ) : Option (List ℕ) :=
  if size * 8 < cfg.numCores then none else some (readBack cfg s t)

/-- The second half of `SYS_sched_getaffinity`, for the thread that the scheduler is asked about. -/
def reply (cfg : Config) (s : Sim) (t : ℕ) (buffer : Buffer) : Reply :=
  match threadGetAffinity cfg s t buffer.size with
  | none => .einval
  | some cores => if buffer.isNull then .crash else .mask ((cfg.numCores + 7) / 8) cores

/-- `SYS_sched_getaffinity`: the thread is looked up, and the scheduler is asked about the caller. -/
def schedGetAffinity (cfg : Config) (k : Kernel) (caller : ℕ) (pid : ℤ) (buffer : Buffer) : Reply :=
  match targetThread k caller pid with
  | none => .einval
  | some _ => reply cfg k.sim caller buffer

/-- What happens to a kernel. -/
inductive Request
  | event (call : Call)
  /-- `EmuTypeSetThreadInfo`. -/
  | setThreadInfo (t : ℕ) (tid : ℤ)
  | setAffinity (caller : ℕ) (pid : ℤ) (cpuset : Option CpuSet) (clock : ℕ → ℕ)

def Kernel.step (cfg : Config) (k : Kernel) : Request → Except Fault Kernel
  | .event call => do
    let sim ← Sched.step cfg k.sim call
    .ok { k with sim := sim }
  | .setThreadInfo t tid => .ok { k with tid := Function.update k.tid t tid }
  | .setAffinity caller pid cpuset clock => do
    let (k, _) ← schedSetAffinity cfg clock k caller pid cpuset
    .ok k

/-- The kernel as a machine over its requests. -/
def kernelMachine (cfg : Config) : Machine Kernel Request Fault := ⟨Kernel.step cfg⟩

/-- The kernel at the start of a simulation. -/
def Kernel.initial (map : ℕ → ℕ → Option ℕ) : Kernel := ⟨Sched.initial map, fun _ => 0⟩

/-! ### Which steps set an affinity -/

/-- The thread has changed sides between the big and the small cores. -/
def reclassified (s s' : Sim) (t : ℕ) : Prop := s'.threadIsBig t ≠ s.threadIsBig t

/-- A step sets the affinity of a thread on behalf of the application or by a policy: the first core of a new thread
under `SchedulerPinned` alone is not counted. -/
def assigns (cfg : Config) (s : Sim) (e : FineStep) (s' : Sim) (t : ℕ) : Prop :=
  match e with
  | .event call _ =>
    match call.event with
    | .create _ => cfg.policy = .bigSmall ∧ t = s.numThreads
    | .setAffinity _ u _ => t = u
    | .stall _ _ => reclassified s s' t
    | .exit _ _ _ => reclassified s s' t ∨
        changesPeriod cfg s ∧ ∃ w ∈ waitingThreads cfg (s.hyperPeriodNumber + 1) s, w.thread = t
    | .start _ | .resume _ | .yield _ | .periodic _ _ | .setFrequency _ _ => False
  | .reshuffle _ time => cfg.policy = .bigSmall ∧ s.lastReshuffle + cfg.quantum < time ∧
      (s.threadIsBig t = true ∨ s'.threadIsBig t = true)
  | .changeMapping _ moves => ∃ lines, moves = some lines ∧ ∃ move ∈ lines, t ∈ s.threadsOnCore move.1
  | .setFrequency _ _ _ => reclassified s s' t
  | .intervened _ | .quanta _ => False

/-- One of these steps sets the affinity of the thread. -/
def assignsWithin (cfg : Config) (s : Sim) (steps : List FineStep) (t : ℕ) : Prop :=
  ∃ before e after a b, steps = before ++ e :: after ∧ (fineMachine cfg).run s before = .ok a ∧
    fineStep cfg a e = .ok b ∧ assigns cfg a e b t

/-- A request sets the affinity of a thread: the system call for that thread, or one of the steps of an event. -/
def Request.assigns (cfg : Config) (k : Kernel) (t : ℕ) : Request → Prop
  | .event call => assignsWithin cfg k.sim (fineSteps cfg k.sim call) t
  | .setThreadInfo _ _ => False
  | .setAffinity caller pid cpuset _ => cpuset.isSome = true ∧ targetThread k caller pid = some t

/-! ### Steps that leave a thread alone -/

/-- The tables stay as long as they were, and under a condition the affinity of a thread stays what it was. -/
structure PinKept (P : Prop) (t : ℕ) (s s' : Sim) : Prop where
  size : s'.info.size = s.info.size
  numThreads : s'.numThreads = s.numThreads
  pin : P → s'.pin t = s.pin t

namespace PinKept

variable {P : Prop} {l : List (ℕ × Bool)}

theorem trans (h : PinKept P t s a) (h' : PinKept P t a b) : PinKept P t s b :=
  ⟨h'.size.trans h.size, h'.numThreads.trans h.numThreads, fun hp => (h'.pin hp).trans (h.pin hp)⟩

theorem of_moved (h : Moved cfg l s s') (ht : P → ∀ m ∈ l, m.1 ≠ t) : PinKept P t s s' :=
  ⟨h.size, h.numThreads, fun hp => h.pin_eq (ht hp)⟩

theorem of_still (h : Moved cfg [] s s') : PinKept P t s s' := of_moved h fun _ _ hm => absurd hm List.not_mem_nil

theorem of_frame (h : Frame s s') : PinKept P t s s' := ⟨h.info_size, h.numThreads, fun _ => congrFun h.pin t⟩

/-- The entry of another thread changes. -/
theorem modifyInfo (hu : P → u ≠ t) (f : ThreadInfo → ThreadInfo) : PinKept P t s (s.modifyInfo u f) := by
  refine ⟨rfl, rfl, fun hp => ?_⟩
  rw [Sim.pin, Sim.modifyInfo, Table.get_set, if_neg (hu hp).symm]
  rfl

end PinKept

/-- A stall of a thread on the big cores touches it and the thread promoted in its place. -/
theorem stalled_pinKept {reason : StallType}
    (h : Moved cfg [] s b ∨ cfg.policy = .bigSmall ∧ s.threadIsBig u = true ∧
      ∃ l, Promotion ((s.setStalled u reason).setRunnable u false) l ∧ Moved cfg (l ++ [(u, false)]) s b) :
    PinKept (¬ reclassified s b t) t s b := by
  rcases h with h | ⟨-, hbig, l, hl, h⟩
  · exact .of_still h
  · refine .of_moved h fun hsame m hm hmt => hsame ?_
    have hpin := congrArg Pin.big (h.pins t)
    change b.threadIsBig t ≠ s.threadIsBig t
    change b.threadIsBig t = _ at hpin
    rw [hpin, Pin.after_append]
    change (if u = t then Pin.ofClass cfg false else (s.pin t).after cfg t l).big ≠ s.threadIsBig t
    by_cases hut : u = t
    · rw [if_pos hut, ← hut, hbig]
      exact Bool.false_ne_true
    · rw [if_neg hut]
      rcases hl with rfl | ⟨v, hv, rfl⟩
      · rw [List.nil_append, List.mem_singleton] at hm
        rw [hm] at hmt
        exact absurd hmt hut
      · rw [List.mem_append, List.mem_singleton, List.mem_singleton] at hm
        have hvt : v = t := by
          rcases hm with rfl | rfl
          · exact hmt
          · exact absurd hmt hut
        have hfree : s.threadIsBig v = false := by
          have := (List.mem_filter.1 hv).2
          rw [Bool.and_eq_true, Bool.not_eq_true'] at this
          exact this.1
        rw [hvt] at hfree
        rw [hfree]
        change (if v = t then Pin.ofClass cfg true else s.pin t).big ≠ false
        rw [if_pos hvt]
        exact Bool.true_eq_false_eq_False

/-- Placing another thread. -/
theorem placeThread_pinKept (cfg : Config) (time : ℕ) (s : Sim) (w : Waiting) :
    Ensures (placeThread cfg time s w) (PinKept (w.thread ≠ t) t s) fun _ => True := by
  rw [placeThread]
  split
  · have hann : PinKept (w.thread ≠ t) t s (announced cfg time s w) := by
      refine ⟨rfl, rfl, fun hne => ?_⟩
      rw [Sim.pin, announced_info_of_ne cfg time s w hne.symm]
      rfl
    split
    · refine Ensures.bind (Q := PinKept (w.thread ≠ t) t s) ?_ fun a ha => .ok ?_
      · exact (moveThread_moved ..).mono (fun b hb => hann.trans (.of_still hb)) fun _ _ => trivial
      · split_ifs
        · exact ha.trans ⟨rfl, rfl, fun _ => rfl⟩
        · exact ha
    · exact .error trivial
  · exact .error trivial

/-- Counting an exit places the waiting threads, if it is the last of its hyper-period. -/
theorem countExit_pinKept (cfg : Config) (time : ℕ) (s : Sim) (file : List (ℕ × ℕ × ℕ)) :
    Ensures (countExit cfg time s file)
      (PinKept (changesPeriod cfg s → ∀ w ∈ waitingThreads cfg (s.hyperPeriodNumber + 1) s, w.thread ≠ t) t s)
      fun _ => True := by
  rw [countExit]
  split_ifs with hper
  · dsimp only
    split_ifs with hends
    · refine Ensures.foldlM (fun a w hw ha => ?_) ⟨rfl, rfl, fun _ => rfl⟩
      refine (placeThread_pinKept (t := t) cfg time a w).mono (fun b hb => ?_) fun _ _ => trivial
      exact ha.trans ⟨hb.size, hb.numThreads, fun hne => hb.pin (hne ⟨hper, hends⟩ w hw)⟩
    · exact .ok ⟨rfl, rfl, fun _ => rfl⟩
  · exact .ok ⟨rfl, rfl, fun _ => rfl⟩

theorem migrateThread_pinKept (cfg : Config) (clock : ℕ → ℕ) (dest : ℕ) (s : Sim) (u : ℕ) :
    Ensures (migrateThread cfg clock dest s u) (PinKept (u ≠ t) t s) fun _ => True := by
  rw [migrateThread]
  split
  · split
    · dsimp only
      generalize ha : s.modifyInfo u _ = a
      have hpinned : PinKept (u ≠ t) t s a := ha ▸ .modifyInfo id _
      split
      · exact .ok hpinned
      · exact (applyAffinity_frame ..).mono (fun b hb => hpinned.trans (.of_frame hb)) fun _ _ => trivial
    · exact .error trivial
  · exact .error trivial

/-- The mapping moves the threads in the lists of the cores it names. -/
theorem changeMapping_pinKept (cfg : Config) (clock : ℕ → ℕ) (s : Sim) (moves : Option (List (ℕ × ℕ))) :
    Ensures (changeMapping cfg clock s moves)
      (PinKept (∀ lines, moves = some lines → ∀ move ∈ lines, t ∉ s.threadsOnCore move.1) t s) fun _ => True := by
  refine changeMapping_keeps ⟨rfl, rfl, fun _ => rfl⟩ (fun a lists ha => ha.trans ⟨rfl, rfl, fun _ => rfl⟩) trivial
    fun lines hlines move hmove u hu a ha => ?_
  refine (migrateThread_pinKept (t := t) cfg clock move.2 a u).mono (fun b hb => ?_) fun _ _ => trivial
  refine ha.trans ⟨hb.size, hb.numThreads, fun hnot => hb.pin fun hut => ?_⟩
  exact hnot lines hlines move hmove (hut ▸ hu)

/-- A thread that was not on the big cores and is not now has been left alone by the reshuffle. -/
theorem reshuffle_pinKept (hsize : s.numThreads ≤ s.info.size) :
    Ensures (reshuffle cfg clock time s)
      (fun b => PinKept (¬ (cfg.policy = .bigSmall ∧ s.lastReshuffle + cfg.quantum < time ∧
        (s.threadIsBig t = true ∨ b.threadIsBig t = true))) t s b) fun _ => True := by
  refine (reshuffle_moved hsize).mono (fun b ⟨_, hb⟩ => ?_) fun _ _ => trivial
  rcases hb with rfl | ⟨hdue, l, -, hl, hb⟩
  · exact ⟨rfl, rfl, fun _ => rfl⟩
  · refine .of_moved hb fun hnot m hm hmt => hnot ⟨hdue.1, hdue.2, ?_⟩
    by_cases hpromoted : ∃ m ∈ l, m.1 = t
    · -- the demotions come first, so the thread ends up on the big cores
      have hflag := congrArg Pin.big (hb.pins t)
      rw [Pin.after_append] at hflag
      change b.threadIsBig t = _ at hflag
      have hlast : (∀ m ∈ l, m.1 ≠ t) ∨ ∃ big, (t, big) ∈ l ∧
          ((s.pin t).after cfg t (demoted s (List.range s.numThreads))).after cfg t l = .ofClass cfg big :=
        Pin.after_class _
      rcases hlast with hne | ⟨big, hmem, heq⟩
      · obtain ⟨m, hm, hmt⟩ := hpromoted
        exact absurd hmt (hne m hm)
      · rw [hflag, heq]
        exact .inr (hl _ hmem).1
    · refine .inl ?_
      rcases List.mem_append.1 hm with hm | hm
      · obtain ⟨u, hu, rfl⟩ := List.mem_map.1 hm
        exact hmt ▸ (List.mem_filter.1 hu).2
      · exact absurd ⟨m, hm, hmt⟩ hpromoted

theorem threadSetInitialAffinity_pinKept (ht : u < s.info.size) :
    Ensures (threadSetInitialAffinity cfg clock s u)
      (fun b => PinKept (u ≠ t) t s b ∧ (cfg.policy = .pinned → (b.pin u).explicit = (s.pin u).explicit))
      fun _ => True := by
  have hsingle (b : Sim) (core : ℕ) (hinfo : b.info = s.info.set u ((s.info.get u).setAffinitySingle core))
      (hnum : b.numThreads = s.numThreads) (hbig : b.threadIsBig = s.threadIsBig) :
      PinKept (u ≠ t) t s b ∧ (cfg.policy = .pinned → (b.pin u).explicit = (s.pin u).explicit) := by
    refine ⟨⟨by rw [hinfo, Table.size_set], hnum, fun hne => ?_⟩, fun _ => ?_⟩
    · rw [Sim.pin, Sim.pin, hinfo, hbig, Table.get_set, if_neg hne.symm]
    · change (b.info.get u).explicitAffinity = (s.info.get u).explicitAffinity
      rw [hinfo, Table.get_set, if_pos rfl]
      rfl
  rw [threadSetInitialAffinity]
  split
  · rename_i hpolicy
    refine (moveTo_moved false ht).mono (fun b hb => ⟨.of_moved hb fun hne m hm => ?_, fun hpinned => ?_⟩)
      fun _ _ => trivial
    · rw [List.mem_singleton.1 hm]
      exact hne
    · rw [hpolicy] at hpinned
      cases hpinned
  · split_ifs
    · unfold setMappedAffinity
      dsimp only
      split
      · exact .ok (hsingle _ _ rfl rfl rfl)
      · exact .error trivial
    · rw [setRoundRobinAffinity]
      refine ((searchFreeCore_faults ..).mono (fun _ h => h) fun _ _ => trivial).bind fun core _ => ?_
      refine ((getNextCore_faults ..).mono (fun _ h => h) fun _ _ => trivial).bind fun next _ => ?_
      exact .ok (hsingle _ core rfl rfl rfl)

/-- The entries that are in use keep what they record, and no affinity becomes explicit. -/
theorem newThread_pin (s : Sim) (app u : ℕ) :
    (u < s.info.size → (newThread s app).pin u = s.pin u) ∧
      ((s.pin u).explicit = false → ((newThread s app).pin u).explicit = false) := by
  rcases newThread_info s app u with hsame | ⟨hle, hfresh⟩
  · have hpin : (newThread s app).pin u = s.pin u := by rw [Sim.pin, Sim.pin, hsame, (newThread_same s app).2.2]
    exact ⟨fun _ => hpin, fun hexplicit => hpin.symm ▸ hexplicit⟩
  · refine ⟨fun hlt => absurd hlt (Nat.not_lt.2 hle), fun _ => ?_⟩
    rw [Sim.pin, hfresh]
    rfl

/-- A new thread leaves the others alone; under `SchedulerPinned` its own affinity is not an explicit one. -/
theorem createThread_pinKept {app : ℕ} (hsize : s.numThreads ≤ s.info.size)
    (h : createThread cfg clock s app = .ok b) :
    b.numThreads = s.numThreads + 1 ∧ b.numThreads ≤ b.info.size ∧
      (t < s.numThreads → b.pin t = s.pin t) ∧
      (¬ (cfg.policy = .bigSmall ∧ t = s.numThreads) → (s.pin t).explicit = false → (b.pin t).explicit = false) := by
  obtain ⟨hnew, a, hframe, hfirst⟩ := createThread_cases h
  obtain ⟨hused, hexplicit⟩ := newThread_pin s app t
  have hnum := (newThread_same s app).1
  have hkept : PinKept (s.numThreads ≠ t) t (newThread s app) a ∧
      (cfg.policy = .pinned → (a.pin s.numThreads).explicit = ((newThread s app).pin s.numThreads).explicit) := by
    rcases hfirst with hfirst | ⟨-, hheld⟩
    · rw [ensureAffinity] at hfirst
      split_ifs at hfirst
      · exact Except.ok.inj hfirst ▸ ⟨⟨rfl, rfl, fun _ => rfl⟩, fun _ => rfl⟩
      · exact (threadSetInitialAffinity_pinKept hnew).of_ok hfirst
    · rw [holdBack] at hheld
      split_ifs at hheld
      exact Except.ok.inj hheld ▸ ⟨⟨rfl, rfl, fun _ => rfl⟩, fun _ => rfl⟩
  have hpin : b.pin t = a.pin t := congrFun hframe.pin t
  have hcount : b.numThreads = s.numThreads + 1 := hframe.numThreads.trans (hkept.1.numThreads.trans hnum)
  refine ⟨hcount, ?_, fun ht => ?_, fun hno hfresh => ?_⟩
  · rw [hcount, hframe.info_size, hkept.1.size]
    exact hnew
  · rw [hpin, hkept.1.pin ht.ne', hused (ht.trans_le hsize)]
  · rw [hpin]
    by_cases ht : t = s.numThreads
    · cases hpolicy : cfg.policy with
      | pinned => rw [ht, hkept.2 hpolicy, ← ht, hexplicit hfresh]
      | bigSmall => exact absurd ⟨hpolicy, ht⟩ hno
    · rw [hkept.1.pin (Ne.symm ht), hexplicit hfresh]

/-- What a step that does not set the affinity of a thread leaves as it was. -/
structure LeavesAlone (t : ℕ) (s s' : Sim) : Prop where
  pin : t < s.numThreads → s'.pin t = s.pin t
  explicit : (s.pin t).explicit = false → (s'.pin t).explicit = false

/-- The number of threads grows and `m_thread_info` has an entry for each; only a step that sets the affinity of a
thread changes what is recorded for it. -/
structure MasksKept (t : ℕ) (P : Prop) (s s' : Sim) : Prop where
  numThreads : s.numThreads ≤ s'.numThreads
  size : s'.numThreads ≤ s'.info.size
  alone : ¬ P → LeavesAlone t s s'

theorem PinKept.masksKept {P Q : Prop} (h : PinKept P t s s') (hsize : s.numThreads ≤ s.info.size) (hP : ¬ Q → P) :
    MasksKept t Q s s' where
  numThreads := h.numThreads.ge
  size := by
    rw [h.numThreads, h.size]
    exact hsize
  alone hq := ⟨fun _ => h.pin (hP hq), fun hfresh => by rw [h.pin (hP hq)]; exact hfresh⟩

/-- The threads promoted at an exit change sides, the threads placed at the end of a hyper-period are waiting. -/
theorem onThreadExit_pinKept {wake : List ℕ} {file : List (ℕ × ℕ × ℕ)} (hsize : s.numThreads ≤ s.info.size)
    (h : onThreadExit cfg clock time s u wake file = .ok b) :
    PinKept (¬ (reclassified s b t ∨
      changesPeriod cfg s ∧ ∃ w ∈ waitingThreads cfg (s.hyperPeriodNumber + 1) s, w.thread = t)) t s b := by
  obtain ⟨core, a, d, l, hbegun, -, hl, hmoved, hcount⟩ := onThreadExit_moved hsize h
  have hbegun := (beginExit_moved cfg time s u core wake).of_ok hbegun
  have hplaced := (countExit_pinKept (t := t) cfg time d file).of_ok hcount
  rw [hmoved.period.number, waitingThreads_congr hmoved.period.apps, changesPeriod, hyperPeriodEnds] at hplaced
  simp only [hmoved.period.exited, hmoved.period.number] at hplaced
  refine ⟨hplaced.size.trans hmoved.size, hplaced.numThreads.trans hmoved.numThreads, fun hno => ?_⟩
  rw [not_or] at hno
  have hcounted : b.pin t = d.pin t := hplaced.pin fun hchange w hw hwt => hno.2 ⟨hchange, w, hw, hwt⟩
  rw [hcounted]
  refine hmoved.pin_eq fun m hm hmt => hno.1 ?_
  rcases hl with rfl | ⟨v, hv, rfl⟩
  · exact absurd hm List.not_mem_nil
  · rw [List.mem_singleton] at hm
    have hvt : v = t := by
      rw [hm] at hmt
      exact hmt
    have hfree : s.threadIsBig t = false := by
      have hv := (List.mem_filter.1 hv).2
      rw [Bool.and_eq_true, Bool.not_eq_true', hvt] at hv
      exact (congrArg Pin.big (hbegun.pins t)).symm.trans hv.1
    have hflag : b.threadIsBig t = true := by
      change (b.pin t).big = true
      rw [hcounted, hmoved.pins, hvt]
      change (if t = t then Pin.ofClass cfg true else s.pin t).big = true
      rw [if_pos rfl]
      rfl
    rw [reclassified, hflag, hfree]
    exact Bool.true_eq_false_eq_False

theorem Pinned.masksKept {mask : Option (List ℕ)} (h : Pinned cfg u mask s s') (hsize : s.numThreads ≤ s.info.size) :
    MasksKept t (t = u) s s' where
  numThreads := h.numThreads.ge
  size := by
    rw [h.numThreads, h.size, grownInfo]
    split_ifs with hle
    · exact (hsize.trans hle).trans (Nat.le_add_right u 16)
    · exact hsize
  alone hne := ⟨fun ht => h.pin_eq hne (.inl (ht.trans_le hsize)), h.explicit hne⟩

theorem fineStep_masksKept {e : FineStep} (hsize : s.numThreads ≤ s.info.size) (h : fineStep cfg s e = .ok s') :
    MasksKept t (assigns cfg s e s' t) s s' := by
  cases e with
  | event call hplain =>
    obtain ⟨event, time, clock⟩ := call
    cases event with
    | create app =>
      obtain ⟨hnum, hbound, hpin, hexplicit⟩ := createThread_pinKept (t := t) hsize h
      exact ⟨hnum ▸ Nat.le_succ _, hbound, fun hno => ⟨hpin, hexplicit hno⟩⟩
    | start u => exact (PinKept.of_still (P := True) ((onThreadStart_moved cfg time s u).of_ok h)).masksKept hsize fun _ => trivial
    | stall u reason => exact (stalled_pinKept ((stallThread_moved reason hsize).of_ok h)).masksKept hsize id
    | resume u => exact (PinKept.of_still (P := True) ((wakeThread_moved cfg time s u).of_ok h)).masksKept hsize fun _ => trivial
    | exit u wake file => exact (onThreadExit_pinKept hsize h).masksKept hsize id
    | yield u =>
      change (if u < s.numThreads then threadYield cfg clock s u else .error .noThread) = .ok s' at h
      split_ifs at h
      exact (PinKept.of_frame (P := True) ((threadYield_frame ..).of_ok h)).masksKept hsize fun _ => trivial
    | setAffinity calling u mask => exact ((threadSetAffinity_pinned ..).of_ok h).masksKept hsize
    | periodic moves dvfs => cases hplain
    | setFrequency core mhz => cases hplain
  | reshuffle clock time => exact ((reshuffle_pinKept hsize).of_ok h).masksKept hsize id
  | changeMapping clock moves =>
    refine ((changeMapping_pinKept cfg clock s moves).of_ok h).masksKept hsize fun hno lines hlines move hmove ht => ?_
    exact hno ⟨lines, hlines, move, hmove, ht⟩
  | setFrequency clock core value =>
    exact (stalled_pinKept ((setFrequency_moved _ hsize).of_ok h)).masksKept hsize id
  | intervened time =>
    have hsame : s' = { s with lastPeriodicInterval := time } := (Except.ok.inj h).symm
    rw [hsame]
    exact PinKept.masksKept (P := True) ⟨rfl, rfl, fun _ => rfl⟩ hsize fun _ => trivial
  | quanta time =>
    obtain ⟨a, ha, h⟩ := exists_of_bind_ok h
    have hframe : Frame s a := by
      refine Ensures.of_ok (F := fun _ => True) (Ensures.foldlM (fun a core _ ha => ?_) (.refl s)) ha
      exact (periodicCore_frame ..).mono (fun b hb => ha.trans hb) fun _ _ => trivial
    have hkept : PinKept True t s s' := Except.ok.inj h ▸ (PinKept.of_frame hframe).trans ⟨rfl, rfl, fun _ => rfl⟩
    exact hkept.masksKept hsize fun _ => trivial

/-! ### Runs -/

theorem MasksKept.trans {P Q : Prop} (h : MasksKept t P s a) (h' : MasksKept t Q a b) : MasksKept t (P ∨ Q) s b where
  numThreads := h.numThreads.trans h'.numThreads
  size := h'.size
  alone hno := by
    rw [not_or] at hno
    refine ⟨fun ht => ?_, fun hfresh => (h'.alone hno.2).explicit ((h.alone hno.1).explicit hfresh)⟩
    rw [(h'.alone hno.2).pin (ht.trans_le h.numThreads), (h.alone hno.1).pin ht]

theorem MasksKept.mono {P Q : Prop} (h : MasksKept t P s a) (hPQ : P → Q) : MasksKept t Q s a :=
  ⟨h.numThreads, h.size, fun hno => h.alone fun hp => hno (hPQ hp)⟩

theorem MasksKept.refl {P : Prop} (hsize : s.numThreads ≤ s.info.size) : MasksKept t P s s :=
  ⟨le_rfl, hsize, fun _ => ⟨fun _ => rfl, id⟩⟩

theorem fineRun_masksKept {steps : List FineStep} (hsize : s.numThreads ≤ s.info.size)
    (h : (fineMachine cfg).run s steps = .ok s') : MasksKept t (assignsWithin cfg s steps t) s s' := by
  induction steps generalizing s with
  | nil =>
    cases h
    exact .refl hsize
  | cons e steps ih =>
    obtain ⟨a, ha, hrest⟩ := (fineMachine cfg).run_cons_ok h
    have hfirst := fineStep_masksKept (t := t) hsize ha
    refine (hfirst.trans (ih hfirst.size hrest)).mono fun hassigns => ?_
    rcases hassigns with hnow | ⟨before, f, after, b, c, hsteps, hrun, hstep, hlater⟩
    · exact ⟨[], e, steps, s, a, rfl, rfl, ha, hnow⟩
    · refine ⟨e :: before, f, after, b, c, by rw [hsteps, List.cons_append], ?_, hstep, hlater⟩
      rw [Machine.run_cons, ha]
      exact hrun

/-- A system call that sets an affinity hands the mask to the scheduler. -/
theorem setAffinity_pinned {k k' : Kernel} {caller : ℕ} {pid : ℤ} {cpuset : CpuSet}
    (ht : targetThread k caller pid = some t)
    (h : Kernel.step cfg k (.setAffinity caller pid (some cpuset) clock) = .ok k') :
    Pinned cfg t (some cpuset.cores) k.sim k'.sim := by
  obtain ⟨⟨k₁, ret⟩, hcall, hk'⟩ := exists_of_bind_ok h
  cases hk'
  rw [schedSetAffinity, ht] at hcall
  dsimp only at hcall
  split_ifs at hcall
  obtain ⟨sim, hsim, hcall⟩ := exists_of_bind_ok hcall
  cases hcall
  exact (threadSetAffinity_pinned ..).of_ok hsim

theorem request_masksKept {k k' : Kernel} {r : Request} (hsize : k.sim.numThreads ≤ k.sim.info.size)
    (h : Kernel.step cfg k r = .ok k') : MasksKept t (r.assigns cfg k t) k.sim k'.sim := by
  cases r with
  | event call =>
    obtain ⟨sim, hsim, hk'⟩ := exists_of_bind_ok h
    cases hk'
    rw [step_eq_run] at hsim
    exact fineRun_masksKept hsize hsim
  | setThreadInfo u tid =>
    cases h
    exact .refl hsize
  | setAffinity caller pid cpuset clock =>
    cases cpuset with
    | none =>
      cases h
      exact .refl hsize
    | some cpuset =>
      cases htarget : targetThread k caller pid with
      | none =>
        obtain ⟨⟨k₁, ret⟩, hcall, hk'⟩ := exists_of_bind_ok h
        cases hk'
        rw [schedSetAffinity, htarget] at hcall
        cases hcall
        exact .refl hsize
      | some u =>
        refine ((setAffinity_pinned htarget h).masksKept hsize).mono fun htu => ⟨rfl, ?_⟩
        rw [htu]
        exact htarget

/-- Requests that do not set the affinity of a thread leave it as it is. -/
theorem requests_leaveAlone {k k' : Kernel} {requests : List Request} (hsize : k.sim.numThreads ≤ k.sim.info.size)
    (hguard : (kernelMachine cfg).Guarded (fun k r => ¬ r.assigns cfg k t) k requests)
    (h : (kernelMachine cfg).run k requests = .ok k') : MasksKept t False k.sim k'.sim := by
  refine (kernelMachine cfg).guarded_induction (P := fun a => MasksKept t False k.sim a.sim)
    (fun a r b ha hno hb => ?_) (.refl hsize) hguard h
  refine (ha.trans (request_masksKept (t := t) ha.size hb)).mono fun hassigns => ?_
  exact hassigns.elim id hno

/-- There is an entry for every thread of a run. -/
theorem requests_size {map : ℕ → ℕ → Option ℕ} {k : Kernel} {requests : List Request}
    (h : (kernelMachine cfg).run (.initial map) requests = .ok k) : k.sim.numThreads ≤ k.sim.info.size := by
  refine (kernelMachine cfg).run_induction (P := fun k => k.sim.numThreads ≤ k.sim.info.size)
    (fun a r b ha hb => (request_masksKept (t := 0) ha hb).size) le_rfl h

/-! ### Reading a mask back -/

/-- The scheduler has the same cores on record for two threads. -/
def SameMask (cfg : Config) (s : Sim) (t u : ℕ) : Prop := ∀ c < cfg.numCores, reported s t c = reported s u c

theorem filter_range_eq_iff {n : ℕ} {p q : ℕ → Bool} :
    (List.range n).filter p = (List.range n).filter q ↔ ∀ c < n, p c = q c := by
  refine ⟨fun h c hc => ?_, fun h => List.filter_congr fun c hc => h c (List.mem_range.1 hc)⟩
  have hmem : c ∈ (List.range n).filter p ↔ c ∈ (List.range n).filter q := by rw [h]
  rw [List.mem_filter, List.mem_filter, List.mem_range, and_iff_right hc, and_iff_right hc] at hmem
  exact Bool.eq_iff_iff.2 hmem

theorem readBack_eq_iff : readBack cfg s t = readBack cfg s u ↔ SameMask cfg s t u := filter_range_eq_iff

theorem reported_congr (h : s'.pin t = s.pin t) (c : ℕ) : reported s' t c = reported s t c := by
  have haffinity : (s'.info.get t).affinity = (s.info.get t).affinity := congrArg Pin.affinity h
  have hexplicit : (s'.info.get t).explicitAffinity = (s.info.get t).explicitAffinity := congrArg Pin.explicit h
  rw [reported, reported, haffinity, hexplicit]

theorem readBack_congr (h : s'.pin t = s.pin t) : readBack cfg s' t = readBack cfg s t :=
  filter_range_eq_iff.2 fun c _ => reported_congr h c

/-- A thread whose affinity is not explicit is reported to be free. -/
theorem readBack_free (h : (s.pin t).explicit = false) : readBack cfg s t = List.range cfg.numCores := by
  refine List.filter_eq_self.2 fun c _ => ?_
  have hexplicit : (s.info.get t).explicitAffinity = false := h
  rw [reported, hexplicit, Bool.not_false, Bool.or_true]

theorem Pinned.reported_eq {mask : List ℕ} (h : Pinned cfg t (some mask) s s') (c : ℕ) :
    reported s' t c = mask.contains c := by
  have haffinity : (s'.info.get t).affinity = fun c => mask.contains c := congrArg Pin.affinity h.set
  have hexplicit : (s'.info.get t).explicitAffinity = true := congrArg Pin.explicit h.set
  rw [reported, haffinity, hexplicit, Bool.not_true, Bool.or_false]

/-- The mask that was set is the mask that is read back. -/
theorem Pinned.readBack_eq {cpuset : CpuSet} (h : Pinned cfg t (some cpuset.cores) s s')
    (hcores : ∀ c ∈ cpuset.cores, c < cfg.numCores) : readBack cfg s' t = cpuset.cores := by
  have hsorted (n : ℕ) (p : ℕ → Bool) : ((List.range n).filter p).Pairwise (· < ·) :=
    List.pairwise_lt_range.filter p
  refine List.Pairwise.eq_of_mem_iff (hsorted _ _) (hsorted _ _) fun c => ?_
  rw [readBack, List.mem_filter, h.reported_eq, List.contains_iff_mem, List.mem_range]
  exact and_iff_right_of_imp (hcores c)

/-- A query is answered with these cores, or refused because the program's buffer is too small for any mask. -/
def Answers (cfg : Config) (k : Kernel) (caller : ℕ) (pid : ℤ) (buffer : Buffer) (cores : List ℕ) : Prop :=
  schedGetAffinity cfg k caller pid buffer =
    if buffer.size * 8 < cfg.numCores then .einval else .mask ((cfg.numCores + 7) / 8) cores

theorem schedGetAffinity_eq {k : Kernel} {caller : ℕ} {pid : ℤ} {buffer : Buffer}
    (ht : targetThread k caller pid = some t) (hnull : buffer.isNull = false) :
    schedGetAffinity cfg k caller pid buffer = if buffer.size * 8 < cfg.numCores then .einval
      else .mask ((cfg.numCores + 7) / 8) (readBack cfg k.sim caller) := by
  rw [schedGetAffinity, ht]
  dsimp only
  rw [reply, threadGetAffinity, hnull]
  by_cases hsmall : buffer.size * 8 < cfg.numCores
  · rw [if_pos hsmall, if_pos hsmall]
  · rw [if_neg hsmall, if_neg hsmall]
    rfl

theorem ite_mask_eq_iff {P : Prop} [Decidable P] {bytes : ℕ} {cores cores' : List ℕ} :
    ((if P then Reply.einval else .mask bytes cores) = if P then .einval else .mask bytes cores') ↔
      P ∨ cores = cores' := by
  by_cases hP : P
  · rw [if_pos hP, if_pos hP]
    exact iff_of_true rfl (.inl hP)
  · rw [if_neg hP, if_neg hP, Reply.mask.injEq, eq_self, true_and, or_iff_right hP]

/-- What a query is answered depends on the caller. -/
theorem answers_iff {k : Kernel} {caller : ℕ} {pid : ℤ} {buffer : Buffer} {cores : List ℕ}
    (ht : targetThread k caller pid = some t) (hnull : buffer.isNull = false) (hcores : readBack cfg k.sim t = cores) :
    Answers cfg k caller pid buffer cores ↔
      buffer.size * 8 < cfg.numCores ∨ SameMask cfg k.sim caller t := by
  rw [Answers, schedGetAffinity_eq ht hnull, ite_mask_eq_iff, ← hcores, readBack_eq_iff]

/-- Setting an affinity does not change which thread a number stands for. -/
theorem targetThread_setAffinity {k k' : Kernel} {caller : ℕ} {pid : ℤ} {cpuset : CpuSet}
    (ht : targetThread k caller pid = some t)
    (h : Kernel.step cfg k (.setAffinity caller pid (some cpuset) clock) = .ok k') (caller' : ℕ) (pid' : ℤ) :
    targetThread k' caller' pid' = targetThread k caller' pid' := by
  have hnum := (setAffinity_pinned ht h).numThreads
  obtain ⟨⟨k₁, ret⟩, hcall, hk'⟩ := exists_of_bind_ok h
  cases hk'
  rw [schedSetAffinity, ht] at hcall
  dsimp only at hcall
  split_ifs at hcall
  obtain ⟨sim, hsim, hcall⟩ := exists_of_bind_ok hcall
  cases hcall
  rw [targetThread, targetThread, findThreadByTid, findThreadByTid, hnum]

/-- In every run, a query is answered as the mask of the thread it is about says, exactly when the buffer is too small for
any answer or the caller's own mask is the same; and setting the mask of one thread changes the answers about another
exactly for the thread whose mask was set, unless it is given the mask it had. -/
theorem affinityCalls_exact (cfg : Config) (map : ℕ → ℕ → Option ℕ) (requests : List Request) (k : Kernel) (t : ℕ)
    (hrun : (kernelMachine cfg).run (.initial map) requests = .ok k) :
    ((kernelMachine cfg).Guarded (fun k r => ¬ r.assigns cfg k t) (.initial map) requests →
      ∀ caller pid buffer, targetThread k caller pid = some t → buffer.isNull = false →
        (Answers cfg k caller pid buffer (List.range cfg.numCores) ↔
          buffer.size * 8 < cfg.numCores ∨ SameMask cfg k.sim caller t)) ∧
    ∀ setter pid cpuset clock k₁, targetThread k setter pid = some t → t < k.sim.numThreads →
      (∀ c ∈ cpuset.cores, c < cfg.numCores) →
      Kernel.step cfg k (.setAffinity setter pid (some cpuset) clock) = .ok k₁ →
      (∀ later k₂, (kernelMachine cfg).run k₁ later = .ok k₂ →
        (kernelMachine cfg).Guarded (fun k r => ¬ r.assigns cfg k t) k₁ later →
        ∀ caller pid' buffer, targetThread k₂ caller pid' = some t → buffer.isNull = false →
          (Answers cfg k₂ caller pid' buffer cpuset.cores ↔
            buffer.size * 8 < cfg.numCores ∨ SameMask cfg k₂.sim caller t)) ∧
      ∀ u caller pid' buffer, u ≠ t → targetThread k caller pid' = some u → buffer.isNull = false →
        (schedGetAffinity cfg k₁ caller pid' buffer = schedGetAffinity cfg k caller pid' buffer ↔
          buffer.size * 8 < cfg.numCores ∨
            (caller = t → ∀ c < cfg.numCores, reported k.sim t c = cpuset.cores.contains c)) := by
  have hsize := requests_size hrun
  refine ⟨fun hguard caller pid buffer htarget hnull => ?_, fun setter pid cpuset clock k₁ ht hcreated hcores hset => ?_⟩
  · have hkept := requests_leaveAlone (t := t) (k := .initial map) le_rfl hguard hrun
    exact answers_iff htarget hnull (readBack_free ((hkept.alone not_false).explicit rfl))
  · have hpinned := setAffinity_pinned ht hset
    have hsize₁ := (request_masksKept (t := t) hsize hset).size
    refine ⟨fun later k₂ hlater hguard caller pid' buffer htarget hnull => ?_,
      fun u caller pid' buffer hu htarget hnull => ?_⟩
    · have hkept := requests_leaveAlone (t := t) hsize₁ hguard hlater
      have hpin := (hkept.alone not_false).pin (hpinned.numThreads.symm ▸ hcreated)
      exact answers_iff htarget hnull ((readBack_congr hpin).trans (hpinned.readBack_eq hcores))
    · have htarget₁ : targetThread k₁ caller pid' = some u := by
        rw [targetThread_setAffinity ht hset]
        exact htarget
      rw [schedGetAffinity_eq htarget₁ hnull, schedGetAffinity_eq htarget hnull, ite_mask_eq_iff]
      refine or_congr_right ?_
      by_cases hcaller : caller = t
      · rw [hcaller, readBack, readBack, filter_range_eq_iff]
        simp only [hpinned.reported_eq, eq_comm (a := cpuset.cores.contains _), forall_const]
      · have hpin := hpinned.pin_eq hcaller (.inr (hcreated.trans_le hsize))
        exact iff_of_true (readBack_congr hpin) fun h => absurd h hcaller

/-- Two threads that run on a core each; the traced operating system calls the second one 7. -/
def twoNumbered : List Request :=
  [.event ((Event.create 0).at 0), .event ((Event.start 0).at 0), .event ((Event.create 0).at 0),
    .event ((Event.start 1).at 0), .setThreadInfo 1 7]

/-- The set with core 1 alone. -/
def secondCore : CpuSet := ⟨8, fun c => c = 1⟩

def eightBytes : Buffer := ⟨8, false, by decide⟩

def bothNumbered : Kernel := (kernelMachine twoCores).final (.initial fun _ _ => none) twoNumbered

/-- Thread 0 has pinned thread 1 to core 1. -/
def pinnedByOther : Kernel :=
  (kernelMachine twoCores).final bothNumbered [.setAffinity 0 7 (some secondCore) fun _ => 0]

/-- Thread 1 reads back its own mask. -/
theorem affinityCalls_exact_own : Answers twoCores pinnedByOther 1 0 eightBytes [1] := by
  have hbefore : (kernelMachine twoCores).run (.initial fun _ _ => none) twoNumbered = .ok bothNumbered :=
    Machine.run_final _ (by decide +kernel)
  have hcall : (kernelMachine twoCores).run bothNumbered [.setAffinity 0 7 (some secondCore) fun _ => 0] =
      .ok pinnedByOther := Machine.run_final _ (by decide +kernel)
  obtain ⟨k, hk, hend⟩ := (kernelMachine twoCores).run_cons_ok hcall
  have hset : Kernel.step twoCores bothNumbered (.setAffinity 0 7 (some secondCore) fun _ => 0) =
      .ok pinnedByOther := hk.trans hend
  exact (((affinityCalls_exact twoCores _ twoNumbered _ 1 hbefore).2 0 7 secondCore _ _ (by decide +kernel)
    (by decide +kernel) (by decide +kernel) hset).1 [] _ rfl trivial 1 0 eightBytes (by decide +kernel) rfl).2
    (.inr fun _ _ => rfl)

/-- Thread 0 asks for the mask it has just set for thread 1, and is told its own. -/
theorem affinity_of_other_misread :
    targetThread pinnedByOther 0 7 = some 1 ∧ ¬ Answers twoCores pinnedByOther 0 7 eightBytes [1] ∧
      schedGetAffinity twoCores pinnedByOther 0 7 eightBytes = .mask 1 [0, 1] := by
  refine ⟨by decide +kernel, ?_, by decide +kernel⟩
  rw [Answers]
  decide +kernel

end LifeSim.Sched
