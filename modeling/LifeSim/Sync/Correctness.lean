import LifeSim.Sync.Invariant

/-!
# Mutexes and condition variables behave

What the threads of an application rely on, for every interleaving of their calls: one
owner per mutex, first come first served, a stalled thread in exactly one queue, condition
waits that end only after a signal and with the mutex in hand, and one wake-up per wait.
-/

set_option linter.unusedSectionVars false

namespace LifeSim.Sync

variable {M C T : Type*} [DecidableEq M] [DecidableEq C] [DecidableEq T]

/-- The event resumes the thread. -/
def Event.resumes (t : T) : Event M C T → Bool
  | .resume t' _ _ => t' == t
  | _ => false

/-- The guarantees of the sync server in one state, with the history that led to it. -/
structure Sound (s : Server M C T) : Prop where
  /-- A mutex is acquired only while nobody owns it, and given up only by its owner. -/
  singleOwner : ∀ newer older m t,
    (s.log = newer ++ .acquire m t :: older → ownerOf m older = none) ∧
    (s.log = newer ++ .release m t :: older → ownerOf m older = some t)
  /-- The owner the history tells is the owner the server has recorded. -/
  owner : ∀ m, ownerOf m s.log = (getMutex s m).owner
  /-- Waiters get a mutex in the order in which they queued, and nobody overtakes them. -/
  fifo : ∀ m, enqueued m s.log = dequeued m s.log ++ (getMutex s m).waiting ∧
    ((getMutex s m).owner = none → (getMutex s m).waiting = [])
  /-- A stalled thread is in exactly one queue, exactly once; a running one is in none. -/
  oneQueue : ∀ t, ((s.stalled t).isSome →
      ∃ q, occurrences s t q = 1 ∧ ∀ q', q' ≠ q → occurrences s t q' = 0) ∧
    (s.stalled t = none → ∀ q, occurrences s t q = 0)
  /-- Between entering a condition variable and the next resume of the thread there was a signal
  or broadcast that picked it, and at the resume it owns the mutex it waited with. -/
  condWait : ∀ newer t by_ time mid c m older,
    s.log = newer ++ .resume t by_ time :: (mid ++ .condEnqueue c t m :: older) →
    (∀ e ∈ mid, e.resumes t = false) →
    (∃ signaller, .condDequeue c t signaller ∈ mid) ∧
      ownerOf m (mid ++ .condEnqueue c t m :: older) = some t
  /-- A signal takes exactly the first waiter out of its own queue and out of no other. -/
  signal : ∀ t c time,
    getCond (Sync.signal s c t time) c = (getCond s c).tail ∧
    ∀ c', c' ≠ c → getCond (Sync.signal s c t time) c' = getCond s c'
  /-- Every stall is matched by one resume, except the one a stalled thread is still in. -/
  resumedOnce : ∀ t, stalls t s.log = resumes t s.log + if (s.stalled t).isSome then 1 else 0

/-- The rules of the history hold at every point of it. -/
theorem LogOk.of_append {newer older : List (Event M C T)} (h : LogOk (newer ++ older)) : LogOk older := by
  induction newer with
  | nil => exact h
  | cons e newer ih =>
    apply ih
    cases e <;> first | exact h | exact h.2

/-- While a thread is not resumed, it stays in the condition wait it entered, and it counts as
signalled only when a signal picked it since. -/
theorem currentWait_since {t : T} {c : C} {m : M} {mid older : List (Event M C T)}
    (hok : LogOk (mid ++ .condEnqueue c t m :: older)) (hmid : ∀ e ∈ mid, e.resumes t = false) :
    ∃ b, currentWait t (mid ++ .condEnqueue c t m :: older) = some (.cond c m b) ∧
      (b = true → ∃ signaller, .condDequeue c t signaller ∈ mid) := by
  induction mid with
  | nil => exact ⟨false, by simp [currentWait], by simp⟩
  | cons e mid ih =>
    have hcons : LogOk ([e] ++ (mid ++ .condEnqueue c t m :: older)) := hok
    have hok' := hcons.of_append
    obtain ⟨b, hb, hsig⟩ := ih hok' fun e' he' => hmid e' (List.mem_cons_of_mem _ he')
    have hkeep : b = true → ∃ signaller, .condDequeue c t signaller ∈ e :: mid := fun h =>
      (hsig h).imp fun _ hm => List.mem_cons_of_mem _ hm
    cases e with
    | enqueue m' t' =>
      by_cases ht : t' = t
      · exact ⟨b, by simp [currentWait, ht, hb], hkeep⟩
      · exact ⟨b, by simp [currentWait, ht, hb], hkeep⟩
    | condEnqueue c' t' m' =>
      by_cases ht : t' = t
      · subst ht
        have hnone : currentWait t' (mid ++ .condEnqueue c t' m :: older) = none := hok.1
        rw [hb] at hnone
        cases hnone
      · exact ⟨b, by simp [currentWait, ht, hb], hkeep⟩
    | condDequeue c' t' signaller =>
      by_cases ht : t' = t
      · subst ht
        obtain ⟨m', hm'⟩ : ∃ m', currentWait t' (mid ++ .condEnqueue c t' m :: older) = some (.cond c' m' false) :=
          hok.1
        rw [hb, Option.some.injEq, Wait.cond.injEq] at hm'
        refine ⟨true, by simp [currentWait, hb], fun _ => ⟨signaller, ?_⟩⟩
        rw [hm'.1]
        exact List.mem_cons_self
      · exact ⟨b, by simp [currentWait, ht, hb], hkeep⟩
    | resume t' by_ time =>
      have ht : t' ≠ t := by simpa [Event.resumes] using hmid _ List.mem_cons_self
      exact ⟨b, by simp [currentWait, ht, hb], hkeep⟩
    | acquire | release | dequeue | stall => exact ⟨b, hb, hkeep⟩

/-- A wait that may end with a signal ended with its own mutex. -/
theorem condWait_of_logOk {log newer mid older : List (Event M C T)} {t by_ : T} {time : ℕ} {c : C} {m : M}
    (hok : LogOk log) (hlog : log = newer ++ .resume t by_ time :: (mid ++ .condEnqueue c t m :: older))
    (hmid : ∀ e ∈ mid, e.resumes t = false) :
    (∃ signaller, .condDequeue c t signaller ∈ mid) ∧
      ownerOf m (mid ++ .condEnqueue c t m :: older) = some t := by
  subst hlog
  obtain ⟨⟨w, hw, hend, howner⟩, hrest⟩ := LogOk.of_append hok
  obtain ⟨b, hb, hsig⟩ := currentWait_since hrest hmid
  rw [hb, Option.some.injEq] at hw
  subst hw
  exact ⟨hsig hend, howner⟩

/-- A signal removes the head of its queue and leaves the other condition variables alone. -/
theorem getCond_signal (s : Server M C T) (t : T) (c c' : C) (time : ℕ) :
    getCond (signal s c t time) c' = if c' = c then (getCond s c).tail else getCond s c' := by
  unfold signal
  split
  · rename_i hq
    by_cases hc : c' = c <;> simp [hc, hq]
  · rename_i woken rest hq
    by_cases hc : c' = c <;> simp [Inv.getCond_lock_async, hc, hq]

/-- The invariant gives all guarantees. -/
theorem Inv.sound {s : Server M C T} (h : Inv s) : Sound s where
  singleOwner newer older m t := by
    constructor
    · intro hlog
      have hok : LogOk (.acquire m t :: older) := LogOk.of_append (hlog ▸ h.logOk)
      exact hok.1
    · intro hlog
      have hok : LogOk (.release m t :: older) := LogOk.of_append (hlog ▸ h.logOk)
      exact hok.1
  owner := h.owner
  fifo m := ⟨h.fifo m, h.idle m⟩
  oneQueue t := by
    have hs := h.status t
    constructor
    · intro hstalled
      obtain ⟨r, hr⟩ := Option.isSome_iff_exists.mp hstalled
      rw [hr] at hs
      obtain ⟨w, hw, -⟩ := Option.map_eq_some_iff.mp hs.symm
      refine ⟨w.queue, by rw [h.placed]; simp [hw], fun q' hq' => ?_⟩
      rw [h.placed]
      simp [hw, Ne.symm hq']
    · intro hrun q
      rw [h.placed]
      simp [h.currentWait_eq_none hrun]
  condWait newer t by_ time mid c m older hlog hmid := condWait_of_logOk h.logOk hlog hmid
  signal t c time := ⟨by simp [getCond_signal], fun c' hc' => by simp [getCond_signal, hc']⟩
  resumedOnce := h.counts

/-- Simulated mutexes and condition variables keep their guarantees in every state that any
number of threads can reach by any interleaving of their calls. -/
theorem syncServer_sound {cost : ℕ} {s : Server M C T} (h : (machine M C T).Reachable (initial cost) s) :
    Sound s :=
  (inv_reachable h).sound

/-- Thread 1 locks mutex 0 and waits on condition variable 0; thread 2 locks, signals and unlocks. -/
def signalRun : List (Call ℕ ℕ ℕ) :=
  [.mutexLock 1 0 false 0, .condWait 1 0 0 1, .mutexLock 2 0 false 2, .condSignal 2 0 3, .mutexUnlock 2 0 4]

/-- The state after `signalRun`: thread 1 runs again and owns the mutex. -/
def signalRunState : Server ℕ ℕ ℕ :=
  unlock (signal (lock (condWait (lock (initial 1) 0 1 0) 0 0 1 1) 0 2 2) 0 2 3) 0 2 (4 + 1)

/-- The guarantees hold after a wait that was signalled and handed its mutex. -/
theorem syncServer_sound_signalRun :
    (machine ℕ ℕ ℕ).Reachable (initial 1) signalRunState ∧ Sound signalRunState ∧
      signalRunState.stalled 1 = none ∧ (getMutex signalRunState 0).owner = some 1 :=
  ⟨⟨signalRun, rfl⟩, syncServer_sound ⟨signalRun, rfl⟩, rfl, rfl⟩

end LifeSim.Sync
