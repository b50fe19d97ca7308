import LifeSim.Sync.History

/-!
# The invariant of the sync server

The state of the server is what its history says it is: the owners, the queues and the
stall reasons can be read off the log. Together with the rules of the history this is kept
by every call. The only state in which a stalled thread is in no queue lies inside a
signal, between the condition queue and the mutex, so the two halves of a wake-up are
treated as one operation.
-/

set_option linter.unusedSectionVars false

namespace LifeSim.Sync

variable {M C T : Type*} [DecidableEq M] [DecidableEq C] [DecidableEq T]

/-- The state of the server agrees with its history, and the history obeys its rules. -/
structure Inv (s : Server M C T) : Prop where
  idle : ∀ m, (getMutex s m).owner = none → (getMutex s m).waiting = []
  owner : ∀ m, ownerOf m s.log = (getMutex s m).owner
  fifo : ∀ m, enqueued m s.log = dequeued m s.log ++ (getMutex s m).waiting
  placed : ∀ t q, occurrences s t q = if (currentWait t s.log).map Wait.queue = some q then 1 else 0
  unsignalled : ∀ c, ∀ w ∈ getCond s c, currentWait w.thread s.log = some (.cond c w.mutex false)
  status : ∀ t, s.stalled t = (currentWait t s.log).map Wait.reason
  counts : ∀ t, stalls t s.log = resumes t s.log + if (s.stalled t).isSome then 1 else 0
  logOk : LogOk s.log

/-- Nothing has happened yet. -/
theorem inv_initial (cost : ℕ) : Inv (initial cost : Server M C T) where
  idle m _ := rfl
  owner m := rfl
  fifo m := rfl
  placed t q := by cases q <;> simp [occurrences, getMutex, getCond, initial, currentWait]
  unsignalled c w hw := by simp [getCond, initial] at hw
  status t := rfl
  counts t := rfl
  logOk := trivial

/-- Waiting in the queue of a mutex means that the wait may end with that mutex. -/
theorem Wait.of_queue_mutex {w : Wait M C} {m : M} (h : w.queue = .mutex m) : w.mayEnd ∧ w.mux = m := by
  cases w with
  | mutex m' => exact ⟨rfl, by simpa [Wait.queue, Wait.mux] using h⟩
  | cond c m' signalled =>
    cases signalled with
    | false => simp [Wait.queue] at h
    | true => exact ⟨rfl, by simpa [Wait.queue, Wait.mux] using h⟩

namespace Inv

variable {s : Server M C T}

/-- A queued thread waits for something, and its queue is the one it stands in. -/
theorem wait_of_occurs (h : Inv s) {t : T} {q : Queue M C} (hq : 0 < occurrences s t q) :
    ∃ w, currentWait t s.log = some w ∧ w.queue = q := by
  have hp := h.placed t q
  by_cases hw : (currentWait t s.log).map Wait.queue = some q
  · obtain ⟨w, hw, hq⟩ := Option.map_eq_some_iff.mp hw
    exact ⟨w, hw, hq⟩
  · rw [if_neg hw] at hp
    omega

/-- A thread in the queue of a mutex waits for that mutex. -/
theorem wait_of_mem_waiting (h : Inv s) {t : T} {m : M} (ht : t ∈ (getMutex s m).waiting) :
    ∃ w, currentWait t s.log = some w ∧ w.queue = .mutex m :=
  h.wait_of_occurs (q := .mutex m) (List.count_pos_iff.mpr ht)

/-- A thread that is not stalled waits for nothing. -/
theorem currentWait_eq_none (h : Inv s) {t : T} (ht : s.stalled t = none) :
    currentWait t s.log = none := by
  have hs := h.status t
  rw [ht] at hs
  exact Option.map_eq_none_iff.mp hs.symm

/-- `lock` by a running thread keeps the invariant. -/
theorem lock (h : Inv s) (m : M) {t : T} (time : ℕ) (ht : s.stalled t = none) :
    Inv (Sync.lock s m t time) := by
  have hwait := h.currentWait_eq_none ht
  cases hown : (getMutex s m).owner with
  | none =>
    have hidle := h.idle m hown
    have hfree : ownerOf m s.log = none := (h.owner m).trans hown
    simp only [Sync.lock, hown]
    refine ⟨fun m' => ?_, fun m' => ?_, fun m' => ?_, fun t' q => ?_, h.unsignalled, h.status, h.counts,
      hfree, h.logOk⟩
    · by_cases hm : m' = m
      · simp [hm]
      · simpa [hm] using h.idle m'
    · by_cases hm : m' = m
      · simp [ownerOf, hm]
      · simp [ownerOf, hm, Ne.symm hm, h.owner m']
    · by_cases hm : m' = m <;> simp [hm, enqueued, dequeued, h.fifo]
    · have hp := h.placed t' q
      cases q with
      | mutex m' => by_cases hm : m' = m <;> simp_all [occurrences, currentWait]
      | cond c => simpa [occurrences, currentWait] using hp
  | some o =>
    simp only [Sync.lock, hown]
    refine ⟨fun m' => ?_, fun m' => ?_, fun m' => ?_, fun t' q => ?_, fun c w hw => ?_, fun t' => ?_,
      fun t' => ?_, h.logOk⟩
    · by_cases hm : m' = m
      · simp [hm]
      · simpa [hm] using h.idle m'
    · by_cases hm : m' = m <;> simp [ownerOf, hm, h.owner, hown]
    · by_cases hm : m' = m
      · simp [hm, enqueued, dequeued, h.fifo]
      · simp [hm, Ne.symm hm, enqueued, dequeued, h.fifo]
    · have hp := h.placed t' q
      by_cases ht' : t = t'
      · subst ht'
        cases q with
        | mutex m' =>
          by_cases hm : m' = m
          · simp_all [occurrences, currentWait, Wait.queue]
          · simp_all [occurrences, currentWait, Wait.queue, Ne.symm hm]
        | cond c => simp_all [occurrences, currentWait, Wait.queue]
      · cases q with
        | mutex m' => by_cases hm : m' = m <;> simp_all [occurrences, currentWait]
        | cond c => simp_all [occurrences, currentWait]
    · have hu := h.unsignalled c w hw
      have hne : t ≠ w.thread := by rintro rfl; simp [hwait] at hu
      simpa [currentWait, hne] using hu
    · by_cases ht' : t = t'
      · subst ht'; simp [currentWait, hwait, Wait.reason]
      · simp [currentWait, ht', Ne.symm ht', h.status]
    · have hc := h.counts t'
      by_cases ht' : t = t'
      · subst ht'; simp_all [stalls, resumes]
      · simpa [stalls, resumes, ht', Ne.symm ht'] using hc

/-- `unlock` by the owner keeps the invariant: the first waiter becomes the owner and is resumed. -/
theorem unlock (h : Inv s) (m : M) {t : T} (time : ℕ) (hown : (getMutex s m).owner = some t) :
    Inv (Sync.unlock s m t time) := by
  have howner : ownerOf m s.log = some t := (h.owner m).trans hown
  cases hq : (getMutex s m).waiting with
  | nil =>
    simp only [Sync.unlock, hq]
    refine ⟨fun m' => ?_, fun m' => ?_, fun m' => ?_, fun t' q => ?_, h.unsignalled, h.status, h.counts,
      howner, h.logOk⟩
    · by_cases hm : m' = m
      · simp [hm]
      · simpa [hm] using h.idle m'
    · by_cases hm : m' = m
      · simp [ownerOf, hm]
      · simp [ownerOf, hm, Ne.symm hm, h.owner m']
    · have hf := h.fifo m'
      by_cases hm : m' = m <;> simp_all [enqueued, dequeued]
    · have hp := h.placed t' q
      cases q with
      | mutex m' => by_cases hm : m' = m <;> simp_all [occurrences, currentWait]
      | cond c => simpa [occurrences, currentWait] using hp
  | cons waiter rest =>
    obtain ⟨w, hw, hwq⟩ := h.wait_of_mem_waiting (t := waiter) (m := m) (by rw [hq]; exact List.mem_cons_self)
    obtain ⟨hend, hmux⟩ := Wait.of_queue_mutex hwq
    simp only [Sync.unlock, hq]
    refine ⟨fun m' => ?_, fun m' => ?_, fun m' => ?_, fun t' q => ?_, fun c x hx => ?_, fun t' => ?_,
      fun t' => ?_, ?_⟩
    · by_cases hm : m' = m
      · simp [hm]
      · simpa [hm] using h.idle m'
    · by_cases hm : m' = m
      · simp [ownerOf, hm]
      · simp [ownerOf, hm, Ne.symm hm, h.owner m']
    · have hf := h.fifo m'
      by_cases hm : m' = m
      · simp_all [enqueued, dequeued]
      · simp_all [enqueued, dequeued, Ne.symm hm]
    · have hp := h.placed t' q
      by_cases ht' : waiter = t'
      · subst ht'
        cases q with
        | mutex m' =>
          by_cases hm : m' = m
          · simp_all [occurrences, currentWait]
          · simp_all [occurrences, currentWait, Ne.symm hm]
        | cond c => simp_all [occurrences, currentWait]
      · cases q with
        | mutex m' => by_cases hm : m' = m <;> simp_all [occurrences, currentWait]
        | cond c => simp_all [occurrences, currentWait]
    · have hu := h.unsignalled c x hx
      have hne : waiter ≠ x.thread := by
        rintro rfl
        rw [hw, Option.some.injEq] at hu
        simp [hu, Wait.queue] at hwq
      simpa [currentWait, hne] using hu
    · by_cases ht' : waiter = t'
      · subst ht'; simp [currentWait]
      · simp [currentWait, ht', Ne.symm ht', h.status]
    · have hc := h.counts t'
      by_cases ht' : waiter = t'
      · subst ht'
        have hs := h.status waiter
        simp_all [stalls, resumes]
      · simpa [stalls, resumes, ht', Ne.symm ht'] using hc
    · have hw' : currentWait waiter (.acquire m waiter :: .dequeue m waiter :: .release m t :: s.log) = some w := hw
      exact ⟨⟨w, hw', hend, by simp [ownerOf, hmux]⟩, by simp [ownerOf], howner, h.logOk⟩

/-- `unlock` never stalls a thread. -/
theorem stalled_unlock (m : M) (t : T) (time : ℕ) {t' : T} (ht : s.stalled t' = none) :
    (Sync.unlock s m t time).stalled t' = none := by
  cases hq : (getMutex s m).waiting with
  | nil => simpa [Sync.unlock, hq] using ht
  | cons waiter rest => by_cases h : t' = waiter <;> simp [Sync.unlock, hq, h, ht]

/-- Entering the queue of a condition variable keeps the invariant. -/
theorem enterCond (h : Inv s) (c : C) (m : M) {t : T} (time : ℕ) (ht : s.stalled t = none) :
    Inv (stallThread (record (setCond s c (getCond s c ++ [⟨t, m⟩])) (.condEnqueue c t m)) t .cond time) := by
  have hwait := h.currentWait_eq_none ht
  refine ⟨h.idle, h.owner, h.fifo, fun t' q => ?_, fun c' w hw => ?_, fun t' => ?_, fun t' => ?_,
    hwait, h.logOk⟩
  · have hp := h.placed t' q
    by_cases ht' : t = t'
    · subst ht'
      cases q with
      | mutex m' => simp_all [occurrences, currentWait, Wait.queue]
      | cond c' =>
        by_cases hc : c' = c
        · simp_all [occurrences, currentWait, Wait.queue]
        · simp_all [occurrences, currentWait, Wait.queue, Ne.symm hc]
    · cases q with
      | mutex m' => simp_all [occurrences, currentWait]
      | cond c' => by_cases hc : c' = c <;> simp_all [occurrences, currentWait]
  · have hcases : w ∈ getCond s c' ∨ (c' = c ∧ w = ⟨t, m⟩) := by
      by_cases hc : c' = c
      · simpa [hc] using hw
      · exact Or.inl (by simpa [hc] using hw)
    rcases hcases with hold | ⟨rfl, rfl⟩
    · have hu := h.unsignalled c' w hold
      have hne : t ≠ w.thread := by rintro rfl; simp [hwait] at hu
      simpa [currentWait, hne] using hu
    · simp [currentWait]
  · by_cases ht' : t = t'
    · subst ht'; simp [currentWait, Wait.reason]
    · simp [currentWait, ht', Ne.symm ht', h.status]
  · have hc := h.counts t'
    by_cases ht' : t = t'
    · subst ht'; simp_all [stalls, resumes]
    · simpa [stalls, resumes, ht', Ne.symm ht'] using hc

/-- `condWait` by the owner of the mutex keeps the invariant. -/
theorem condWait (h : Inv s) (c : C) (m : M) {t : T} (time : ℕ) (ht : s.stalled t = none)
    (hown : (getMutex s m).owner = some t) : Inv (Sync.condWait s c m t time) :=
  (h.unlock m time hown).enterCond c m time (stalled_unlock m t time ht)

/-- The first waiter of a condition variable leaves no second entry behind. -/
theorem not_mem_rest (h : Inv s) {c : C} {woken : CondWaiter M T} {rest : List (CondWaiter M T)}
    (hq : getCond s c = woken :: rest) : woken.thread ∉ rest.map CondWaiter.thread := by
  have hp := h.placed woken.thread (.cond c)
  have hu := h.unsignalled c woken (by rw [hq]; exact List.mem_cons_self)
  simp only [occurrences, hq, hu, Wait.queue, Option.map_some, List.map_cons, List.count_cons_self, if_true] at hp
  exact List.count_eq_zero.mp (by omega)

/-- A wake-up moves the first waiter from the condition variable to its mutex. -/
theorem wake (h : Inv s) {c : C} (by_ : T) (time : ℕ) {woken : CondWaiter M T} {rest : List (CondWaiter M T)}
    (hq : getCond s c = woken :: rest) :
    Inv (lock_async (record (setCond s c rest) (.condDequeue c woken.thread by_))
      woken.mutex woken.thread by_ time).1 := by
  have hnot := h.not_mem_rest hq
  obtain ⟨t, m⟩ := woken
  have hu : currentWait t s.log = some (.cond c m false) :=
    h.unsignalled c ⟨t, m⟩ (by rw [hq]; exact List.mem_cons_self)
  have hother : ∀ c', ∀ w ∈ getCond (setCond s c rest) c', w ∈ getCond s c' ∧ t ≠ w.thread := by
    intro c' w hw
    by_cases hc : c' = c
    · subst hc
      rw [getCond_setCond, if_pos rfl] at hw
      refine ⟨by rw [hq]; exact List.mem_cons_of_mem _ hw, ?_⟩
      intro ht
      exact hnot (List.mem_map.mpr ⟨w, hw, ht.symm⟩)
    · rw [getCond_setCond, if_neg hc] at hw
      refine ⟨hw, ?_⟩
      intro ht
      have hw := h.unsignalled c' w hw
      rw [← ht, hu, Option.some.injEq, Wait.cond.injEq] at hw
      exact hc hw.1.symm
  cases hown : (getMutex s m).owner with
  | none =>
    have hidle := h.idle m hown
    have hfree : ownerOf m s.log = none := (h.owner m).trans hown
    simp only [lock_async, getMutex_record, getMutex_setCond, hown]
    refine ⟨fun m' => ?_, fun m' => ?_, fun m' => ?_, fun t' q => ?_, fun c' w hw => ?_, fun t' => ?_,
      fun t' => ?_, ?_⟩
    · by_cases hm : m' = m
      · simp [hm]
      · simpa [hm] using h.idle m'
    · by_cases hm : m' = m
      · simp [ownerOf, hm]
      · simp [ownerOf, hm, Ne.symm hm, h.owner m']
    · by_cases hm : m' = m <;> simp [hm, enqueued, dequeued, h.fifo]
    · have hp := h.placed t' q
      by_cases ht' : t = t'
      · subst ht'
        cases q with
        | mutex m' => by_cases hm : m' = m <;> simp_all [occurrences, currentWait, Wait.queue]
        | cond c' =>
          by_cases hc : c' = c
          · simp_all [occurrences, currentWait, Wait.queue]
          · simp_all [occurrences, currentWait, Wait.queue, Ne.symm hc]
      · cases q with
        | mutex m' => by_cases hm : m' = m <;> simp_all [occurrences, currentWait]
        | cond c' => by_cases hc : c' = c <;> simp_all [occurrences, currentWait]
    · obtain ⟨hold, hne⟩ := hother c' w hw
      simpa [currentWait, hne] using h.unsignalled c' w hold
    · by_cases ht' : t = t'
      · subst ht'; simp [currentWait]
      · simp [currentWait, ht', Ne.symm ht', h.status]
    · have hc := h.counts t'
      by_cases ht' : t = t'
      · subst ht'
        have hs := h.status t
        simp_all [stalls, resumes]
      · simpa [stalls, resumes, ht', Ne.symm ht'] using hc
    · refine ⟨⟨.cond c m true, ?_, rfl, ?_⟩, hfree, ⟨m, hu⟩, h.logOk⟩
      · simp [currentWait, hu]
      · simp [ownerOf, Wait.mux]
  | some o =>
    simp only [lock_async, getMutex_record, getMutex_setCond, hown]
    refine ⟨fun m' => ?_, fun m' => ?_, fun m' => ?_, fun t' q => ?_, fun c' w hw => ?_, fun t' => ?_,
      fun t' => ?_, ⟨m, hu⟩, h.logOk⟩
    · by_cases hm : m' = m
      · simp [hm]
      · simpa [hm] using h.idle m'
    · by_cases hm : m' = m <;> simp [ownerOf, hm, h.owner, hown]
    · by_cases hm : m' = m
      · simp [hm, enqueued, dequeued, h.fifo]
      · simp [hm, Ne.symm hm, enqueued, dequeued, h.fifo]
    · have hp := h.placed t' q
      by_cases ht' : t = t'
      · subst ht'
        cases q with
        | mutex m' =>
          by_cases hm : m' = m
          · simp_all [occurrences, currentWait, Wait.queue]
          · simp_all [occurrences, currentWait, Wait.queue, Ne.symm hm]
        | cond c' =>
          by_cases hc : c' = c
          · simp_all [occurrences, currentWait, Wait.queue]
          · simp_all [occurrences, currentWait, Wait.queue, Ne.symm hc]
      · cases q with
        | mutex m' => by_cases hm : m' = m <;> simp_all [occurrences, currentWait]
        | cond c' => by_cases hc : c' = c <;> simp_all [occurrences, currentWait]
    · obtain ⟨hold, hne⟩ := hother c' w hw
      simpa [currentWait, hne] using h.unsignalled c' w hold
    · have hs := h.status t'
      by_cases ht' : t = t'
      · subst ht'; simp_all [currentWait, Wait.reason]
      · simpa [currentWait, ht'] using hs
    · exact h.counts t'

/-- `signal` keeps the invariant. -/
theorem signal (h : Inv s) (c : C) (t : T) (time : ℕ) : Inv (Sync.signal s c t time) := by
  unfold Sync.signal
  split
  · exact h
  · rename_i woken rest hq
    exact h.wake t time hq

/-- Waking does not touch the queue of the condition variable again. -/
theorem getCond_lock_async (s : Server M C T) (m : M) (t by_ : T) (time : ℕ) (c : C) :
    getCond (lock_async s m t by_ time).1 c = getCond s c := by
  cases hown : (getMutex s m).owner <;> simp [lock_async, hown]

/-- The loop of `broadcast` keeps the invariant as long as it holds the queue that is left. -/
theorem broadcastLoop (c : C) (t : T) (time : ℕ) (left : List (CondWaiter M T)) :
    ∀ {s : Server M C T}, Inv s → getCond s c = left → Inv (Sync.broadcastLoop c t time left s) := by
  induction left with
  | nil => intro s h _; exact h
  | cons woken rest ih =>
    intro s h hq
    exact ih (h.wake t time hq) (by simp [getCond_lock_async])

/-- Every call keeps the invariant. -/
theorem step (h : Inv s) {call : Call M C T} {s' : Server M C T} (hs : Sync.step s call = .ok s') : Inv s' := by
  unfold Sync.step at hs
  split at hs
  · cases hs
  · rename_i hrun
    have hrun : s.stalled call.caller = none := by simpa using hrun
    cases call with
    | mutexLock t m tryLock time =>
      cases hs
      unfold mutexLock
      split
      · exact h
      · exact h.lock m time hrun
    | mutexUnlock t m time =>
      dsimp only at hs
      split at hs
      · cases hs; exact h.unlock m _ (by assumption)
      · cases hs
    | condWait t c m time =>
      dsimp only at hs
      split at hs
      · cases hs; exact h.condWait c m time hrun (by assumption)
      · cases hs
    | condSignal t c time => cases hs; exact h.signal c t time
    | condBroadcast t c time => cases hs; exact Inv.broadcastLoop c t time _ h rfl

end Inv

/-- The invariant holds in every reachable state of the server. -/
theorem inv_reachable {cost : ℕ} {s : Server M C T} (h : (machine M C T).Reachable (initial cost) s) : Inv s :=
  h.invariant (inv_initial cost) fun _ _ _ hi hs => Inv.step hi hs

end LifeSim.Sync
