import LifeSim.Rob.SmtRelease

/-!
# The barrier of the hardware threads goes on

A barrier that waits for nobody is released at once, so that there is always a thread that goes on when a running thread
waits. This holds as long as a thread runs whenever the barrier is released, and as long as no event takes the last
running thread out of the barrier's sight without a look at it. In general it does not hold: a barrier with threads that
do not run is released without an end, a thread that migrates or resumes does not look at the barrier, and a thread that
waits on the hardware thread of the one that comes back from `synchronize` is forgotten.
-/

namespace LifeSim.Rob

open LifeSim.Lib

variable {κ : Type} {cfg : SmtBarrierConfig κ}

namespace SmtTimer

variable {s s' : SmtTimer κ} {i j thread : ℕ}

/-- A running thread waits, and no running thread goes on. -/
def Stuck (cfg : SmtBarrierConfig κ) (s : SmtTimer κ) : Prop :=
  s.inSync = false ∧ (∃ i < cfg.numThreads, s.Waits i) ∧ ∀ i < cfg.numThreads, ¬ s.GoesOn i

/-- A thread in the barrier that a release may release. -/
def Releasable (cfg : SmtBarrierConfig κ) (s : SmtTimer κ) (i : ℕ) : Prop :=
  (s.threads i).inBarrier = true ∧ ((s.threads i).running = true ∨ s.hasEnough cfg i = false)

/-- The state in which an event asks whether the barrier is reached. -/
def asks (cfg : SmtBarrierConfig κ) (s : SmtTimer κ) : SmtEvent → Option (SmtTimer κ)
  | .simulate i _ =>
    if 128 < s.surplus cfg i ∧ s.enabled = true ∧ (s.threads i).thread ≠ none then some (s.setInBarrier i true) else none
  | .threadExit thread => some (s.setRunning cfg thread false)
  | .threadStall thread => some (s.setRunning cfg thread false)
  | _ => none

/-- One event goes as it should: a release ends, it is made only if a thread can be released, one thread at most is told
to execute, a running thread does not wait for nobody, and after `synchronize` all threads with too few micro-ops go on.
-/
structure Progresses (cfg : SmtBarrierConfig κ) (s : SmtTimer κ) (e : SmtEvent) : Prop where
  ends : s.step cfg e ≠ .error .endless
  releasable : ∀ t, s.asks cfg e = some t → t.isBarrierReached cfg = true → ∃ i < cfg.numThreads, t.Releasable cfg i
  told : ∀ s', s.step cfg e = .ok s' → s'.told ≤ 1
  goesOn : ∀ s', s.step cfg e = .ok s' → ¬ s'.Stuck cfg
  released : ∀ i s', e = .syncDone i → s.step cfg e = .ok s' → ∀ j < cfg.numThreads, (s'.threads j).inBarrier = true →
    s.hasEnough cfg j = true

/-- When an event is handled as it should. -/
def Admits (cfg : SmtBarrierConfig κ) (s : SmtTimer κ) : SmtEvent → Prop
  | .simulate i _ => 128 < s.surplus cfg i → s.enabled = true → s.inSync = false →
    ∃ j < cfg.numThreads, (s.threads j).running = true
  | .syncDone i => (∃ j < cfg.numThreads, (s.threads j).running = true) ∧ s.Spares cfg i
  | .threadExit thread | .threadStall thread => s.inSync = true ∨ (∀ j < cfg.numThreads,
    (s.threads j).inBarrier = false) ∨
    ∃ j < cfg.numThreads, s.findSmtThreadFromThread cfg thread ≠ some j ∧ (s.threads j).running = true
  | .threadStart thread | .threadResume thread => ∀ i, s.findSmtThreadFromThread cfg thread = some i →
    (s.threads i).inBarrier = true → s.inSync = true ∨ ∃ j < cfg.numThreads, s.GoesOn j
  | .threadMigrate thread core => s.inSync = true ∨
    (∃ j < cfg.numThreads, s.findSmtThreadFromThread cfg thread ≠ some j ∧ s.GoesOn j) ∨
    (∃ i, findSmtThreadFromCore cfg core = some i ∧
      (s.findSmtThreadFromThread cfg thread = some i ∨ (s.threads i).inBarrier = false)) ∨
    (findSmtThreadFromCore cfg core = none ∧
      ∀ j < cfg.numThreads, s.findSmtThreadFromThread cfg thread ≠ some j → ¬ s.Waits j)
  | _ => True

/-! ### The threads that are told to execute -/

/-- No thread is told to execute while another one synchronizes, and one thread at most after each release. -/
structure TellsOne (s : SmtTimer κ) : Prop where
  sync : s.inSync = true → s.executeThread = none
  told : s.told ≤ 1
  fresh : s.executeThread ≠ none → s.told = 0

theorem TellsOne.of_eq (h : s.TellsOne) (hsync : s'.inSync = s.inSync) (hexecute : s'.executeThread = s.executeThread)
    (htold : s'.told = s.told) : s'.TellsOne := by
  refine ⟨fun h' => ?_, ?_, fun h' => ?_⟩
  · rw [hexecute]
    exact h.sync (hsync ▸ h')
  · rw [htold]
    exact h.told
  · rw [htold]
    exact h.fresh (hexecute ▸ h')

/-- The invariant. -/
structure Ok (cfg : SmtBarrierConfig κ) (s : SmtTimer κ) : Prop where
  tellsOne : s.TellsOne
  goesOn : ¬ s.Stuck cfg

theorem Ok.of_eq (h : s.Ok cfg) (hsync : s'.inSync = s.inSync) (hexecute : s'.executeThread = s.executeThread)
    (htold : s'.told = s.told)
    (hthreads : ∀ i, (s'.threads i).running = (s.threads i).running ∧ (s'.threads i).inBarrier =
      (s.threads i).inBarrier) :
    s'.Ok cfg := by
  refine ⟨h.tellsOne.of_eq hsync hexecute htold, fun hstuck => h.goesOn ⟨hsync ▸ hstuck.1, ?_, fun i hi hgoes => ?_⟩⟩
  · obtain ⟨i, hi, hrunning, hin⟩ := hstuck.2.1
    exact ⟨i, hi, (hthreads i).1 ▸ hrunning, (hthreads i).2 ▸ hin⟩
  · exact hstuck.2.2 i hi ⟨(hthreads i).1.trans hgoes.1, (hthreads i).2.trans hgoes.2⟩

theorem not_stuck_of_goesOn (hi : i < cfg.numThreads) (h : s.GoesOn i) : ¬ s.Stuck cfg := fun hstuck => hstuck.2.2 i hi h

theorem not_stuck_of_inSync (h : s.inSync = true) : ¬ s.Stuck cfg := fun hstuck => by
  have hsync := hstuck.1
  rw [h] at hsync
  cases hsync

theorem isBarrierReached_iff : s.isBarrierReached cfg = true ↔
    s.inSync = false ∧ (∀ i < cfg.numThreads, ¬ s.GoesOn i) ∧ ∃ i < cfg.numThreads, (s.threads i).inBarrier = true := by
  simp only [isBarrierReached, Bool.and_eq_true, Bool.not_eq_true', List.all_eq_true, List.any_eq_true, List.mem_range,
    Bool.or_eq_true, and_assoc, GoesOn, not_and, Bool.not_eq_false]
  refine and_congr_right fun _ => and_congr_left fun _ => forall₂_congr fun i _ => ?_
  cases (s.threads i).running <;> simp

theorem Stuck.reached (h : s.Stuck cfg) : s.isBarrierReached cfg = true := by
  obtain ⟨i, hi, hwaits⟩ := h.2.1
  exact isBarrierReached_iff.2 ⟨h.1, h.2.2, i, hi, hwaits.2⟩

/-- A running thread waits in a barrier that is reached. -/
theorem waits_of_reached (h : s.isBarrierReached cfg = true) (hi : i < cfg.numThreads)
    (hrunning : (s.threads i).running = true) :
    s.Waits i := by
  refine ⟨hrunning, ?_⟩
  cases hin : (s.threads i).inBarrier with
  | true => rfl
  | false => exact absurd ⟨hrunning, hin⟩ ((isBarrierReached_iff.1 h).2.1 i hi)

/-! ### Releases -/

variable {all : Bool} {me : Option ℕ} {r : Releasing κ}

theorem Released.tellsOne (h : Released cfg s all me r) (hsync : s.inSync = false) : r.timer.TellsOne := by
  have htold : r.timer.told = 0 := h.frame.told
  refine ⟨fun h' => ?_, htold ▸ Nat.zero_le 1, fun _ => htold⟩
  rw [h.frame.inSync] at h'
  exact absurd (hsync.symm.trans h') Bool.false_ne_true

/-- If the calling thread is not released, another one goes on. -/
theorem Released.exists_goesOn (h : Released cfg s all me r) (hme : r.releaseMe = true → me = none) :
    ∃ i < cfg.numThreads, r.timer.GoesOn i := by
  obtain ⟨i, hi, hgoes | ⟨hsame, -, hreleased⟩⟩ := h.moves
  · exact ⟨i, hi, hgoes⟩
  · rw [hme hreleased] at hsame
    cases hsame

/-- A running thread waits in a barrier that is reached, unless no thread runs. -/
theorem exists_waits (hruns : s.inSync = true ∨ (∀ j < cfg.numThreads, (s.threads j).inBarrier = false) ∨
    ∃ j < cfg.numThreads, (s.threads j).running = true) (hreached : s.isBarrierReached cfg = true) :
    ∃ i < cfg.numThreads, s.Waits i := by
  obtain ⟨hsync, -, i, hi, hin⟩ := isBarrierReached_iff.1 hreached
  rcases hruns with hsync' | hnobody | ⟨j, hj, hrunning⟩
  · exact absurd (hsync.symm.trans hsync') Bool.false_ne_true
  · exact absurd ((hnobody i hi).symm.trans hin) Bool.false_ne_true
  · exact ⟨j, hj, waits_of_reached hreached hj hrunning⟩

theorem signalBarrier_ok (htells : s.TellsOne) (hruns : s.inSync = true ∨ (∀ j < cfg.numThreads,
    (s.threads j).inBarrier = false) ∨
    ∃ j < cfg.numThreads, (s.threads j).running = true) : Ensures (s.signalBarrier cfg) (Ok cfg) (· ≠ .endless) := by
  rw [signalBarrier]
  split_ifs with hreached
  · have hsync := (isBarrierReached_iff.1 hreached).1
    obtain ⟨j, hj, hwaits⟩ := exists_waits hruns hreached
    obtain ⟨r, hr, hreleased⟩ := barrierRelease_released false none hj (.inl hwaits)
    obtain ⟨k, hk, hgoes⟩ := hreleased.exists_goesOn fun _ => rfl
    rw [hr]
    exact .ok ⟨hreleased.tellsOne hsync, not_stuck_of_goesOn hk hgoes⟩
  · exact .ok ⟨htells, fun hstuck => hreached hstuck.reached⟩

/-! ### Threads that start and stop -/

/-- A thread that is found is one of the core. -/
theorem lt_of_find (h : s.findSmtThreadFromThread cfg thread = some i) : i < cfg.numThreads :=
  List.mem_range.1 (List.mem_of_find?_eq_some h)

theorem lt_of_findCore {core : Option ℕ} (h : findSmtThreadFromCore cfg core = some i) : i < cfg.numThreads := by
  cases core with
  | none => cases h
  | some c => exact List.mem_range.1 (List.mem_of_find?_eq_some h)

theorem setRunning_threads (running : Bool) (j : ℕ) : (s.setRunning cfg thread running).threads j =
    { s.threads j with running :=
        if s.findSmtThreadFromThread cfg thread = some j then running else (s.threads j).running } := by
  rw [setRunning]
  cases s.findSmtThreadFromThread cfg thread with
  | none => rfl
  | some i =>
    by_cases hij : j = i
    · subst hij
      rw [if_pos rfl]
      exact Function.update_self ..
    · rw [if_neg fun h => hij (Option.some.inj h).symm]
      exact Function.update_of_ne hij ..

theorem setRunning_tellsOne (h : s.TellsOne) (running : Bool) : (s.setRunning cfg thread running).TellsOne := by
  rw [setRunning]
  cases s.findSmtThreadFromThread cfg thread <;> exact h.of_eq rfl rfl rfl

theorem setRunning_inSync (running : Bool) : (s.setRunning cfg thread running).inSync = s.inSync := by
  rw [setRunning]
  cases s.findSmtThreadFromThread cfg thread <;> rfl

/-- A thread that starts or resumes. -/
theorem Ok.start (h : s.Ok cfg) (hadmits : s.Admits cfg (.threadStart thread)) :
    (s.setRunning cfg thread true).Ok cfg := by
  refine ⟨setRunning_tellsOne h.tellsOne true, ?_⟩
  cases hfind : s.findSmtThreadFromThread cfg thread with
  | none =>
    have heq : s.setRunning cfg thread true = s := by rw [setRunning, hfind]
    rw [heq]
    exact h.goesOn
  | some i =>
    cases hin : (s.threads i).inBarrier with
    | false =>
      refine not_stuck_of_goesOn (lt_of_find hfind) ?_
      rw [GoesOn, setRunning_threads, if_pos hfind]
      exact ⟨rfl, hin⟩
    | true =>
      rcases hadmits i hfind hin with hsync | ⟨j, hj, hgoes⟩
      · exact not_stuck_of_inSync ((setRunning_inSync true).trans hsync)
      · refine not_stuck_of_goesOn hj ?_
        rw [GoesOn, setRunning_threads]
        refine ⟨?_, hgoes.2⟩
        split_ifs
        · rfl
        · exact hgoes.1

/-- A thread runs when another one has stopped. -/
theorem runs_of_admits (hadmits : s.Admits cfg (.threadExit thread)) :
    (s.setRunning cfg thread false).inSync = true ∨
      (∀ j < cfg.numThreads, ((s.setRunning cfg thread false).threads j).inBarrier = false) ∨
      ∃ j < cfg.numThreads, ((s.setRunning cfg thread false).threads j).running = true := by
  rcases hadmits with hsync | hnobody | ⟨j, hj, hother, hrunning⟩
  · exact .inl ((setRunning_inSync false).trans hsync)
  · refine .inr (.inl fun j hj => ?_)
    rw [setRunning_threads]
    exact hnobody j hj
  · refine .inr (.inr ⟨j, hj, ?_⟩)
    rw [setRunning_threads, if_neg hother]
    exact hrunning

/-- A thread that exits or stalls. -/
theorem Ok.stop (h : s.Ok cfg) (hadmits : s.Admits cfg (.threadExit thread)) :
    Ensures ((s.setRunning cfg thread false).signalBarrier cfg) (Ok cfg) (· ≠ .endless) :=
  signalBarrier_ok (setRunning_tellsOne h.tellsOne false) (runs_of_admits hadmits)

/-! ### Threads that migrate -/

theorem notify_modifyThread_self (s : SmtTimer κ) (i : ℕ) (f : SmtThread → SmtThread) :
    ((s.modifyThread i f).notify cfg).threads i = f (s.threads i) := Function.update_self ..

theorem notify_modifyThread_of_ne (s : SmtTimer κ) (hij : j ≠ i) (f : SmtThread → SmtThread) :
    ((s.modifyThread i f).notify cfg).threads j = s.threads j := Function.update_of_ne hij ..

variable (cfg s thread) in
theorem gone_threads (j : ℕ) : ((s.gone cfg thread).threads j).running =
      (if s.findSmtThreadFromThread cfg thread = some j then false else (s.threads j).running) ∧
    ((s.gone cfg thread).threads j).inBarrier =
      (if s.findSmtThreadFromThread cfg thread = some j then false else (s.threads j).inBarrier) := by
  rw [gone]
  cases s.findSmtThreadFromThread cfg thread with
  | none => exact ⟨rfl, rfl⟩
  | some i =>
    dsimp only
    by_cases hij : i = j
    · subst hij
      rw [if_pos rfl, if_pos rfl]
      split_ifs with hin
      · rw [signal_threads, if_pos rfl, notify_modifyThread_self]
        exact ⟨rfl, rfl⟩
      · rw [notify_modifyThread_self] at hin ⊢
        exact ⟨rfl, Bool.eq_false_iff.2 hin⟩
    · rw [if_neg fun h => hij (Option.some.inj h), if_neg fun h => hij (Option.some.inj h)]
      split_ifs
      · rw [signal_threads, if_neg (Ne.symm hij), notify_modifyThread_of_ne s (Ne.symm hij)]
        exact ⟨rfl, rfl⟩
      · rw [notify_modifyThread_of_ne s (Ne.symm hij)]
        exact ⟨rfl, rfl⟩

variable (cfg s thread) in
theorem gone_eq : (s.gone cfg thread).inSync = s.inSync ∧
    (s.gone cfg thread).executeThread = s.executeThread ∧ (s.gone cfg thread).told = s.told := by
  rw [gone]
  cases s.findSmtThreadFromThread cfg thread with
  | none => exact ⟨rfl, rfl, rfl⟩
  | some i =>
    dsimp only
    split_ifs <;> exact ⟨rfl, rfl, rfl⟩

/-- A thread that goes on stays so, if it is not the one that migrates. -/
theorem gone_goesOn (hother : s.findSmtThreadFromThread cfg thread ≠ some j) (h : s.GoesOn j) :
    (s.gone cfg thread).GoesOn j := by
  obtain ⟨hrunning, hin⟩ := s.gone_threads cfg thread j
  rw [if_neg hother] at hrunning hin
  exact ⟨hrunning.trans h.1, hin.trans h.2⟩

/-- A thread that goes on stays so when a thread comes. -/
theorem come_goesOn (h : s.GoesOn j) :
    ((s.modifyThread i fun t => { t with running := true, thread := some thread }).notify cfg).GoesOn j := by
  rw [GoesOn]
  by_cases hji : j = i
  · rw [hji, notify_modifyThread_self]
    exact ⟨rfl, hji ▸ h.2⟩
  · rw [notify_modifyThread_of_ne s hji]
    exact h

theorem Ok.migrate (h : s.Ok cfg) {core : Option ℕ} (hadmits : s.Admits cfg (.threadMigrate thread core)) :
    (s.threadMigrate cfg thread core).Ok cfg := by
  obtain ⟨hsync, hexecute, htold⟩ := s.gone_eq cfg thread
  rw [threadMigrate]
  cases hcore : findSmtThreadFromCore cfg core with
  | none =>
    refine ⟨h.tellsOne.of_eq hsync hexecute htold, ?_⟩
    rcases hadmits with hin | ⟨j, hj, hother, hgoes⟩ | ⟨i, hi, -⟩ | ⟨-, hnobody⟩
    · exact not_stuck_of_inSync (hsync.trans hin)
    · exact not_stuck_of_goesOn hj (gone_goesOn hother hgoes)
    · rw [hcore] at hi
      cases hi
    · rintro ⟨-, ⟨j, hj, hwaits⟩, -⟩
      obtain ⟨hrunning, hin⟩ := s.gone_threads cfg thread j
      have hother : s.findSmtThreadFromThread cfg thread ≠ some j := by
        intro hsame
        rw [if_pos hsame] at hin
        exact absurd (hin.symm.trans hwaits.2) Bool.false_ne_true
      rw [if_neg hother] at hrunning hin
      exact hnobody j hj hother ⟨hrunning.symm.trans hwaits.1, hin.symm.trans hwaits.2⟩
  | some i =>
    refine ⟨(h.tellsOne.of_eq hsync hexecute htold).of_eq rfl rfl rfl, ?_⟩
    rcases hadmits with hin | ⟨j, hj, hother, hgoes⟩ | ⟨k, hk, hhere⟩ | ⟨hnone, -⟩
    · exact not_stuck_of_inSync (hsync.trans hin)
    · exact not_stuck_of_goesOn hj (come_goesOn (gone_goesOn hother hgoes))
    · rw [hcore] at hk
      obtain rfl : i = k := Option.some.inj hk
      refine not_stuck_of_goesOn (lt_of_findCore hcore) ?_
      rw [GoesOn, notify_modifyThread_self]
      refine ⟨rfl, (s.gone_threads cfg thread i).2.trans ?_⟩
      split_ifs with hleaves
      · rfl
      · exact hhere.resolve_left hleaves
    · rw [hcore] at hnone
      cases hnone

/-! ### Threads that simulate -/

theorem setInBarrier_threads (i : ℕ) (inBarrier : Bool) (j : ℕ) : (s.setInBarrier i inBarrier).threads j =
    if j = i then { s.threads i with inBarrier := inBarrier } else s.threads j := modifyThread_threads ..

/-- The thread that has been told to execute is in `synchronize`. -/
theorem TellsOne.execute (h : s.TellsOne) (hme : s.executeThread = some i) (rounds : ℕ) :
    (s.executeCore cfg i rounds).Ok cfg := by
  have htold : s.told = 0 := h.fresh (hme ▸ Option.some_ne_none i)
  refine ⟨⟨fun _ => rfl, ?_, fun hnone => absurd rfl hnone⟩, not_stuck_of_inSync rfl⟩
  exact (congrArg (· + 1) htold).le

/-- A thread that leaves the barrier does not stop the others. -/
theorem setInBarrier_goesOn (h : s.GoesOn j) : (s.setInBarrier i false).GoesOn j := by
  rw [GoesOn, setInBarrier_threads]
  split_ifs with hji
  · exact ⟨hji ▸ h.1, rfl⟩
  · exact h

theorem Ok.barrier (h : s.Ok cfg)
    (hruns : s.enabled = true → s.inSync = false → ∃ j < cfg.numThreads, (s.threads j).running = true) :
    Ensures (s.barrier cfg i) (fun x => x.1.Ok cfg ∧ (x.2 = some true → x.1.executeThread = some i)) (· ≠ .endless) := by
  rw [SmtTimer.barrier]
  split_ifs with henabled hthread hreached
  · exact .ok ⟨h, fun h' => absurd (Option.some.inj h') Bool.false_ne_true⟩
  · exact .error (by decide)
  · have hsync : s.inSync = false := (isBarrierReached_iff.1 hreached).1
    obtain ⟨j, hj, hrunning⟩ := hruns (Bool.not_eq_false _ ▸ henabled) hsync
    have hwaits : (s.setInBarrier i true).Waits j := by
      refine waits_of_reached hreached hj ?_
      rw [setInBarrier_threads]
      split_ifs with hji
      · exact hji ▸ hrunning
      · exact hrunning
    obtain ⟨r, hr, hreleased⟩ := barrierRelease_released false (some i) hj (.inl hwaits)
    have htells := hreleased.tellsOne hsync
    rw [hr, ok_bind]
    dsimp only
    split_ifs with hme
    · refine .ok ⟨⟨htells.of_eq rfl rfl rfl, ?_⟩, fun h' => of_decide_eq_true (Option.some.inj h')⟩
      obtain ⟨k, hk, hgoes | ⟨hsame, hkrunning, -⟩⟩ := hreleased.moves
      · exact not_stuck_of_goesOn hk (setInBarrier_goesOn hgoes)
      · obtain rfl : i = k := Option.some.inj hsame
        refine not_stuck_of_goesOn hk ?_
        rw [GoesOn, setInBarrier_threads, if_pos rfl]
        exact ⟨hkrunning, rfl⟩
    · obtain ⟨k, hk, hgoes⟩ := hreleased.exists_goesOn fun h' => absurd h' hme
      exact .ok ⟨⟨htells, not_stuck_of_goesOn hk hgoes⟩, fun h' => by cases h'⟩
  · exact .ok ⟨⟨h.tellsOne.of_eq rfl rfl rfl, fun hstuck => hreached hstuck.reached⟩, fun h' => by cases h'⟩

theorem Ok.simulate (h : s.Ok cfg) (rounds : ℕ) (hadmits : s.Admits cfg (.simulate i rounds)) :
    Ensures (s.simulate cfg i rounds) (Ok cfg) (· ≠ .endless) := by
  rw [SmtTimer.simulate]
  split_ifs with hmany
  · refine (h.barrier (hadmits hmany)).bind fun x hx => ?_
    split_ifs with htold
    · exact .ok (hx.1.tellsOne.execute (hx.2 htold) rounds)
    · exact .ok hx.1
  · exact .ok h

theorem Ok.wake (h : s.Ok cfg) (i rounds : ℕ) : (s.wake cfg i rounds).Ok cfg := by
  rw [SmtTimer.wake]
  have hkept : (s.modifyThread i fun t => { t with signalled := t.signalled - 1 }).Ok cfg := by
    refine h.of_eq rfl rfl rfl fun j => ?_
    rw [modifyThread_threads]
    split_ifs with hji
    · rw [hji]
      exact ⟨rfl, rfl⟩
    · exact ⟨rfl, rfl⟩
  split_ifs with hme
  · exact hkept.tellsOne.execute hme rounds
  · exact hkept

/-- A thread that comes back from `synchronize` releases all threads with too few micro-ops. -/
theorem syncDone_ok (hruns : ∃ j < cfg.numThreads, (s.threads j).running = true) (hspares : s.Spares cfg i) :
    Ensures (s.syncDone cfg i) (fun s' => s'.Ok cfg ∧
      ∀ j < cfg.numThreads, (s'.threads j).inBarrier = true → s.hasEnough cfg j = true) (· ≠ .endless) := by
  obtain ⟨j, hj, hrunning⟩ := hruns
  have hmoves : SmtTimer.Waits { s with inSync := false, syncing := none } j ∨
      (true = true ∧ SmtTimer.GoesOn { s with inSync := false, syncing := none } j) := by
    cases hin : (s.threads j).inBarrier with
    | true => exact .inl ⟨hrunning, hin⟩
    | false => exact .inr ⟨rfl, hrunning, hin⟩
  obtain ⟨r, hr, hreleased⟩ := barrierRelease_released true (some i) hj hmoves
  obtain ⟨k, hk, hgoes⟩ := hreleased.goesOn rfl i rfl hspares
  rw [SmtTimer.syncDone, hr]
  refine .ok ⟨⟨hreleased.tellsOne rfl, not_stuck_of_goesOn hk hgoes⟩, fun l hl hin => ?_⟩
  rcases hreleased.hasEnough rfl l hl hin with henough | hsame
  · exact henough
  · obtain rfl : i = l := Option.some.inj hsame
    exact (hspares (hreleased.frame.inBarrier i hin)).1

/-- All threads in the barrier go on. -/
theorem foldl_signal (is : List ℕ) (s : SmtTimer κ) :
    let s' := is.foldl (fun s i => if (s.threads i).inBarrier then s.signal i else s) s
    Frame none s s' ∧ s'.executeThread = s.executeThread ∧ ∀ i ∈ is, (s'.threads i).inBarrier = false := by
  induction is generalizing s with
  | nil => exact ⟨.rfl, rfl, fun i hi => by cases hi⟩
  | cons k is ih =>
    obtain ⟨hframe, hexecute, hout⟩ := ih (if (s.threads k).inBarrier then s.signal k else s)
    have hfirst : Frame none s (if (s.threads k).inBarrier then s.signal k else s) := by
      split_ifs
      · exact .signal (Option.some_ne_none k).symm
      · exact .rfl
    refine ⟨hfirst.trans hframe, hexecute.trans ?_, fun i hi => ?_⟩
    · split_ifs <;> rfl
    · rcases List.mem_cons.1 hi with rfl | hi
      · refine Bool.eq_false_iff.2 fun hin => ?_
        have hstays := hframe.inBarrier i hin
        split_ifs at hstays with hold
        · rw [signal_threads, if_pos rfl] at hstays
          cases hstays
        · exact hold hstays
      · exact hout i hi

theorem disable_ok (h : s.TellsOne) : (s.disable cfg).Ok cfg := by
  obtain ⟨hframe, hexecute, hout⟩ := foldl_signal (List.range cfg.numThreads) { s with enabled := false }
  refine ⟨h.of_eq hframe.inSync hexecute hframe.told, ?_⟩
  rintro ⟨-, ⟨i, hi, hwaits⟩, -⟩
  exact absurd (hwaits.2.symm.trans (hout i (List.mem_range.2 hi))) Bool.true_eq_false.mp

/-! ### Runs -/

/-- What an event does. -/
theorem Ok.step (h : s.Ok cfg) {e : SmtEvent} (hadmits : s.Admits cfg e) :
    Ensures (s.step cfg e) (fun s' => s'.Ok cfg ∧ ∀ i, e = .syncDone i →
      ∀ j < cfg.numThreads, (s'.threads j).inBarrier = true → s.hasEnough cfg j = true) (· ≠ .endless) := by
  have hother : ∀ {x : Except SmtFault (SmtTimer κ)}, (∀ i, e ≠ .syncDone i) → Ensures x (Ok cfg) (· ≠ .endless) →
      Ensures x (fun s' => s'.Ok cfg ∧ ∀ i, e = .syncDone i →
        ∀ j < cfg.numThreads, (s'.threads j).inBarrier = true → s.hasEnough cfg j = true) (· ≠ .endless) :=
    fun he hx => hx.mono (fun s' hs' => ⟨hs', fun i hi => absurd hi (he i)⟩) fun _ hf => hf
  cases e with
  | push i uops => exact hother (fun i hi => by cases hi) (.ok (h.of_eq rfl rfl rfl fun _ => ⟨rfl, rfl⟩))
  | synchronize i time => exact hother (fun i hi => by cases hi) (.ok (h.of_eq rfl rfl rfl fun _ => ⟨rfl, rfl⟩))
  | simulate i rounds =>
    refine hother (fun i hi => by cases hi) ?_
    rw [SmtTimer.step]
    split_ifs
    · exact h.simulate rounds hadmits
    · exact .error (by decide)
  | wake i rounds =>
    refine hother (fun i hi => by cases hi) ?_
    rw [SmtTimer.step]
    split_ifs
    · exact .ok (h.wake i rounds)
    · exact .error (by decide)
  | syncDone i =>
    rw [SmtTimer.step]
    split_ifs
    · exact (syncDone_ok hadmits.1 hadmits.2).mono (fun s' hs' => ⟨hs'.1, fun _ _ => hs'.2⟩) fun _ hf => hf
    · exact .error (by decide)
  | threadStart thread => exact hother (fun i hi => by cases hi) (.ok (h.start hadmits))
  | threadExit thread => exact hother (fun i hi => by cases hi) (h.stop hadmits)
  | threadStall thread => exact hother (fun i hi => by cases hi) (h.stop hadmits)
  | threadResume thread => exact hother (fun i hi => by cases hi) (.ok (h.start hadmits))
  | threadMigrate thread core => exact hother (fun i hi => by cases hi) (.ok (h.migrate hadmits))
  | enable => exact hother (fun i hi => by cases hi) (.ok (h.of_eq rfl rfl rfl fun _ => ⟨rfl, rfl⟩))
  | disable => exact hother (fun i hi => by cases hi) (.ok (disable_ok h.tellsOne))

/-- A running thread waits in a barrier that is reached when some thread runs. -/
theorem exists_releasable (hruns : s.inSync = true ∨ (∀ j < cfg.numThreads, (s.threads j).inBarrier = false) ∨
    ∃ j < cfg.numThreads, (s.threads j).running = true) (hreached : s.isBarrierReached cfg = true) :
    ∃ i < cfg.numThreads, s.Releasable cfg i := by
  obtain ⟨j, hj, hwaits⟩ := exists_waits hruns hreached
  exact ⟨j, hj, hwaits.2, .inl hwaits.1⟩

theorem Ok.progresses (h : s.Ok cfg) {e : SmtEvent} (hadmits : s.Admits cfg e) : s.Progresses cfg e := by
  have hstep := h.step hadmits
  refine ⟨fun hends => ?_, fun t ht hreached => ?_, fun s' hs' => ?_, fun s' hs' => ?_, fun i s' he hs' => ?_⟩
  · rw [hends] at hstep
    exact hstep rfl
  · cases e with
    | simulate i rounds =>
      rw [asks] at ht
      split_ifs at ht with hmany
      cases ht
      refine exists_releasable (.inr (.inr ?_)) hreached
      obtain ⟨j, hj, hrunning⟩ := hadmits hmany.1 hmany.2.1 (isBarrierReached_iff.1 hreached).1
      refine ⟨j, hj, ?_⟩
      rw [setInBarrier_threads]
      split_ifs with hji
      · exact hji ▸ hrunning
      · exact hrunning
    | threadExit thread =>
      cases ht
      exact exists_releasable (runs_of_admits hadmits) hreached
    | threadStall thread =>
      cases ht
      exact exists_releasable (runs_of_admits hadmits) hreached
    | _ => cases ht
  · exact (hstep.of_ok hs').1.tellsOne.told
  · exact (hstep.of_ok hs').1.goesOn
  · exact (hstep.of_ok hs').2 i he

theorem Ok.new (cfg : SmtBarrierConfig κ) (core : κ) : (SmtTimer.new core).Ok cfg := by
  refine ⟨⟨fun h => absurd h Bool.false_ne_true, Nat.zero_le 1, fun _ => rfl⟩, ?_⟩
  rintro ⟨-, ⟨i, -, hwaits⟩, -⟩
  exact absurd hwaits.1 Bool.false_ne_true

/-- In a run whose events all meet the condition every release ends, is made only when a thread can be released, and
tells one thread at most to execute. A running thread never waits for nobody, and those with too few micro-ops go on
after `synchronize`. -/
theorem smtBarrier_progresses (cfg : SmtBarrierConfig κ) (core : κ) (es : List SmtEvent)
    (hes : (smtMachine cfg).Guarded (Admits cfg) (.new core) es) :
    (smtMachine cfg).Guarded (Progresses cfg) (.new core) es :=
  hes.mono_of_kept (P := Ok cfg) (fun _ _ _ hs he hstep => ((hs.step he).of_ok hstep).1)
    (fun _ _ hs he => hs.progresses he)
    (.new cfg core)

/-- A core with two hardware threads. -/
def twoThreads : SmtConfig where
  dispatchWidth := 4
  commitWidth := 4
  windowSize := 32
  rsEntries := 32
  mispredictionPenalty := 10
  storeToLoadForwarding := true
  noAddressDisambiguation := false
  inorder := false
  issueContention := false
  outstandingLoads := 8
  outstandingStores := 8
  memory _ _ := 0
  numThreads := 2
  windowRepartition := false
  simultaneousIssue := true

/-- Its barrier. -/
def twoWaiters : SmtBarrierConfig RobSmtTimer := ⟨RobSmtTimer.methods twoThreads, 2, id, by decide⟩

/-- So many micro-ops that a thread waits. -/
def manyUops : List DynamicMicroOp := List.replicate 129 .plain

/-- Both threads wait, the first one is told to execute, and then it releases the other one. -/
def bothWait : List SmtEvent :=
  [.threadMigrate 0 (some 0), .threadMigrate 1 (some 1), .push 0 manyUops, .simulate 0 0, .push 1 manyUops, .simulate 1 0,
    .wake 0 5, .syncDone 0]

theorem smtBarrier_progresses_bothWait :
    (smtMachine twoWaiters).Guarded (Progresses twoWaiters) (.new (.new twoThreads)) bothWait := by
  refine smtBarrier_progresses twoWaiters _ bothWait ?_
  refine Machine.Guarded.cons_final (by decide +kernel) (.inr (.inr (.inl ⟨0, by decide +kernel, .inr
    (by decide +kernel)⟩))) ?_
  refine Machine.Guarded.cons_final (by decide +kernel) (.inr (.inr (.inl ⟨1, by decide +kernel, .inr
    (by decide +kernel)⟩))) ?_
  refine Machine.Guarded.cons_final (by decide +kernel) trivial ?_
  refine Machine.Guarded.cons_final (by decide +kernel) (fun _ _ _ => ⟨0, by decide +kernel, by decide +kernel⟩) ?_
  refine Machine.Guarded.cons_final (by decide +kernel) trivial ?_
  refine Machine.Guarded.cons_final (by decide +kernel) (fun _ _ _ => ⟨0, by decide +kernel, by decide +kernel⟩) ?_
  refine Machine.Guarded.cons_final (by decide +kernel) trivial ?_
  refine Machine.Guarded.cons_final (by decide +kernel) ⟨⟨0, by decide +kernel, by decide +kernel⟩, fun h => ?_⟩ trivial
  exact absurd h (by decide +kernel)

/-- The first thread waits for the second one and is stalled. -/
def waitsAndStalls : List SmtEvent :=
  [.threadMigrate 0 (some 0), .threadMigrate 1 (some 1), .push 0 manyUops, .simulate 0 0, .threadStall 0]

/-- When the second one stalls too, the barrier is reached by threads that do not run, and the release has no end. -/
theorem smtBarrier_endless_waitsAndStalls : ¬ ∀ (cfg : SmtBarrierConfig RobSmtTimer) (core : RobSmtTimer)
    (es : List SmtEvent),
    (smtMachine cfg).Guarded (Progresses cfg) (.new core) es := by
  intro h
  have happend : (smtMachine twoWaiters).Guarded (Progresses twoWaiters) (.new (.new twoThreads))
      (waitsAndStalls ++ [.threadStall 1]) := h _ _ _
  have hrun := (smtMachine twoWaiters).run_final
    (show ((smtMachine twoWaiters).run (.new (.new twoThreads)) waitsAndStalls).isOk = true by decide +kernel)
  refine (happend.at_event hrun).ends (faultOf_eq_some.1 ?_)
  decide +kernel

end SmtTimer

end LifeSim.Rob
