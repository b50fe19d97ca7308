import Mathlib.Algebra.BigOperators.Fin
import LifeSim.Sched.Bounds
import LifeSim.Sched.MappingTable

/-!
# The moves of a mapping file happen at once

`changeMapping` goes through the lines of the mapping file one by one, and yet a cycle of moves does not move a thread
twice: the threads of a core are taken from its list by the first line about it, they are collected apart, and the lists
are joined after the last line. Rescheduling in between changes neither the lists nor the affinities.

A moved thread that has not started need not have an entry in `m_threads_runnable`, where it is looked up all the same.
Which entries are read follows from the state before the call: a thread without an entry there is never placed meanwhile.
-/

namespace LifeSim.Sched

open LifeSim.Lib

variable {cfg : Config} {s s' : Sim} {t c core time : ℕ} {clock : ℕ → ℕ}

/-! ### Faults -/

/-- The faults of placing threads. -/
def Placing (f : Fault) : Prop := f = .bounds ∨ f = .coreBusy ∨ f = .recursion

theorem setCore_placing (s : Sim) (t : ℕ) (core : Option ℕ) :
    Ensures (setCore s t core) (fun _ => True) Placing := by
  unfold setCore
  dsimp only
  split
  · exact .ok trivial
  · split
    · exact .ok trivial
    · exact .error (.inr (.inl rfl))

theorem moveThread_placing {resume : Sim → ℕ → Except Fault Sim}
    (hres : ∀ s t, Ensures (resume s t) (fun _ => True) Placing) (s : Sim) (t : ℕ) (core : Option ℕ) :
    Ensures (moveThread resume s t core) (fun _ => True) Placing := by
  cases core with
  | none =>
    rw [moveThread]
    exact setCore_placing ..
  | some core =>
    rw [moveThread]
    refine Ensures.bind (Q := fun _ => True) ?_ fun a _ => ?_
    · unfold wakeUnscheduled
      split
      · exact hres _ _
      · exact .ok trivial
    · exact (setCore_placing ..).bind fun b _ => .ok trivial

theorem resumeThread_placing {resched : Sim → ℕ → Except Fault Sim}
    (hre : ∀ s core, Ensures (resched s core) (fun _ => True) Placing) (s : Sim) (t : ℕ) :
    Ensures (resumeThread cfg resched s t) (fun _ => True) Placing := by
  unfold resumeThread scheduleIfFree
  dsimp only
  split
  · split
    · split
      · exact hre _ _
      · exact .ok trivial
    · exact .error (.inl rfl)
  · exact .error (.inl rfl)

theorem switchThread_placing {resume : Sim → ℕ → Except Fault Sim}
    (hres : ∀ s t, Ensures (resume s t) (fun _ => True) Placing) (s : Sim) (time core : ℕ) (current new : Option ℕ) :
    Ensures (switchThread resume s time core current new) (fun _ => True) Placing := by
  refine Ensures.bind (Q := fun _ => True) ?_ fun a _ => ?_
  · cases current with
    | none => exact .ok trivial
    | some t =>
      rw [unschedule]
      exact moveThread_placing (fun _ _ => .ok trivial) ..
  · cases new with
    | none => exact .ok trivial
    | some t =>
      rw [schedule]
      exact moveThread_placing hres ..

/-- Rescheduling has no other faults, at any depth. -/
theorem rescheduleDepth_placing (cfg : Config) (time depth : ℕ) (s : Sim) (core : ℕ) :
    Ensures (rescheduleDepth cfg time depth s core) (fun _ => True) Placing := by
  induction depth generalizing s core with
  | zero => exact .error (.inr (.inr rfl))
  | succ depth ih =>
    rw [rescheduleDepth, rescheduleBody]
    split
    · exact .ok trivial
    · split
      · exact .error (.inl rfl)
      · dsimp only
        split
        · exact .ok trivial
        · exact (switchThread_placing (fun _ _ => resumeThread_placing ih ..) ..).bind fun _ _ => .ok trivial

theorem applyAffinity_placing (cfg : Config) (clock : ℕ → ℕ) (s : Sim) (t : ℕ) :
    Ensures (applyAffinity cfg clock s t) (fun _ => True) Placing := by
  unfold applyAffinity
  split
  · split
    · split
      · exact .ok trivial
      · exact .error (.inl rfl)
    · exact .ok trivial
  · split
    · split
      · split
        · exact rescheduleDepth_placing ..
        · exact .ok trivial
      · exact .ok trivial
    · exact .error (.inl rfl)

/-- Moving the threads of one core to a core that exists. -/
theorem migrateThreads_placing {dest : ℕ} (hdest : dest < cfg.numCores) (s : Sim) (threads : List ℕ) :
    Ensures (threads.foldlM (migrateThread cfg clock dest) s) (fun _ => True) Placing := by
  have hkeeps : True := trivial
  refine Ensures.foldlM (fun a u _ _ => ?_) hkeeps
  unfold migrateThread
  rw [if_pos hdest]
  split
  · dsimp only
    split
    · exact .ok trivial
    · exact applyAffinity_placing ..
  · exact .error (.inl rfl)

/-! ### The entries that are read -/

/-- The threads outside `m_threads_runnable` stay where they are. -/
structure Still (s s' : Sim) : Prop where
  size : s'.runnable.size = s.runnable.size
  place : ∀ u, s.runnable.size ≤ u → (s'.info.get u).coreRunning = (s.info.get u).coreRunning

namespace Still

theorem refl (s : Sim) : Still s s := ⟨rfl, fun _ _ => rfl⟩

theorem trans {a b : Sim} (h : Still s a) (h' : Still a b) : Still s b where
  size := h'.size.trans h.size
  place u hu := (h'.place u (h.size.symm ▸ hu)).trans (h.place u hu)

theorem of_eq (hsize : s'.runnable.size = s.runnable.size) (hinfo : s'.info = s.info) : Still s s' :=
  ⟨hsize, fun u _ => by rw [hinfo]⟩

end Still

theorem setCore_still (s : Sim) (t : ℕ) (core : Option ℕ) :
    Ensures (setCore s t core) (Still s) fun _ => True := by
  unfold setCore letGo
  cases s.threadCore t <;> cases core <;> dsimp only
  · exact .ok (.of_eq rfl rfl)
  · split
    · exact .ok (.of_eq rfl rfl)
    · exact .error trivial
  · exact .ok (.of_eq rfl rfl)
  · split
    · exact .ok (.of_eq rfl rfl)
    · exact .error trivial

/-- Placing a thread that has its entry. -/
theorem schedule_still {resume : Sim → ℕ → Except Fault Sim} (ht : t < s.runnable.size)
    (hres : ∀ a, Ensures (resume a t) (Still a) fun _ => True) :
    Ensures (schedule resume s time core (some t)) (Still s) fun _ => True := by
  have hmarked : Still s ((forgetOldCore s t).modifyInfo t (ThreadInfo.scheduledIn core time)) := by
    have hforget : Still s (forgetOldCore s t) := by
      unfold forgetOldCore
      split
      · exact .of_eq rfl rfl
      · exact .refl s
    refine hforget.trans ⟨rfl, fun u hu => ?_⟩
    have hne : u ≠ t := fun heq => by
      rw [hforget.size, heq] at hu
      exact Nat.not_le_of_lt ht hu
    simp [Sim.modifyInfo, hne]
  rw [schedule, moveThread]
  generalize (forgetOldCore s t).modifyInfo t (ThreadInfo.scheduledIn core time) = a at hmarked
  have hvacated : Still s (vacate a t) := by
    refine hmarked.trans ?_
    unfold vacate
    split
    · exact .of_eq rfl rfl
    · exact .refl a
  refine Ensures.bind (Q := Still s) ?_ fun b hb => ?_
  · unfold wakeUnscheduled
    split
    · exact (hres _).mono (fun _ hd => hvacated.trans hd) fun _ => id
    · exact .ok hvacated
  · refine (setCore_still b t (some core)).bind fun d hd => .ok ?_
    split
    · exact hb.trans hd
    · exact (hb.trans hd).trans (.of_eq rfl rfl)

/-- Rescheduling an empty core reads `m_thread_info` at every index of `m_threads_runnable`, and places only threads
that are inside. -/
theorem rescheduleDepth_free (cfg : Config) (time depth : ℕ) {s : Sim} {core : ℕ} (hfree : s.coreThread core = none) :
    Ensures (rescheduleDepth cfg time depth s core) (fun b => s.runnable.size ≤ s.info.size ∧ Still s b)
      fun _ => True := by
  induction depth generalizing s core with
  | zero => exact .error trivial
  | succ depth ih =>
    rw [rescheduleDepth, rescheduleBody, hfree]
    split
    · rename_i hstarting
      cases hstarting
    · split
      · exact .error trivial
      · rename_i hsize
        have hsize := Nat.le_of_not_lt hsize
        dsimp only
        split
        · exact .ok ⟨hsize, .of_eq rfl rfl⟩
        · rw [switchThread, unschedule, ok_bind]
          refine Ensures.bind (Q := Still s) ?_ fun b hb => .ok ⟨hsize, hb.trans (.of_eq rfl rfl)⟩
          cases hpick : pickThread s time core with
          | none =>
            rw [schedule]
            exact .ok (.of_eq rfl rfl)
          | some t =>
            have hmarked : Still s (s.setCoreThread core (some t)) := .of_eq rfl rfl
            have hlt : t < (s.setCoreThread core (some t)).runnable.size := (pickThread_eligible hpick).1
            refine (schedule_still hlt fun a => ?_).mono (fun _ hb => hmarked.trans hb) fun _ => id
            unfold resumeThread scheduleIfFree
            dsimp only
            have hwoken : Still a ((a.setStatus t .running).setRunnable t true) := .of_eq rfl rfl
            split
            · split
              · split
                · rename_i hfind
                  exact (ih (findFreeCoreForThread_some hfind).2.2).mono (fun _ hb => hwoken.trans hb.2) fun _ => id
                · exact .ok hwoken
              · exact .error trivial
            · exact .error trivial

/-- The entries that the move of a thread to a core reads are there. That of `m_threads_runnable` is not read when the
thread runs on another core, and `reschedule`, which fills the new core when it is empty, reads `m_thread_info` at every
index of `m_threads_runnable`. -/
structure EntryInside (s : Sim) (dest t : ℕ) : Prop where
  info : t < s.info.size
  runnable : t < s.numThreads → t < s.runnable.size ∨
    ∃ core, (s.info.get t).coreRunning = some core ∧ core ≠ dest
  tables : t < s.numThreads → s.runnable.get t = true → (s.info.get t).coreRunning = none →
    s.coreThread dest = none → s.runnable.size ≤ s.info.size

/-- The same entries are there. -/
def SameEntries (s s' : Sim) : Prop := ∀ dest t, EntryInside s' dest t ↔ EntryInside s dest t

theorem SameEntries.trans {a b : Sim} (h : SameEntries s a) (h' : SameEntries a b) : SameEntries s b :=
  fun dest t => (h' dest t).trans (h dest t)

theorem SameEntries.of_eq (hnum : s'.numThreads = s.numThreads) (hrun : s'.runnable = s.runnable)
    (hsize : s'.info.size = s.info.size)
    (hplace : ∀ u, (s'.info.get u).coreRunning = (s.info.get u).coreRunning) (hcore : s'.coreThread = s.coreThread) :
    SameEntries s s' := by
  intro dest t
  constructor <;> rintro ⟨h1, h2, h3⟩
  · rw [hsize] at h1
    rw [hnum, hrun, hplace] at h2
    rw [hnum, hrun, hplace, hcore, hsize] at h3
    exact ⟨h1, h2, h3⟩
  · refine ⟨hsize.symm ▸ h1, ?_, ?_⟩
    · rw [hnum, hrun, hplace]
      exact h2
    · rw [hnum, hrun, hplace, hcore, hsize]
      exact h3

/-- Where `m_thread_info` is the longer table, the threads inside `m_threads_runnable` may move. -/
theorem SameEntries.of_still (hstill : Still s s') (hframe : Frame s s') (htables : s.runnable.size ≤ s.info.size) :
    SameEntries s s' := by
  have htables' : s'.runnable.size ≤ s'.info.size := by
    rw [hframe.runnable, hframe.info_size]
    exact htables
  intro dest t
  constructor <;> rintro ⟨h1, h2, -⟩
  · rw [hframe.info_size] at h1
    refine ⟨h1, fun ht => ?_, fun _ _ _ _ => htables⟩
    have h2 := h2 (hframe.numThreads.symm ▸ ht)
    rw [hframe.runnable] at h2
    by_cases hlt : t < s.runnable.size
    · exact .inl hlt
    · rw [hstill.place t (Nat.le_of_not_lt hlt)] at h2
      exact h2
  · refine ⟨hframe.info_size.symm ▸ h1, fun ht => ?_, fun _ _ _ _ => htables'⟩
    rw [hframe.numThreads] at ht
    rw [hframe.runnable]
    by_cases hlt : t < s.runnable.size
    · exact .inl hlt
    · rw [hstill.place t (Nat.le_of_not_lt hlt)]
      exact h2 ht

/-- Acting on a new affinity reads these entries, when the affinity is one core, and the others find theirs as before. -/
theorem applyAffinity_entries {dest : ℕ} (hdest : dest < cfg.numCores) (hinfo : t < s.info.size)
    (hcreated : t < s.numThreads) (haff : ∀ core, (s.info.get t).affinity core = decide (core = dest)) :
    Ensures (applyAffinity cfg clock s t) (fun b => EntryInside s dest t ∧ SameEntries s b)
      fun f => f = .bounds → ¬ EntryInside s dest t := by
  have hsame : SameEntries s s := fun _ _ => Iff.rfl
  unfold applyAffinity
  split
  · rename_i core hcore
    have hplaced (hnone : (s.info.get t).coreRunning = none) : False := by
      rw [hcore] at hnone
      cases hnone
    rw [haff]
    split
    · rename_i heq
      obtain rfl : core = dest := of_decide_eq_true heq
      split
      · rename_i hlt
        exact .ok ⟨⟨hinfo, fun _ => .inl hlt, fun _ _ hnone => (hplaced hnone).elim⟩, hsame⟩
      · rename_i hlt
        refine .error fun _ hinside => ?_
        obtain ⟨core', hcore', hne⟩ := (hinside.runnable hcreated).resolve_left hlt
        rw [hcore] at hcore'
        exact hne (Option.some.inj hcore').symm
    · rename_i hne
      have hne : core ≠ dest := fun heq => hne (decide_eq_true heq)
      exact .ok ⟨⟨hinfo, fun _ => .inr ⟨core, hcore, hne⟩, fun _ _ hnone => (hplaced hnone).elim⟩,
        .of_eq rfl rfl rfl (fun _ => rfl) rfl⟩
  · rename_i hnone
    split
    · rename_i hlt
      split
      · rename_i hruns
        split
        · rename_i core hfind
          obtain ⟨-, hcore, hfree⟩ := findFreeCoreForThread_some hfind
          rw [haff] at hcore
          obtain rfl : core = dest := of_decide_eq_true hcore
          refine ((reschedule_frame cfg s _ core).and (rescheduleDepth_free cfg _ _ hfree)).mono ?_ ?_
          · rintro b ⟨hframe, htables, hstill⟩
            exact ⟨⟨hinfo, fun _ => .inl hlt, fun _ _ _ _ => htables⟩, .of_still hstill hframe htables⟩
          · intro f hshort hf hinside
            exact Nat.not_le_of_lt (hshort hf) (hinside.tables hcreated hruns hnone hfree)
        · rename_i hfind
          refine .ok ⟨⟨hinfo, fun _ => .inl hlt, fun _ _ _ hfree => ?_⟩, hsame⟩
          have hnot := List.find?_eq_none.1 hfind dest (List.mem_range.2 hdest)
          rw [haff, hfree] at hnot
          simp at hnot
      · rename_i hrun
        exact .ok ⟨⟨hinfo, fun _ => .inl hlt, fun _ h => absurd h hrun⟩, hsame⟩
    · rename_i hlt
      refine .error fun _ hinside => ?_
      obtain ⟨core, hcore, -⟩ := (hinside.runnable hcreated).resolve_left hlt
      rw [hnone] at hcore
      cases hcore

/-- The move of one thread reads these entries, and the others find theirs as before. -/
theorem migrateThread_entries {dest : ℕ} (hdest : dest < cfg.numCores) (s : Sim) (t : ℕ) :
    Ensures (migrateThread cfg clock dest s t) (fun b => EntryInside s dest t ∧ SameEntries s b)
      fun f => f = .bounds → ¬ EntryInside s dest t := by
  unfold migrateThread
  rw [if_pos hdest]
  split
  · rename_i hinfo
    dsimp only
    generalize ha : s.modifyInfo t _ = a
    have hplace (u : ℕ) : (a.info.get u).coreRunning = (s.info.get u).coreRunning := by
      rw [← ha]
      by_cases hu : u = t
      · rw [hu]
        simp [Sim.modifyInfo, ThreadInfo.setAffinitySingle, ThreadInfo.addAffinity, ThreadInfo.clearAffinity]
      · simp [Sim.modifyInfo, hu]
    have haff (core : ℕ) : (a.info.get t).affinity core = decide (core = dest) := by
      rw [← ha]
      by_cases hc : core = dest <;>
        simp [Sim.modifyInfo, ThreadInfo.setAffinitySingle, ThreadInfo.addAffinity, ThreadInfo.clearAffinity, hc]
    have hsame : SameEntries s a := by
      rw [← ha] at hplace ⊢
      exact .of_eq rfl rfl rfl hplace rfl
    have hinfo' : t < a.info.size := by rw [← ha]; exact hinfo
    rw [← hsame dest t]
    split
    · rename_i hfuture
      have hnot (hlt : t < a.numThreads) : False := Nat.not_le_of_lt hlt hfuture
      exact .ok ⟨⟨hinfo', fun hlt => (hnot hlt).elim, fun hlt => (hnot hlt).elim⟩, hsame⟩
    · rename_i hcreated
      exact (applyAffinity_entries hdest hinfo' (Nat.lt_of_not_le hcreated) haff).mono
        (fun b hb => ⟨hb.1, hsame.trans hb.2⟩) fun _ => id
  · rename_i hinfo
    exact .error fun _ hinside => hinfo hinside.info

/-- So do the moves of several threads to one core. -/
theorem migrateThreads_entries {dest : ℕ} (hdest : dest < cfg.numCores) (s : Sim) (threads : List ℕ) :
    Ensures (threads.foldlM (migrateThread cfg clock dest) s)
      (fun b => (∀ t ∈ threads, EntryInside s dest t) ∧ SameEntries s b)
      fun f => f = .bounds → ∃ t ∈ threads, ¬ EntryInside s dest t := by
  induction threads generalizing s with
  | nil => exact .ok ⟨nofun, fun _ _ => Iff.rfl⟩
  | cons t threads ih =>
    rw [List.foldlM_cons]
    refine ((migrateThread_entries hdest s t).mono (fun _ ha => ha) fun f hf hb => ?_).bind fun a ha => ?_
    · exact ⟨t, List.mem_cons_self, hf hb⟩
    · obtain ⟨hhead, hsame⟩ := ha
      refine (ih a).mono ?_ ?_
      · rintro b ⟨hall, hsame'⟩
        refine ⟨fun u hu => ?_, hsame.trans hsame'⟩
        rcases List.mem_cons.1 hu with rfl | hu
        · exact hhead
        · exact (hsame dest u).1 (hall u hu)
      · intro f hf hb
        obtain ⟨u, hu, hout⟩ := hf hb
        exact ⟨u, List.mem_cons_of_mem t hu, fun hinside => hout ((hsame dest u).2 hinside)⟩

/-! ### The loop over the lines -/

/-- The core that the first line about a core names. -/
def firstTarget (moves : List (ℕ × ℕ)) (c : ℕ) : Option ℕ := (moves.find? fun move => move.1 = c).map Prod.snd

/-- Where the threads of a core go. -/
def mappedTo (moves : List (ℕ × ℕ)) (c : ℕ) : ℕ := (firstTarget moves c).getD c

theorem firstTarget_append (moves : List (ℕ × ℕ)) (move : ℕ × ℕ) (c : ℕ) :
    firstTarget (moves ++ [move]) c = (firstTarget moves c).or (if move.1 = c then some move.2 else none) := by
  rw [firstTarget, List.find?_append, firstTarget]
  cases moves.find? fun move => move.1 = c with
  | some m => rfl
  | none =>
    rw [Option.none_or, Option.map_none, Option.none_or, List.find?_singleton]
    split_ifs <;> simp_all

/-- The state after some lines: the lists of their cores are empty, and the threads are collected under their targets,
where alone they may run. -/
structure Collected (cfg : Config) (s : Sim) (moves : List (ℕ × ℕ)) (acc : Sim × (ℕ → List ℕ)) : Prop where
  lists : ∀ c, acc.1.threadsOnCore c = if firstTarget moves c = none then s.threadsOnCore c else []
  collected : ∀ t d, t ∈ acc.2 d ↔ ∃ c, t ∈ s.threadsOnCore c ∧ firstTarget moves c = some d
  union : ∑ c ∈ Finset.range cfg.numCores, ((acc.1.threadsOnCore c : Multiset ℕ) + acc.2 c) =
    ∑ c ∈ Finset.range cfg.numCores, (s.threadsOnCore c : Multiset ℕ)
  moved : ∀ t c d, t ∈ s.threadsOnCore c → firstTarget moves c = some d →
    ∀ core, (acc.1.info.get t).affinity core = decide (core = d)
  other : ∀ t, (∀ c, t ∈ s.threadsOnCore c → firstTarget moves c = none) →
    (acc.1.info.get t).affinity = (s.info.get t).affinity

/-- Taking the threads from one list and putting them into another one. -/
theorem sum_update_lists {n src dest : ℕ} (hsrc : src < n) (hdest : dest < n) (lists moved : ℕ → List ℕ) :
    ∑ c ∈ Finset.range n, ((Function.update lists src [] c : Multiset ℕ) +
        Function.update moved dest (moved dest ++ lists src) c) =
      ∑ c ∈ Finset.range n, ((lists c : Multiset ℕ) + moved c) := by
  have hcleared (c : ℕ) : (Function.update lists src [] c : Multiset ℕ) =
      Function.update (fun c => (lists c : Multiset ℕ)) src 0 c := by
    by_cases hc : c = src
    · subst hc
      simp
    · rw [Function.update_of_ne hc, Function.update_of_ne hc]
  have hjoined (c : ℕ) : (Function.update moved dest (moved dest ++ lists src) c : Multiset ℕ) =
      Function.update (fun c => (moved c : Multiset ℕ)) dest (moved dest + lists src) c := by
    by_cases hc : c = dest
    · subst hc
      simp
    · rw [Function.update_of_ne hc, Function.update_of_ne hc]
  have hout := Finset.add_sum_erase _ (fun c => (lists c : Multiset ℕ)) (Finset.mem_range.2 hsrc)
  have hin := Finset.add_sum_erase _ (fun c => (moved c : Multiset ℕ)) (Finset.mem_range.2 hdest)
  simp only [hcleared, hjoined, Finset.sum_add_distrib]
  rw [Finset.sum_update_of_mem (Finset.mem_range.2 hsrc), Finset.sum_update_of_mem (Finset.mem_range.2 hdest),
    ← hout, ← hin, Finset.sdiff_singleton_eq_erase, Finset.sdiff_singleton_eq_erase]
  ac_rfl

/-- One more line. -/
theorem Collected.step {moves : List (ℕ × ℕ)} {acc : Sim × (ℕ → List ℕ)} (h : Collected cfg s moves acc)
    (hdisjoint : ∀ t c d, t ∈ s.threadsOnCore c → t ∈ s.threadsOnCore d → c = d) (move : ℕ × ℕ)
    (hmove : move.1 < cfg.numCores ∧ move.2 < cfg.numCores) :
    Ensures (migrateCore cfg clock acc move) (Collected cfg s (moves ++ [move])) Placing := by
  obtain ⟨a, moved⟩ := acc
  obtain ⟨src, dest⟩ := move
  obtain ⟨hlists, hcollected, hunion, hmoved, hother⟩ := h
  dsimp only at hlists hcollected hunion hmoved hother hmove
  unfold migrateCore
  rw [if_pos hmove.1]
  refine ((migrateThreads_placing hmove.2 a (a.threadsOnCore src)).and
    (migrateThreads_spec cfg clock dest a (a.threadsOnCore src))).bind ?_
  rintro b ⟨-, hb, -⟩
  have htarget (c : ℕ) : firstTarget (moves ++ [(src, dest)]) c =
      (firstTarget moves c).or (if src = c then some dest else none) := firstTarget_append ..
  -- the line moves the threads that are still in the list of its core
  have htaken (u : ℕ) : u ∈ a.threadsOnCore src ↔ u ∈ s.threadsOnCore src ∧ firstTarget moves src = none := by
    rw [hlists]
    split_ifs with hnone <;> simp [hnone]
  refine .ok ⟨fun c => ?_, fun u d => ?_, ?_, fun u c d hu hd core => ?_, fun u hu => ?_⟩
  · dsimp only
    rw [htarget]
    by_cases hc : c = src
    · subst hc
      rw [Function.update_self, if_pos rfl]
      cases firstTarget moves c <;> rfl
    · rw [Function.update_of_ne hc, hb.lists, hlists, if_neg (Ne.symm hc), Option.or_none]
  · dsimp only
    by_cases hd : d = dest
    · subst hd
      rw [Function.update_self, List.mem_append, hcollected, htaken]
      constructor
      · rintro (⟨c, hc, hfirst⟩ | ⟨hsrc, hnone⟩)
        · exact ⟨c, hc, by rw [htarget, hfirst, Option.some_or]⟩
        · exact ⟨src, hsrc, by rw [htarget, hnone, if_pos rfl, Option.none_or]⟩
      · rintro ⟨c, hc, hfirst⟩
        rw [htarget] at hfirst
        cases hold : firstTarget moves c with
        | some e =>
          rw [hold, Option.some_or] at hfirst
          exact .inl ⟨c, hc, hold.trans hfirst⟩
        | none =>
          rw [hold, Option.none_or] at hfirst
          split_ifs at hfirst with hsrc
          subst hsrc
          exact .inr ⟨hc, hold⟩
    · rw [Function.update_of_ne hd, hcollected]
      refine exists_congr fun c => and_congr_right fun _ => ?_
      rw [htarget]
      cases firstTarget moves c with
      | some e => rw [Option.some_or]
      | none =>
        rw [Option.none_or]
        split_ifs
        · simp [Ne.symm hd]
        · exact Iff.rfl
  · dsimp only
    rw [hb.lists, sum_update_lists hmove.1 hmove.2 a.threadsOnCore moved]
    exact hunion
  · dsimp only
    rw [htarget] at hd
    cases hold : firstTarget moves c with
    | some e =>
      rw [hold, Option.some_or, Option.some.injEq] at hd
      subst hd
      have hnot : u ∉ a.threadsOnCore src := fun hmem => by
        obtain ⟨hsrc, hnone⟩ := (htaken u).1 hmem
        rw [hdisjoint u src c hsrc hu, hold] at hnone
        cases hnone
      rw [(hb.other u hnot).1]
      exact hmoved u c e hu hold core
    | none =>
      rw [hold, Option.none_or] at hd
      split_ifs at hd with hsrc
      subst hsrc
      rw [Option.some.injEq] at hd
      subst hd
      exact hb.moved u ((htaken u).2 ⟨hu, hold⟩) core
  · dsimp only
    have hnone (c : ℕ) (hc : u ∈ s.threadsOnCore c) : firstTarget moves c = none ∧ src ≠ c := by
      have hall := hu c hc
      rw [htarget] at hall
      cases hold : firstTarget moves c with
      | some e =>
        rw [hold] at hall
        cases hall
      | none =>
        rw [hold, Option.none_or] at hall
        refine ⟨rfl, fun hsrc => ?_⟩
        rw [if_pos hsrc] at hall
        cases hall
    have hnot : u ∉ a.threadsOnCore src := fun hmem => (hnone src ((htaken u).1 hmem).1).2 rfl
    rw [(hb.other u hnot).1]
    exact hother u fun c hc => (hnone c hc).1

/-- The threads that the lines move have the entries that are read. -/
def MovesRead (moves : List (ℕ × ℕ)) (s : Sim) : Prop :=
  ∀ c d, firstTarget moves c = some d → ∀ t ∈ s.threadsOnCore c, EntryInside s d t

theorem MovesRead.of_append {moves more : List (ℕ × ℕ)} (h : MovesRead (moves ++ more) s) : MovesRead moves s := by
  intro c d hd
  refine h c d ?_
  rw [firstTarget, Option.map_eq_some_iff] at hd ⊢
  obtain ⟨move, hfind, hdest⟩ := hd
  exact ⟨move, by rw [List.find?_append, hfind, Option.some_or], hdest⟩

/-- One more line moves the threads that are still in the list of its core. -/
theorem Collected.movesRead {moves : List (ℕ × ℕ)} {acc : Sim × (ℕ → List ℕ)} (h : Collected cfg s moves acc)
    (move : ℕ × ℕ) :
    MovesRead (moves ++ [move]) s ↔
      MovesRead moves s ∧ ∀ t ∈ acc.1.threadsOnCore move.1, EntryInside s move.2 t := by
  obtain ⟨src, dest⟩ := move
  dsimp only
  rw [h.lists src]
  constructor
  · refine fun hall => ⟨hall.of_append, fun t ht => ?_⟩
    split_ifs at ht with hnone
    · refine hall src dest ?_ t ht
      rw [firstTarget_append, hnone, Option.none_or, if_pos rfl]
    · cases ht
  · rintro ⟨hall, hmove⟩ c d hd t ht
    rw [firstTarget_append] at hd
    cases hold : firstTarget moves c with
    | some e =>
      rw [hold, Option.some_or] at hd
      exact hall c d (hold.trans hd) t ht
    | none =>
      rw [hold, Option.none_or] at hd
      split_ifs at hd with hsrc
      subst hsrc
      rw [Option.some.injEq] at hd
      subst hd
      rw [if_pos hold] at hmove
      exact hmove t ht

/-- One line reads the entries of the threads it moves. -/
theorem migrateCore_entries (acc : Sim × (ℕ → List ℕ)) (move : ℕ × ℕ)
    (hmove : move.1 < cfg.numCores ∧ move.2 < cfg.numCores) :
    Ensures (migrateCore cfg clock acc move)
      (fun r => (∀ t ∈ acc.1.threadsOnCore move.1, EntryInside acc.1 move.2 t) ∧ SameEntries acc.1 r.1)
      fun f => f = .bounds → ∃ t ∈ acc.1.threadsOnCore move.1, ¬ EntryInside acc.1 move.2 t := by
  unfold migrateCore
  rw [if_pos hmove.1]
  exact (migrateThreads_entries hmove.2 acc.1 (acc.1.threadsOnCore move.1)).bind fun b hb =>
    .ok ⟨hb.1, hb.2.trans (.of_eq rfl rfl rfl (fun _ => rfl) rfl)⟩

/-- The loop over the lines ends outside a vector exactly where an entry is missing. -/
theorem Collected.foldlM {done : List (ℕ × ℕ)} {acc : Sim × (ℕ → List ℕ)} (h : Collected cfg s done acc)
    (hsame : SameEntries s acc.1) (hread : MovesRead done s)
    (hdisjoint : ∀ t c d, t ∈ s.threadsOnCore c → t ∈ s.threadsOnCore d → c = d) (moves : List (ℕ × ℕ))
    (hmoves : ∀ move ∈ moves, move.1 < cfg.numCores ∧ move.2 < cfg.numCores) :
    Ensures (moves.foldlM (migrateCore cfg clock) acc)
      (fun r => Collected cfg s (done ++ moves) r ∧ MovesRead (done ++ moves) s)
      fun f => Placing f ∧ (f = .bounds → ¬ MovesRead (done ++ moves) s) := by
  induction moves generalizing done acc with
  | nil =>
    rw [List.append_nil]
    exact .ok ⟨h, hread⟩
  | cons move moves ih =>
    have hmove := hmoves move List.mem_cons_self
    rw [List.foldlM_cons, ← List.singleton_append, ← List.append_assoc]
    have hsteps := @Collected.step cfg s clock done acc h hdisjoint move hmove
    have hentries := @migrateCore_entries cfg clock acc move hmove
    cases hresult : migrateCore cfg clock acc move with
    | error f =>
      refine .error ⟨hsteps.of_error hresult, fun hb hall => ?_⟩
      obtain ⟨t, ht, hout⟩ := hentries.of_error hresult hb
      exact hout ((hsame move.2 t).2 (((h.movesRead move).1 hall.of_append).2 t ht))
    | ok acc' =>
      obtain ⟨hinside, hsame'⟩ := hentries.of_ok hresult
      refine ih (hsteps.of_ok hresult) (hsame.trans hsame') ((h.movesRead move).2 ⟨hread, fun t ht => ?_⟩)
        fun m hm => hmoves m (List.mem_cons_of_mem move hm)
      exact (hsame move.2 t).1 (hinside t ht)

/-- The moves of a mapping file at once: a thread in the list of a core is afterwards in the list of the core that the
first line about its core names, and may run there only. -/
structure Remapped (cfg : Config) (moves : List (ℕ × ℕ)) (s s' : Sim) : Prop where
  listed : ∀ t d, t ∈ s'.threadsOnCore d ↔ ∃ c, t ∈ s.threadsOnCore c ∧ mappedTo moves c = d
  union : ∑ c ∈ Finset.range cfg.numCores, (s'.threadsOnCore c : Multiset ℕ) =
    ∑ c ∈ Finset.range cfg.numCores, (s.threadsOnCore c : Multiset ℕ)
  moved : ∀ t c, t ∈ s.threadsOnCore c → (∃ move ∈ moves, move.1 = c) →
    ∀ d, (s'.info.get t).affinity d = true ↔ d = mappedTo moves c
  other : ∀ t, (∀ c, t ∈ s.threadsOnCore c → ∀ move ∈ moves, move.1 ≠ c) →
    (s'.info.get t).affinity = (s.info.get t).affinity

theorem firstTarget_eq_none {moves : List (ℕ × ℕ)} : firstTarget moves c = none ↔ ∀ move ∈ moves, move.1 ≠ c := by
  simp [firstTarget]

/-- Joining the lists after the last line. -/
theorem Collected.remapped {moves : List (ℕ × ℕ)} {acc : Sim × (ℕ → List ℕ)} (h : Collected cfg s moves acc) :
    Remapped cfg moves s { acc.1 with threadsOnCore := fun c => acc.1.threadsOnCore c ++ acc.2 c } := by
  refine ⟨fun t d => ?_, ?_, fun t c ht hmove d => ?_, fun t ht => ?_⟩
  · dsimp only
    rw [List.mem_append, h.lists, h.collected]
    constructor
    · rintro (hstay | ⟨c, hc, hfirst⟩)
      · split_ifs at hstay with hnone
        · exact ⟨d, hstay, by rw [mappedTo, hnone, Option.getD_none]⟩
        · cases hstay
      · exact ⟨c, hc, by rw [mappedTo, hfirst, Option.getD_some]⟩
    · rintro ⟨c, hc, htarget⟩
      rw [mappedTo] at htarget
      cases hfirst : firstTarget moves c with
      | some e =>
        rw [hfirst, Option.getD_some] at htarget
        exact .inr ⟨c, hc, htarget ▸ hfirst⟩
      | none =>
        rw [hfirst, Option.getD_none] at htarget
        subst htarget
        rw [if_pos hfirst]
        exact .inl hc
  · rw [← h.union]
    exact Finset.sum_congr rfl fun c _ => (Multiset.coe_add _ _).symm
  · dsimp only
    cases hfirst : firstTarget moves c with
    | none =>
      obtain ⟨move, hmem, hsource⟩ := hmove
      exact absurd hsource (firstTarget_eq_none.1 hfirst move hmem)
    | some e =>
      rw [h.moved t c e ht hfirst, mappedTo, hfirst, Option.getD_some, decide_eq_true_iff]
  · exact h.other t fun c hc => firstTarget_eq_none.2 (ht c hc)

/-- `changeMapping` moves the threads of all cores at once, for any lines between cores that exist, exactly where the
threads it moves have the entries that it reads, and with the flag zero it does nothing. The records of the placement
agree in every state that a run reaches. -/
theorem changeMapping_simultaneous (cfg : Config) (clock : ℕ → ℕ) (s : Sim) (hlinked : Linked cfg ∅ s)
    (hdisjoint : ∀ t c d, t ∈ s.threadsOnCore c → t ∈ s.threadsOnCore d → c = d) :
    changeMapping cfg clock s none = .ok s ∧
    ∀ moves, (∀ move ∈ moves, move.1 < cfg.numCores ∧ move.2 < cfg.numCores) →
      ((∃ s', changeMapping cfg clock s (some moves) = .ok s' ∧ Remapped cfg moves s s') ↔ MovesRead moves s) := by
  refine ⟨rfl, fun moves hmoves => ?_⟩
  have hstart : Collected cfg s [] (s, fun _ => []) :=
    ⟨fun _ => rfl, fun t d => by simp [firstTarget], by simp,
      fun t c d _ hd => absurd hd (by simp [firstTarget]), fun t _ => rfl⟩
  have hnone : MovesRead [] s := fun c d hd => absurd hd (by simp [firstTarget])
  have hmoved : Ensures (changeMapping cfg clock s (some moves)) (fun s' => Remapped cfg moves s s' ∧ MovesRead moves s)
      fun f => Placing f ∧ (f = .bounds → ¬ MovesRead moves s) :=
    (hstart.foldlM (fun _ _ => Iff.rfl) hnone hdisjoint moves hmoves).bind fun acc hacc => .ok ⟨hacc.1.remapped, hacc.2⟩
  have hsafe := @changeMapping_linked cfg s clock hlinked (some moves)
  refine ⟨?_, fun hread => ?_⟩
  · rintro ⟨s', hok, -⟩
    exact (hmoved.of_ok hok).2
  · cases hresult : changeMapping cfg clock s (some moves) with
    | ok s' => exact ⟨s', rfl, (hmoved.of_ok hresult).1⟩
    | error f =>
      obtain ⟨hbusy, hrecursion⟩ := hsafe.of_error hresult
      obtain ⟨hplacing, hbounds⟩ := hmoved.of_error hresult
      rcases hplacing with rfl | rfl | rfl
      · exact absurd hread (hbounds rfl)
      · exact absurd rfl hbusy
      · exact absurd rfl hrecursion

/-- Three threads in the lists of three cores. -/
def threeListed : Sim :=
  { initial (fun _ _ => none) with
    numThreads := 3
    info := ⟨16, fun _ => .fresh⟩
    threadsOnCore := fun c => if c < 3 then [c] else [] }

/-- A cycle of moves, a second line about one of the cores, and a line that moves a core to itself. -/
def cycleLines : List (ℕ × ℕ) := [(0, 1), (1, 2), (2, 0), (0, 2), (1, 1)]

theorem changeMapping_simultaneous_cycle :
    ∃ s', changeMapping { mappedCores with numCores := 3 } (fun _ => 0) threeListed (some cycleLines) = .ok s' ∧
      Remapped { mappedCores with numCores := 3 } cycleLines threeListed s' := by
  have honly {t c : ℕ} (hc : t ∈ threeListed.threadsOnCore c) : t = c ∧ t < 3 := by
    change t ∈ (if c < 3 then [c] else []) at hc
    split_ifs at hc with hlt
    · have heq := List.mem_singleton.1 hc
      exact ⟨heq, heq ▸ hlt⟩
    · cases hc
  refine ((changeMapping_simultaneous { mappedCores with numCores := 3 } (fun _ => 0) threeListed ?_
    fun t c d hc hd => (honly hc).1.symm.trans (honly hd).1).2 cycleLines (by decide)).2 ?_
  · constructor
    · simp [threeListed, initial, ThreadInfo.fresh]
    · simp [threeListed, initial, ThreadInfo.fresh]
    · simp [threeListed, initial]
    · simp
    · simp [threeListed, initial]
    · simp [threeListed, initial]
  · intro c d _ t ht
    have hlt := (honly ht).2
    refine ⟨?_, fun _ => .inl ?_, fun _ _ _ _ => ?_⟩
    · change t < 16
      omega
    · change t < 16
      omega
    · exact le_rfl

/-- Seventeen threads share a core, and the last of them has not started. -/
def sixteenStarted : List Call :=
  List.replicate 17 ((Event.create 0).at 0) ++ (List.range 16).map fun t => (Event.start t).at 0

/-- Moving the threads of that core looks up the last one in `m_threads_runnable`, which has 16 entries. -/
theorem changeMapping_outside :
    let s := (machine mappedCores).final (initial fun _ _ => none) sixteenStarted
    (machine mappedCores).Reachable (initial fun _ _ => none) s ∧
      s.threadsOnCore 0 = List.range 17 ∧ s.threadsOnCore 1 = [] ∧
      changeMapping mappedCores (fun _ => 0) s (some [(0, 1)]) = .error .bounds :=
  ⟨⟨sixteenStarted, (machine mappedCores).run_final (by decide +kernel)⟩, by decide +kernel, by decide +kernel,
    faultOf_eq_some.1 (by decide +kernel)⟩

end LifeSim.Sched
