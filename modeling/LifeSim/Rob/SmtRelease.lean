import LifeSim.Rob.SmtBarrier

/-!
# Releases of the barrier

A release that has a running thread to release comes to an end: the limit of its second loop is at some point above the
surplus of this thread. Then there is a running thread that goes on, and after a release of all threads only those with
enough micro-ops wait. The calling thread is the exception: it is told so by the result, and it is not signalled.
-/

namespace LifeSim.Rob

open LifeSim.Lib

variable {κ : Type} {cfg : SmtBarrierConfig κ}

/-! ### What a release changes -/

/-- Threads leave the barrier, and nothing else changes. -/
structure SmtTimer.Frame (me : Option ℕ) (s s' : SmtTimer κ) : Prop where
  core : s'.core = s.core
  inSync : s'.inSync = s.inSync
  told : s'.told = s.told
  running : ∀ i, (s'.threads i).running = (s.threads i).running
  inBarrier : ∀ i, (s'.threads i).inBarrier = true → (s.threads i).inBarrier = true
  me : ∀ i, me = some i → (s'.threads i).inBarrier = (s.threads i).inBarrier

namespace SmtTimer

variable {me : Option ℕ} {s s' s'' : SmtTimer κ} {i j : ℕ}

theorem Frame.rfl : Frame me s s := ⟨by rfl, by rfl, by rfl, fun _ => by rfl, fun _ => id, fun _ _ => by rfl⟩

theorem Frame.trans (h : Frame me s s') (h' : Frame me s' s'') : Frame me s s'' where
  core := h'.core.trans h.core
  inSync := h'.inSync.trans h.inSync
  told := h'.told.trans h.told
  running i := (h'.running i).trans (h.running i)
  inBarrier i hi := h.inBarrier i (h'.inBarrier i hi)
  me i hi := (h'.me i hi).trans (h.me i hi)

theorem modifyThread_threads (s : SmtTimer κ) (i : ℕ) (f : SmtThread → SmtThread) (j : ℕ) :
    (s.modifyThread i f).threads j = if j = i then f (s.threads i) else s.threads j := Function.update_apply ..

theorem signal_threads (i j : ℕ) : (s.signal i).threads j =
    if j = i then { s.threads i with inBarrier := false, signalled := (s.threads i).signalled + 1 } else s.threads j :=
  modifyThread_threads ..

theorem Frame.signal (hi : me ≠ some i) : Frame me s (s.signal i) := by
  refine ⟨by rfl, by rfl, by rfl, fun j => ?_, fun j hj => ?_, fun j hj => ?_⟩
  · rw [signal_threads]
    split_ifs with hji
    · rw [hji]
    · rfl
  · rw [signal_threads] at hj
    split_ifs at hj
    exact hj
  · rw [signal_threads, if_neg]
    intro hji
    exact hi (hji ▸ hj)

/-- A running thread that is not in the barrier. -/
def GoesOn (s : SmtTimer κ) (i : ℕ) : Prop := (s.threads i).running = true ∧ (s.threads i).inBarrier = false

/-- A running thread that is in the barrier. -/
def Waits (s : SmtTimer κ) (i : ℕ) : Prop := (s.threads i).running = true ∧ (s.threads i).inBarrier = true

theorem Frame.goesOn (h : Frame me s s') (hi : s.GoesOn i) : s'.GoesOn i := by
  refine ⟨(h.running i).trans hi.1, ?_⟩
  cases hin : (s'.threads i).inBarrier with
  | false => rfl
  | true =>
    have hold := h.inBarrier i hin
    rw [hi.2] at hold
    exact hold.symm

end SmtTimer

namespace Releasing

variable {all : Bool} {me : Option ℕ} {r r' : Releasing κ} {i j limit n : ℕ} {is : List ℕ}

/-- A running thread that goes on, or the calling thread when it is told to. -/
def Moves (me : Option ℕ) (r : Releasing κ) (i : ℕ) : Prop :=
  r.timer.GoesOn i ∨ (me = some i ∧ (r.timer.threads i).running = true ∧ r.releaseMe = true)

/-- What the loops keep: there is a thread that goes on if one has been counted, and a running thread that has been
released is counted. -/
structure Follows (n : ℕ) (me : Option ℕ) (r r' : Releasing κ) : Prop where
  frame : SmtTimer.Frame me r.timer r'.timer
  numRunning : r.numRunning ≤ r'.numRunning
  releaseMe : r.releaseMe = true → r'.releaseMe = true
  moves : r.numRunning < r'.numRunning → ∃ i < n, Moves me r' i
  waits : ∀ i, r.timer.Waits i → r.numRunning < r'.numRunning ∨ r'.timer.Waits i

theorem Moves.mono (hframe : SmtTimer.Frame me r.timer r'.timer) (hme : r.releaseMe = true → r'.releaseMe = true)
    (h : Moves me r i) : Moves me r' i := by
  rcases h with h | ⟨hi, hrunning, h⟩
  · exact .inl (hframe.goesOn h)
  · exact .inr ⟨hi, (hframe.running i).trans hrunning, hme h⟩

theorem Follows.rfl : Follows n me r r := ⟨.rfl, le_rfl, id, fun h => absurd h (lt_irrefl _), fun _ h => .inr h⟩

theorem Follows.trans {r'' : Releasing κ} (h : Follows n me r r') (h' : Follows n me r' r'') :
    Follows n me r r'' := by
  refine ⟨h.frame.trans h'.frame, h.numRunning.trans h'.numRunning, fun hr => h'.releaseMe (h.releaseMe hr),
    fun hlt => ?_,
    fun i hi => ?_⟩
  · rcases h'.numRunning.lt_or_eq with hlater | heq
    · exact h'.moves hlater
    · obtain ⟨i, hi, hmoves⟩ := h.moves (heq ▸ hlt)
      exact ⟨i, hi, hmoves.mono h'.frame h'.releaseMe⟩
  · rcases h.waits i hi with hlt | hi
    · exact .inl (hlt.trans_le h'.numRunning)
    · exact (h'.waits i hi).imp_left h.numRunning.trans_lt

theorem count_timer (r : Releasing κ) (i : ℕ) : (r.count i).timer = r.timer := by
  rw [count]
  split_ifs <;> rfl

theorem count_releaseMe (r : Releasing κ) (i : ℕ) : (r.count i).releaseMe = r.releaseMe := by
  rw [count]
  split_ifs <;> rfl

theorem count_numRunning (r : Releasing κ) (i : ℕ) :
    (r.count i).numRunning = r.numRunning + if (r.timer.threads i).running then 1 else 0 := by
  rw [count]
  split_ifs <;> rfl

theorem release_numRunning (r : Releasing κ) (i : ℕ) : (r.release me i).numRunning = r.numRunning := by
  rw [release]
  split_ifs <;> rfl

/-- A running thread outside of the barrier is counted. -/
theorem follows_count (hi : i < n) (hin : (r.timer.threads i).inBarrier = false) : Follows n me r (r.count i) := by
  refine ⟨?_, ?_, ?_, fun hlt => ⟨i, hi, .inl ?_⟩, fun j hj => .inr ?_⟩
  · rw [count_timer]
    exact .rfl
  · rw [count_numRunning]
    exact Nat.le_add_right _ _
  · rw [count_releaseMe]
    exact id
  · rw [count_numRunning] at hlt
    rw [count_timer]
    refine ⟨?_, hin⟩
    by_contra hrunning
    rw [if_neg hrunning] at hlt
    exact absurd hlt (lt_irrefl _)
  · rwa [count_timer]

theorem release_frame (r : Releasing κ) (me : Option ℕ) (i : ℕ) : SmtTimer.Frame me r.timer (r.release me i).timer := by
  rw [release]
  split_ifs with hme
  · exact .rfl
  · exact .signal hme

/-- What has been released, goes on. -/
theorem release_moves (r : Releasing κ) (me : Option ℕ) (hrunning : (r.timer.threads i).running = true) :
    Moves me (r.release me i) i := by
  rw [release]
  split_ifs with hme
  · exact .inr ⟨hme, hrunning, rfl⟩
  · refine .inl ?_
    rw [SmtTimer.GoesOn, SmtTimer.signal_threads, if_pos rfl]
    exact ⟨hrunning, rfl⟩

theorem follows_release (hi : i < n) (r : Releasing κ) : Follows n me r ((r.count i).release me i) := by
  refine ⟨?_, ?_, fun hr => ?_, fun hlt => ⟨i, hi, release_moves _ me ?_⟩, fun j hj => ?_⟩
  · have hframe := release_frame (r.count i) me i
    rwa [count_timer] at hframe
  · rw [release_numRunning, count_numRunning]
    exact Nat.le_add_right _ _
  · rw [release]
    split_ifs
    · rfl
    · exact (count_releaseMe r i).trans hr
  · rw [release_numRunning, count_numRunning] at hlt
    rw [count_timer]
    by_contra hrunning
    rw [if_neg hrunning] at hlt
    exact absurd hlt (lt_irrefl _)
  · by_cases hji : j = i
    · left
      rw [release_numRunning, count_numRunning, ← hji, if_pos hj.1]
      exact Nat.lt_succ_self _
    · right
      rw [release]
      split_ifs
      · rwa [count_timer]
      · rw [SmtTimer.Waits, SmtTimer.signal_threads, if_neg hji, count_timer]
        exact hj

theorem follows_choose (n : ℕ) (r : Releasing κ) (i : ℕ) : Follows n me r (r.choose i) :=
  ⟨⟨rfl, rfl, rfl, fun _ => rfl, fun _ => id, fun _ _ => rfl⟩, le_rfl, id, fun h => absurd h (lt_irrefl _),
    fun _ h => .inr h⟩

variable (cfg all me) in
theorem releaseLoop_follows (his : ∀ i ∈ is, i < n) (r : Releasing κ) :
    Follows n me r (releaseLoop cfg all me is r) := by
  induction is generalizing r with
  | nil => exact .rfl
  | cons i is ih =>
    have hi := his i List.mem_cons_self
    have hrest : ∀ i ∈ is, i < n := fun j hj => his j (List.mem_cons_of_mem i hj)
    rw [releaseLoop]
    split_ifs with hin henough hall
    · exact (follows_count hi hin).trans (ih hrest _)
    · exact ih hrest r
    · exact (follows_release hi r).trans (ih hrest _)
    · exact (follows_release hi r).trans (follows_choose n _ i)

variable (cfg all me limit) in
theorem limitRound_follows (his : ∀ i ∈ is, i < n) (r : Releasing κ) :
    Follows n me r (limitRound cfg all me limit is r) := by
  induction is generalizing r with
  | nil => exact .rfl
  | cons i is ih =>
    have hi := his i List.mem_cons_self
    have hrest : ∀ i ∈ is, i < n := fun j hj => his j (List.mem_cons_of_mem i hj)
    rw [limitRound]
    split_ifs with hwaits hall
    · exact (follows_release hi r).trans (ih hrest _)
    · exact (follows_release hi r).trans (follows_choose n _ i)
    · exact ih hrest r

variable (cfg me) in
/-- A release of all threads visits one. -/
def visit (r : Releasing κ) (i : ℕ) : Releasing κ :=
  if (r.timer.threads i).inBarrier = false then r.count i
  else if r.timer.hasEnough cfg i then r
  else (r.count i).release me i

theorem releaseLoop_cons (i : ℕ) (is : List ℕ) (r : Releasing κ) :
    releaseLoop cfg true me (i :: is) r = releaseLoop cfg true me is (r.visit cfg me i) := by
  rw [releaseLoop, visit, if_pos rfl]
  split_ifs <;> rfl

theorem visit_follows (hi : i < n) (r : Releasing κ) : Follows n me r (r.visit cfg me i) := by
  rw [visit]
  split_ifs with hin
  · exact follows_count hi hin
  · exact .rfl
  · exact follows_release hi r

variable (cfg me) in
/-- A release of all threads counts those that go on. -/
theorem releaseLoop_counts (his : ∀ i ∈ is, i < n) (hi : i ∈ is) (hgoes : r.timer.GoesOn i) :
    r.numRunning < (releaseLoop cfg true me is r).numRunning := by
  induction is generalizing r with
  | nil => cases hi
  | cons k is ih =>
    have hrest : ∀ j ∈ is, j < n := fun j hj => his j (List.mem_cons_of_mem k hj)
    have hvisit : Follows n me r (r.visit cfg me k) := visit_follows (his k List.mem_cons_self) r
    rw [releaseLoop_cons]
    rcases List.mem_cons.1 hi with rfl | hmem
    · refine lt_of_lt_of_le ?_ (releaseLoop_follows cfg true me hrest _).numRunning
      rw [visit, if_pos hgoes.2, count_numRunning, if_pos hgoes.1]
      exact Nat.lt_succ_self _
    · exact hvisit.numRunning.trans_lt (ih hrest hmem (hvisit.frame.goesOn hgoes))

/-- Whoever is left in the barrier by a release of all threads has enough micro-ops, or has called. -/
theorem releaseLoop_hasEnough (his : ∀ i ∈ is, i < n) (hi : i ∈ is)
    (hin : ((releaseLoop cfg true me is r).timer.threads i).inBarrier = true) :
    r.timer.hasEnough cfg i = true ∨ me = some i := by
  induction is generalizing r with
  | nil => cases hi
  | cons k is ih =>
    have hrest : ∀ j ∈ is, j < n := fun j hj => his j (List.mem_cons_of_mem k hj)
    have hvisit : Follows n me r (r.visit cfg me k) := visit_follows (his k List.mem_cons_self) r
    rw [releaseLoop_cons] at hin
    rcases List.mem_cons.1 hi with rfl | hmem
    · have hstays := (releaseLoop_follows cfg true me hrest (r.visit cfg me i)).frame.inBarrier i hin
      rw [visit] at hstays
      split_ifs at hstays with hout henough
      · rw [count_timer, hout] at hstays
        cases hstays
      · exact .inl henough
      · rw [release] at hstays
        split_ifs at hstays with hme
        · exact .inr hme
        · rw [SmtTimer.signal_threads, if_pos rfl] at hstays
          cases hstays
    · have hold := ih hrest hmem hin
      rwa [SmtTimer.hasEnough, hvisit.frame.core] at hold

/-- The calling thread is released because it has too few micro-ops. -/
theorem releaseLoop_releaseMe (his : ∀ i ∈ is, i < n) (hme : (releaseLoop cfg true me is r).releaseMe = true) :
    r.releaseMe = true ∨ ∃ i, me = some i ∧ r.timer.hasEnough cfg i = false := by
  induction is generalizing r with
  | nil => exact .inl hme
  | cons k is ih =>
    have hrest : ∀ j ∈ is, j < n := fun j hj => his j (List.mem_cons_of_mem k hj)
    have hvisit : Follows n me r (r.visit cfg me k) := visit_follows (his k List.mem_cons_self) r
    rw [releaseLoop_cons] at hme
    rcases ih hrest hme with hme | ⟨i, hi, hfew⟩
    · rw [visit] at hme
      split_ifs at hme with hout henough
      · rw [count_releaseMe] at hme
        exact .inl hme
      · exact .inl hme
      · rw [release] at hme
        split_ifs at hme with hk
        · exact .inr ⟨k, hk, Bool.eq_false_iff.2 henough⟩
        · rw [count_releaseMe] at hme
          exact .inl hme
    · rw [SmtTimer.hasEnough, hvisit.frame.core] at hfew
      exact .inr ⟨i, hi, hfew⟩

variable (cfg all me) in
/-- A round counts a thread below the limit. -/
theorem limitRound_counts (his : ∀ i ∈ is, i < n) (hi : i ∈ is) (hwaits : r.timer.Waits i)
    (hlt : r.timer.surplus cfg i < limit) :
    r.numRunning < (limitRound cfg all me limit is r).numRunning := by
  induction is generalizing r with
  | nil => cases hi
  | cons k is ih =>
    have hrest : ∀ j ∈ is, j < n := fun j hj => his j (List.mem_cons_of_mem k hj)
    rw [limitRound]
    split_ifs with hk hall
    · refine lt_of_lt_of_le ?_ (limitRound_follows cfg _ me limit hrest _).numRunning
      rw [release_numRunning, count_numRunning, if_pos hk.2.1]
      exact Nat.lt_succ_self _
    · rw [choose, release_numRunning, count_numRunning, if_pos hk.2.1]
      exact Nat.lt_succ_self _
    · rcases List.mem_cons.1 hi with rfl | hmem
      · exact absurd ⟨hwaits.2, hwaits.1, hlt⟩ hk
      · exact ih hrest hmem hwaits hlt

/-- A round that counts no thread does nothing. -/
theorem limitRound_eq (his : ∀ i ∈ is, i < n) (hnone : (limitRound cfg all me limit is r).numRunning = r.numRunning) :
    limitRound cfg all me limit is r = r := by
  induction is with
  | nil => rfl
  | cons k is ih =>
    have hrest : ∀ j ∈ is, j < n := fun j hj => his j (List.mem_cons_of_mem k hj)
    by_cases hk : (r.timer.threads k).inBarrier ∧ (r.timer.threads k).running ∧ r.timer.surplus cfg k < limit
    · have hcounts := limitRound_counts cfg all me his List.mem_cons_self ⟨hk.2.1, hk.1⟩ hk.2.2
      exact absurd hnone hcounts.ne'
    · rw [limitRound, if_neg hk] at hnone ⊢
      exact ih hrest hnone

/-- A round that releases all threads below the limit leaves none of them in the barrier but the calling one. -/
theorem limitRound_above (his : ∀ i ∈ is, i < n) (hi : i ∈ is) (hlt : r.timer.surplus cfg i < limit)
    (hwaits : (limitRound cfg true me limit is r).timer.Waits i) : me = some i := by
  induction is generalizing r with
  | nil => cases hi
  | cons k is ih =>
    have hrest : ∀ j ∈ is, j < n := fun j hj => his j (List.mem_cons_of_mem k hj)
    have hrelease : Follows n me r ((r.count k).release me k) := follows_release (his k List.mem_cons_self) r
    rw [limitRound, if_pos rfl] at hwaits
    split_ifs at hwaits with hk
    · rcases List.mem_cons.1 hi with rfl | hmem
      · have hstays := (limitRound_follows cfg true me limit hrest ((r.count i).release me i)).frame.inBarrier i hwaits.2
        rw [release] at hstays
        split_ifs at hstays with hme
        · exact hme
        · rw [SmtTimer.signal_threads, if_pos rfl] at hstays
          cases hstays
      · refine ih hrest hmem ?_ hwaits
        rwa [SmtTimer.surplus, hrelease.frame.core]
    · rcases List.mem_cons.1 hi with rfl | hmem
      · have hframe := (limitRound_follows cfg true me limit hrest r).frame
        have hrunning := (hframe.running i).symm.trans hwaits.1
        exact absurd ⟨hframe.inBarrier i hwaits.2, hrunning, hlt⟩ hk
      · exact ih hrest hmem hlt hwaits

/-- The calling thread is released because it is below the limit. -/
theorem limitRound_releaseMe (his : ∀ i ∈ is, i < n) (hme : (limitRound cfg true me limit is r).releaseMe = true) :
    r.releaseMe = true ∨ ∃ i, me = some i ∧ r.timer.surplus cfg i < limit := by
  induction is generalizing r with
  | nil => exact .inl hme
  | cons k is ih =>
    have hrest : ∀ j ∈ is, j < n := fun j hj => his j (List.mem_cons_of_mem k hj)
    have hrelease : Follows n me r ((r.count k).release me k) := follows_release (his k List.mem_cons_self) r
    rw [limitRound, if_pos rfl] at hme
    split_ifs at hme with hk
    · rcases ih hrest hme with hme | ⟨i, hi, hlt⟩
      · rw [release] at hme
        split_ifs at hme with hcaller
        · exact .inr ⟨k, hcaller, hk.2.2⟩
        · rw [count_releaseMe] at hme
          exact .inl hme
      · rw [SmtTimer.surplus, hrelease.frame.core] at hlt
        exact .inr ⟨i, hi, hlt⟩
    · exact ih hrest hme

variable (all me) in
/-- The limits are the powers of two, until one of them is above the surplus of a thread that waits. -/
theorem limitLoop_ends (hnone : r.numRunning = 0) (hi : i < cfg.numThreads) (hwaits : r.timer.Waits i) (rounds k : ℕ)
    (hk : rounds + k = 63) : ∃ l,
      limitLoop cfg all me (rounds + 2) (2 ^ k) r = some (limitRound cfg all me (2 ^ l) (List.range cfg.numThreads) r) ∧
        0 < (limitRound cfg all me (2 ^ l) (List.range cfg.numThreads) r).numRunning := by
  have his : ∀ i ∈ List.range cfg.numThreads, i < cfg.numThreads := fun i hi => List.mem_range.1 hi
  induction rounds generalizing k with
  | zero =>
    obtain rfl : k = 63 := by omega
    have hcounts := limitRound_counts cfg all me his (List.mem_range.2 hi) hwaits
      (cfg.methods.surplus_lt r.timer.core i)
    rw [hnone] at hcounts
    refine ⟨63, ?_, hcounts⟩
    rw [limitLoop, if_pos hnone, limitLoop, if_neg hcounts.ne']
  | succ rounds ih =>
    rw [limitLoop, if_pos hnone]
    by_cases hcounts : (limitRound cfg all me (2 ^ k) (List.range cfg.numThreads) r).numRunning = 0
    · rw [limitRound_eq his (hcounts.trans hnone.symm), ← pow_succ, Nat.mod_eq_of_lt]
      · exact ih (k + 1) (by omega)
      · exact Nat.pow_lt_pow_right (by omega) (by omega)
    · refine ⟨k, ?_, Nat.pos_of_ne_zero hcounts⟩
      rw [limitLoop, if_neg hcounts]

end Releasing

namespace SmtTimer

variable {all : Bool} {me : Option ℕ} {s : SmtTimer κ} {i : ℕ}

/-- The state that the loops of a release start from. -/
def atRelease (s : SmtTimer κ) (me : Option ℕ) : SmtTimer κ := { s with executeThread := me, told := 0 }

variable (me) in
/-- A release that has a running thread to release ends after its first loop, or after the first round with an effect. -/
theorem barrierRelease_ends (hi : i < cfg.numThreads) (h : s.Waits i ∨ (all = true ∧ s.GoesOn i)) :
    ∃ r, s.barrierRelease cfg all me = .ok (r.timer, r.releaseMe) ∧ 0 < r.numRunning ∧
      (r = s.releasing cfg all me ∨ ((s.releasing cfg all me).numRunning = 0 ∧
        ∃ l, r = Releasing.limitRound cfg all me (2 ^ l) (List.range cfg.numThreads) (s.releasing cfg all me))) := by
  have his : ∀ i ∈ List.range cfg.numThreads, i < cfg.numThreads := fun i hi => List.mem_range.1 hi
  rw [barrierRelease]
  by_cases hnone : (s.releasing cfg all me).numRunning = 0
  · have hwaits : (s.releasing cfg all me).timer.Waits i := by
      rcases h with hwaits | ⟨rfl, hgoes⟩
      · have hstays := (Releasing.releaseLoop_follows cfg all me his ⟨s.atRelease me, 0, false⟩).waits i hwaits
        exact hstays.resolve_left fun hlt => absurd hnone hlt.ne'
      · have hcounts := Releasing.releaseLoop_counts cfg me (r := ⟨s.atRelease me, 0, false⟩) his
          (List.mem_range.2 hi) hgoes
        exact absurd hnone hcounts.ne'
    obtain ⟨l, hloop, hcounts⟩ := Releasing.limitLoop_ends all me hnone hi hwaits 63 0 rfl
    rw [pow_zero] at hloop
    rw [hloop]
    exact ⟨_, rfl, hcounts, .inr ⟨hnone, l, rfl⟩⟩
  · rw [Releasing.limitLoop, if_neg hnone]
    exact ⟨_, rfl, Nat.pos_of_ne_zero hnone, .inl rfl⟩

/-- The thread that comes back from `synchronize` finds no one on its hardware thread whom it would have to release. -/
def Spares (cfg : SmtBarrierConfig κ) (s : SmtTimer κ) (i : ℕ) : Prop :=
  (s.threads i).inBarrier = true → s.hasEnough cfg i = true ∧
    ((s.threads i).running = true → ∃ j < cfg.numThreads, j ≠ i ∧ (s.threads j).running = true ∧
      ((s.threads j).inBarrier = false ∨ s.hasEnough cfg j = false ∨ (s.surplus cfg j).size ≤ (s.surplus cfg i).size))

/-- What a release that ends has done. -/
structure Released (cfg : SmtBarrierConfig κ) (s : SmtTimer κ) (all : Bool) (me : Option ℕ) (r : Releasing κ) : Prop where
  frame : Frame me (s.atRelease me) r.timer
  moves : ∃ i < cfg.numThreads, Releasing.Moves me r i
  hasEnough : all = true → ∀ i < cfg.numThreads, (r.timer.threads i).inBarrier = true →
    s.hasEnough cfg i = true ∨ me = some i
  goesOn : all = true → ∀ i, me = some i → s.Spares cfg i → ∃ j < cfg.numThreads, r.timer.GoesOn j

/-- The calling thread is not needed if it spares the others, because they are released with it. -/
theorem exists_goesOn_of_spares {r : Releasing κ} (hframe : Frame (some i) (s.atRelease (some i)) r.timer)
    (hmoves : ∃ j < cfg.numThreads, Releasing.Moves (some i) r j) (hspares : s.Spares cfg i)
    (hcases : r = s.releasing cfg true (some i) ∨ ((s.releasing cfg true (some i)).numRunning = 0 ∧
      ∃ l, r = Releasing.limitRound cfg true (some i) (2 ^ l) (List.range cfg.numThreads)
        (s.releasing cfg true (some i)))) :
    ∃ j < cfg.numThreads, r.timer.GoesOn j := by
  have his : ∀ i ∈ List.range cfg.numThreads, i < cfg.numThreads := fun i hi => List.mem_range.1 hi
  have hfirst := Releasing.releaseLoop_follows cfg true (some i) his ⟨s.atRelease (some i), 0, false⟩
  obtain ⟨m, hm, hgoes | ⟨hsame, hrunning, hme⟩⟩ := hmoves
  · exact ⟨m, hm, hgoes⟩
  obtain rfl : i = m := Option.some.inj hsame
  cases hin : (s.threads i).inBarrier with
  | false => exact ⟨i, hm, hrunning, (hframe.me i rfl).trans hin⟩
  | true =>
    obtain ⟨henough, hothers⟩ := hspares hin
    have hfew : ¬ ∃ k, some i = some k ∧ (s.atRelease (some i)).hasEnough cfg k = false := by
      rintro ⟨k, hk, hfew⟩
      rw [← Option.some.inj hk] at hfew
      exact absurd henough (Bool.eq_false_iff.1 hfew)
    have hnotfirst : ¬ (s.releasing cfg true (some i)).releaseMe = true := by
      intro hfirstme
      rcases Releasing.releaseLoop_releaseMe his hfirstme with hstart | hfirstme
      · cases hstart
      · exact hfew hfirstme
    obtain ⟨hnone, l, rfl⟩ := hcases.resolve_left fun hr => hnotfirst (hr ▸ hme)
    obtain ⟨j, hj, hji, hjrunning, hjcases⟩ := hothers ((hframe.running i).symm.trans hrunning)
    refine ⟨j, hj, (hframe.running j).trans hjrunning, Bool.eq_false_iff.2 fun hjin => ?_⟩
    -- the second loop has been entered, so the other one waits with enough micro-ops and is below the same limit
    have hjwaits : (s.threads j).inBarrier = true := hframe.inBarrier j hjin
    have hjfirst := (hfirst.waits j ⟨hjrunning, hjwaits⟩).resolve_left fun hlt => absurd hnone hlt.ne'
    have hjenough := (Releasing.releaseLoop_hasEnough his (List.mem_range.2 hj) hjfirst.2).resolve_right fun h =>
      hji (Option.some.inj h).symm
    have hsize : (s.surplus cfg j).size ≤ (s.surplus cfg i).size := by
      rcases hjcases with hout | hfewer | hsize
      · rw [hjwaits] at hout
        cases hout
      · exact absurd hjenough (Bool.eq_false_iff.1 hfewer)
      · exact hsize
    rcases Releasing.limitRound_releaseMe his hme with hfirstme | ⟨k, hk, hlt⟩
    · exact hnotfirst hfirstme
    · obtain rfl : i = k := Option.some.inj hk
      have hcore : (s.releasing cfg true (some i)).timer.core = s.core := hfirst.frame.core
      rw [surplus, hcore] at hlt
      have hjlt : (s.releasing cfg true (some i)).timer.surplus cfg j < 2 ^ l := by
        rw [surplus, hcore]
        exact Nat.size_le.1 (hsize.trans (Nat.size_le.2 hlt))
      have hjwaits' := Releasing.limitRound_above his (List.mem_range.2 hj) hjlt
        ⟨(hframe.running j).trans hjrunning, hjin⟩
      exact hji (Option.some.inj hjwaits').symm

variable (all me) in
theorem barrierRelease_released (hi : i < cfg.numThreads) (h : s.Waits i ∨ (all = true ∧ s.GoesOn i)) :
    ∃ r, s.barrierRelease cfg all me = .ok (r.timer, r.releaseMe) ∧ Released cfg s all me r := by
  have his : ∀ i ∈ List.range cfg.numThreads, i < cfg.numThreads := fun i hi => List.mem_range.1 hi
  have hfirst := Releasing.releaseLoop_follows cfg all me his ⟨s.atRelease me, 0, false⟩
  obtain ⟨r, hr, hcounts, hcases⟩ := barrierRelease_ends me hi h
  have hfollows : Releasing.Follows cfg.numThreads me ⟨s.atRelease me, 0, false⟩ r := by
    rcases hcases with rfl | ⟨-, l, rfl⟩
    · exact hfirst
    · exact hfirst.trans (Releasing.limitRound_follows cfg all me (2 ^ l) his _)
  have hmoves := hfollows.moves hcounts
  refine ⟨r, hr, hfollows.frame, hmoves, fun hall j hj hin => ?_, fun hall j hme hspares => ?_⟩
  · subst hall
    have hinFirst : ((s.releasing cfg true me).timer.threads j).inBarrier = true := by
      rcases hcases with rfl | ⟨-, l, rfl⟩
      · exact hin
      · exact (Releasing.limitRound_follows cfg true me (2 ^ l) his _).frame.inBarrier j hin
    exact Releasing.releaseLoop_hasEnough (r := ⟨s.atRelease me, 0, false⟩) his (List.mem_range.2 hj) hinFirst
  · subst hall hme
    exact exists_goesOn_of_spares hfollows.frame hmoves hspares hcases

end SmtTimer

end LifeSim.Rob
