import LifeSim.Futex.Invariant

/-!
# The guarantees of the futexes

What one call does to the queues, and the guarantees that hold in every state.
-/

namespace LifeSim.Futex

open LifeSim.Lib Server

variable {T : Type} [DecidableEq T]

/-- The threads woken by others, the first one first. -/
def woken (log : List (Entry T)) : List T :=
  (log.filterMap fun e => match e with
    | .wake t _ => some t
    | _ => none).reverse

/-- A waiter that a wake of any kind can take out of its queue. -/
def Waiter.hasMask (w : Waiter T) : Bool := w.mask ≠ 0#32

omit [DecidableEq T] in
/-- All bits fit every mask that is not empty. -/
theorem matchAny_hasMask : (fun w : Waiter T => decide (matchAny &&& w.mask ≠ 0#32)) = Waiter.hasMask := by
  funext w
  have hand : matchAny &&& w.mask = w.mask := BitVec.allOnes_and
  rw [hand]
  rfl

omit [DecidableEq T] in
/-- The log after one more thread has been woken and resumed. -/
theorem woken_wake (t by_ : T) (log : List (Entry T)) :
    woken (.resume t :: .wake t by_ :: log) = woken log ++ [t] := by
  simp [woken]

omit [DecidableEq T] in
/-- The first waiter of a kind, then those of the rest of the queue. -/
theorem filter_of_find {p : Waiter T → Bool} {q : List (Waiter T)} {w : Waiter T} (h : q.find? p = some w) :
    q.filter p = w :: (q.eraseP p).filter p := by
  induction q with
  | nil => cases h
  | cons v q ih =>
    by_cases hv : p v = true
    · rw [List.find?_cons_of_pos hv] at h
      cases h
      rw [List.filter_cons_of_pos hv, List.eraseP_cons_of_pos hv]
    · rw [List.find?_cons_of_neg hv] at h
      rw [List.filter_cons_of_neg hv, List.eraseP_cons_of_neg hv, List.filter_cons_of_neg hv, ih h]

/-- A wake takes the first waiters with a mask, as many as there are and at most as many as asked for.
The others keep their order, and nobody is lost. -/
theorem wakeLoop_spec (s : Server T) (a : ℕ) (by_ : T) (time n : ℕ) :
    ∃ rest, rest.Sublist (s.futexes a) ∧
      ((((s.futexes a).filter Waiter.hasMask).take n) ++ rest).Perm (s.futexes a) ∧
      (s.wakeLoop a by_ matchAny time n).1.futexes = Function.update s.futexes a rest ∧
      woken (s.wakeLoop a by_ matchAny time n).1.log =
        woken s.log ++ (((s.futexes a).filter Waiter.hasMask).take n).map Waiter.thread := by
  induction n generalizing s with
  | zero => exact ⟨s.futexes a, .refl _, by simp, (Function.update_eq_self ..).symm, by simp [Server.wakeLoop]⟩
  | succ n ih =>
    unfold Server.wakeLoop Server.dequeueWaiter
    rw [matchAny_hasMask]
    cases hf : (s.futexes a).find? Waiter.hasMask with
    | none =>
      have hnone : (s.futexes a).filter Waiter.hasMask = [] :=
        List.filter_eq_nil_iff.mpr (by simpa using List.find?_eq_none.mp hf)
      exact ⟨s.futexes a, .refl _, by simp [hnone], (Function.update_eq_self ..).symm, by simp [hnone]⟩
    | some w =>
      obtain ⟨-, q₁, q₂, hq, hrest⟩ := find_eraseP hf
      have hfilter := filter_of_find hf
      rw [hrest] at hfilter ⊢
      dsimp only
      generalize ht : ((s.setFutex a (q₁ ++ q₂)).record (.wake w.thread by_)).resumeThread w.thread time true = t
      have htf : t.futexes = Function.update s.futexes a (q₁ ++ q₂) := by
        rw [← ht]
        rfl
      have hta : t.futexes a = q₁ ++ q₂ := by rw [htf, Function.update_self]
      have htl : woken t.log = woken s.log ++ [w.thread] := by
        rw [← ht]
        exact woken_wake ..
      obtain ⟨rest, hsub, hperm, hfut, hlog⟩ := ih t
      rw [hta] at hsub hperm hlog
      refine ⟨rest, ?_, ?_, ?_, ?_⟩
      · rw [hq]
        exact hsub.trans ((List.Sublist.refl q₁).append (List.sublist_cons_self w q₂))
      · rw [hfilter, List.take_succ_cons, hq, List.cons_append]
        exact (hperm.cons w).trans List.perm_middle.symm
      · show (t.wakeLoop a by_ matchAny time n).1.futexes = _
        rw [hfut, htf, Function.update_idem]
      · show woken (t.wakeLoop a by_ matchAny time n).1.log = _
        rw [hlog, htl, hfilter, List.take_succ_cons, List.map_cons, List.append_assoc, List.singleton_append]

omit [DecidableEq T] in
/-- All waiters are moved, in their order. -/
theorem requeueLoop_spec (s : Server T) {a b : ℕ} (hab : a ≠ b) {q : List (Waiter T)} (hq : s.futexes a = q) :
    (s.requeueLoop a b q.length).futexes = Function.update (Function.update s.futexes a []) b (s.futexes b ++ q) ∧
      (s.requeueLoop a b q.length).log = s.log := by
  induction q generalizing s with
  | nil =>
    have hsame : Function.update s.futexes a [] = s.futexes := by rw [← hq, Function.update_eq_self]
    refine ⟨?_, rfl⟩
    rw [List.append_nil, hsame, Function.update_eq_self]
    rfl
  | cons w q ih =>
    have hb : (s.setFutex a q).futexes b = s.futexes b := Function.update_of_ne (Ne.symm hab) ..
    have hstep : s.requeueWaiter a b =
        ((s.setFutex a q).setFutex b (s.futexes b ++ [w]), some w.thread) := by
      unfold Server.requeueWaiter
      rw [hq]
      dsimp only
      rw [hb]
    rw [List.length_cons, Server.requeueLoop, hstep]
    dsimp only
    have ha' : ((s.setFutex a q).setFutex b (s.futexes b ++ [w])).futexes a = q := by
      show Function.update (Function.update s.futexes a q) b _ a = q
      rw [Function.update_of_ne hab, Function.update_self]
    obtain ⟨hfut, hlog⟩ := ih _ ha'
    refine ⟨hfut.trans ?_, hlog⟩
    show Function.update (Function.update (Function.update (Function.update s.futexes a q) b _) a []) b
      (Function.update (Function.update s.futexes a q) b _ b ++ q) = _
    rw [Function.update_self, List.append_assoc, List.singleton_append,
      Function.update_comm (Ne.symm hab), Function.update_idem, Function.update_idem]

/-- What the futexes promise, in a state. -/
structure Sound (s : Server T) : Prop where
  /-- A thread that is stalled on a futex is in exactly one queue, once. -/
  oneQueue : ∀ t, s.stalled t = some .futex → ∃ a, (s.futexes a).countP (fun w => w.thread = t) = 1 ∧
    ∀ b ≠ a, (s.futexes b).countP (fun w => w.thread = t) = 0
  /-- Other threads are in no queue. -/
  noQueue : ∀ t, s.stalled t ≠ some .futex → ∀ a, (s.futexes a).countP (fun w => w.thread = t) = 0
  /-- Each wait is followed by one removal, one resumption and one return. It returns 0 after a wake and
  `-ETIMEDOUT` after a timeout, which is not before its time. -/
  rounds : ∀ t, ∃ r, follow t s.log = some r
  /-- A value that does not match changes no queue. -/
  mismatch : ∀ t cmd args currTime executed s', step s (.futexCall t cmd args currTime executed) = .ok s' →
    (cmd = .wait ∨ cmd = .waitBitset) ∧ args.val ≠ s.memory args.uaddr ∨
      cmd = .cmpRequeue ∧ args.val3 ≠ s.memory args.uaddr →
    s'.futexes = s.futexes ∧ s'.log = .answer t eWouldBlock currTime :: s.log
  /-- A requeue wakes the first waiters with a mask and moves the others, in their order. -/
  requeue : ∀ t args currTime executed s', step s (.futexCall t .cmpRequeue args currTime executed) = .ok s' →
    args.val3 = s.memory args.uaddr → ∃ rest, rest.Sublist (s.futexes args.uaddr) ∧
      (((s.futexes args.uaddr).filter Waiter.hasMask).take (iterations args.val) ++ rest).Perm
        (s.futexes args.uaddr) ∧
      s'.futexes = Function.update (Function.update s.futexes args.uaddr []) args.uaddr2
        (s.futexes args.uaddr2 ++ rest) ∧
      woken s'.log = woken s.log ++
        (((s.futexes args.uaddr).filter Waiter.hasMask).take (iterations args.val)).map Waiter.thread

/-- A call with a value that does not match. -/
theorem mismatch_step {s s' : Server T} {t : T} {cmd : Cmd} {args : Args} {currTime : ℕ} {executed : Bool}
    (h : step s (.futexCall t cmd args currTime executed) = .ok s')
    (hm : (cmd = .wait ∨ cmd = .waitBitset) ∧ args.val ≠ s.memory args.uaddr ∨
      cmd = .cmpRequeue ∧ args.val3 ≠ s.memory args.uaddr) :
    s'.futexes = s.futexes ∧ s'.log = .answer t eWouldBlock currTime :: s.log := by
  dsimp only [step] at h
  split at h
  · rcases hm with ⟨rfl | rfl, hne⟩ | ⟨rfl, hne⟩
    · simp only [handleFutexCall, futexWait, ne_eq, hne, not_false_eq_true, if_true, Except.ok.injEq] at h
      rw [← h]
      exact ⟨rfl, rfl⟩
    · simp only [handleFutexCall, futexWait, ne_eq, hne, not_false_eq_true, if_true, Except.ok.injEq] at h
      rw [← h]
      exact ⟨rfl, rfl⟩
    · simp only [handleFutexCall, futexCmpRequeue, ne_eq, hne, not_false_eq_true, if_true] at h
      split at h
      · cases h
      · rw [← Except.ok.inj h]
        exact ⟨rfl, rfl⟩
  · cases h

/-- A requeue whose value matches. -/
theorem requeue_step {s s' : Server T} {t : T} {args : Args} {currTime : ℕ} {executed : Bool}
    (h : step s (.futexCall t .cmpRequeue args currTime executed) = .ok s')
    (hm : args.val3 = s.memory args.uaddr) : ∃ rest, rest.Sublist (s.futexes args.uaddr) ∧
      (((s.futexes args.uaddr).filter Waiter.hasMask).take (iterations args.val) ++ rest).Perm
        (s.futexes args.uaddr) ∧
      s'.futexes = Function.update (Function.update s.futexes args.uaddr []) args.uaddr2
        (s.futexes args.uaddr2 ++ rest) ∧
      woken s'.log = woken s.log ++
        (((s.futexes args.uaddr).filter Waiter.hasMask).take (iterations args.val)).map Waiter.thread := by
  dsimp only [step] at h
  split at h
  · simp only [handleFutexCall, futexCmpRequeue, hm, ne_eq, not_true_eq_false, if_false] at h
    split at h
    · cases h
    · rename_i hne
      obtain ⟨rest, hsub, hperm, hfut, hlog⟩ :=
        wakeLoop_spec (s.findFutexByUaddr args.uaddr) args.uaddr t currTime (iterations args.val)
      generalize hu : (s.findFutexByUaddr args.uaddr).wakeLoop args.uaddr t matchAny currTime
        (iterations args.val) = u at h hfut hlog
      obtain ⟨u, count⟩ := u
      have hua : (u.findFutexByUaddr args.uaddr2).futexes args.uaddr = rest := by
        show u.futexes args.uaddr = rest
        rw [hfut, Function.update_self]
      obtain ⟨hfut', hlog'⟩ := requeueLoop_spec (u.findFutexByUaddr args.uaddr2) hne hua
      rw [← Except.ok.inj h]
      refine ⟨rest, hsub, hperm, ?_, ?_⟩
      · show Server.futexes (Server.requeueLoop _ _ (List.length (Server.futexes _ _)) _) = _
        rw [hua, hfut']
        show Function.update (Function.update u.futexes args.uaddr []) args.uaddr2 (u.futexes args.uaddr2 ++ rest) = _
        rw [hfut, Function.update_idem, Function.update_of_ne (Ne.symm hne)]
        rfl
      · show woken (.answer t _ _ :: Server.log (Server.requeueLoop _ _ (List.length (Server.futexes _ _)) _)) = _
        rw [hua, hlog']
        exact hlog
  · cases h

/-- The invariant gives all guarantees. -/
theorem Inv.sound {s : Server T} (h : Inv s) : Sound s where
  oneQueue := fun t ht => by
    obtain ⟨r, -, hp⟩ := h t
    cases r with
    | outside =>
      rw [hp.2.1] at ht
      cases ht
    | queued timeout =>
      obtain ⟨-, -, -, a, mask, ha, hother⟩ := hp
      refine ⟨a, ?_, fun b hb => ?_⟩
      · rw [List.countP_eq_length_filter]
        exact congrArg List.length ha
      · rw [List.countP_eq_length_filter]
        exact congrArg List.length (hother b hb)
    | removed res => exact hp.elim
    | asleep =>
      rw [hp.1] at ht
      cases ht
    | resumed res =>
      rw [hp.1] at ht
      cases ht
  noQueue := fun t ht a => by
    obtain ⟨r, -, hp⟩ := h t
    rw [List.countP_eq_length_filter]
    cases r with
    | outside => exact congrArg List.length (hp.2.2.1 a)
    | queued timeout => exact absurd hp.1 ht
    | removed res => exact hp.elim
    | asleep => exact congrArg List.length (hp.2.2.1 a)
    | resumed res => exact congrArg List.length (hp.2.2.1 a)
  rounds := fun t => by
    obtain ⟨r, hr, -⟩ := h t
    exact ⟨r, hr⟩
  mismatch := fun _ _ _ _ _ _ => mismatch_step
  requeue := fun _ _ _ _ _ => requeue_step

/-- **Futex queues.** The guarantees hold in every state that any number of threads can reach by any
interleaving of their calls, of writes to memory and of periodic calls. -/
theorem futex_sound {cost : ℕ} {memory : ℕ → BitVec 32} {s : Server T}
    (h : (machine T).Reachable (initial cost memory) s) : Sound s :=
  (Inv.of_reachable h).sound

/-- Two threads wait for a word, the second one with a timeout; the third one requeues all but one of them, and the
timeout passes. -/
def requeueRun (mask : BitVec 32) : List (Event ℕ) :=
  [.futexCall 1 .waitBitset ⟨4, 0#32, none, 0#32, 0, mask⟩ 0 true, .goOn 1,
   .futexCall 2 .wait ⟨4, 0#32, some 10, 0#32, 0, 0#32⟩ 1 true, .goOn 2,
   .futexCall 3 .cmpRequeue ⟨4, 1#32, none, 0#32, 8, 0#32⟩ 2 true,
   .periodic 20 [4, 8], .goOn 1, .goOn 2]

/-- The first thread has been woken, and the second one has timed out in the other queue. -/
theorem futex_sound_requeueRun :
    ((machine ℕ).final (initial 5 fun _ => 0#32) (requeueRun matchAny)).log.take 2 =
      [.return 2 (some (-110)) 20, .return 1 (some 0) 2] ∧
    ∃ r, follow 2 ((machine ℕ).final (initial 5 fun _ => 0#32) (requeueRun matchAny)).log = some r := by
  have hrun : (machine ℕ).Reachable (initial 5 fun _ => 0#32)
      ((machine ℕ).final (initial 5 fun _ => 0#32) (requeueRun matchAny)) :=
    ⟨requeueRun matchAny, Machine.run_final _ (by decide +kernel)⟩
  exact ⟨by decide +kernel, (futex_sound hrun).rounds 2⟩

/-- A requeue does not wake the first waiter if that waits for no bit: the second one is woken
and the first one is moved. -/
theorem requeue_emptyMask :
    ((((machine ℕ).final (initial 5 fun _ => 0#32) ((requeueRun 0#32).take 4)).futexes 4).map Waiter.thread =
      [1, 2]) ∧
    woken ((machine ℕ).final (initial 5 fun _ => 0#32) ((requeueRun 0#32).take 5)).log = [2] ∧
    ((((machine ℕ).final (initial 5 fun _ => 0#32) ((requeueRun 0#32).take 5)).futexes 8).map Waiter.thread =
      [1]) := by
  decide +kernel

end LifeSim.Futex
