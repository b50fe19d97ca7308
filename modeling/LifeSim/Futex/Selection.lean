import LifeSim.Futex.Correctness

/-!
# Which waiters a wake selects

A wake takes the first waiters that its mask fits, in the order of the queue. The mask of a wake call is read from the
code of the command; the code that is compared is one of a wait, so that both kinds of wake use all bits. Which of
the bitset calls select the right waiters all the same is a matter of the first waiters with any bit.
-/

namespace LifeSim.Futex

open LifeSim.Lib Server

variable {T : Type} [DecidableEq T]

/-- The waiter has a bit in common with the mask of a wake. -/
def Waiter.fits (mask : BitVec 32) (w : Waiter T) : Bool := mask &&& w.mask ≠ 0#32

/-- The first waiters of a kind. -/
def firsts (p : Waiter T → Bool) (n : ℕ) (q : List (Waiter T)) : List (Waiter T) := (q.filter p).take n

/-- A queue without the first waiters of a kind. -/
def withoutFirsts (p : Waiter T → Bool) (n : ℕ) (q : List (Waiter T)) : List (Waiter T) := (List.eraseP p)^[n] q

section Queues

variable {p p' : Waiter T → Bool} {q : List (Waiter T)}

omit [DecidableEq T] in
theorem withoutFirsts_succ (n : ℕ) : withoutFirsts p (n + 1) q = withoutFirsts p n (q.eraseP p) := rfl

omit [DecidableEq T] in
/-- If there is no waiter of the kind, all stay. -/
theorem withoutFirsts_of_find (h : q.find? p = none) (n : ℕ) : withoutFirsts p n q = q := by
  induction n with
  | zero => rfl
  | succ n ih =>
    rw [withoutFirsts_succ, List.eraseP_of_forall_not (by simpa using List.find?_eq_none.1 h)]
    exact ih

omit [DecidableEq T] in
theorem firsts_of_find (h : q.find? p = none) (n : ℕ) : firsts p n q = [] := by
  rw [firsts, List.filter_eq_nil_iff.2 (by simpa using List.find?_eq_none.1 h), List.take_nil]

omit [DecidableEq T] in
theorem firsts_succ {w : Waiter T} (h : q.find? p = some w) (n : ℕ) :
    firsts p (n + 1) q = w :: firsts p n (q.eraseP p) := by
  rw [firsts, filter_of_find h, List.take_succ_cons]
  rfl

omit [DecidableEq T] in
/-- Nobody is lost. -/
theorem firsts_perm (p : Waiter T → Bool) (n : ℕ) (q : List (Waiter T)) :
    (firsts p n q ++ withoutFirsts p n q).Perm q := by
  induction n generalizing q with
  | zero => simp [firsts, withoutFirsts]
  | succ n ih =>
    cases h : q.find? p with
    | none =>
      rw [firsts_of_find h, withoutFirsts_of_find h]
      exact .refl _
    | some w =>
      obtain ⟨-, q₁, q₂, hq, hrest⟩ := find_eraseP h
      rw [firsts_succ h, withoutFirsts_succ, List.cons_append]
      refine ((ih (q.eraseP p)).cons w).trans ?_
      rw [hrest, hq]
      exact List.perm_middle.symm

omit [DecidableEq T] in
/-- Two kinds select the same waiters if the first ones of the larger kind are of the smaller one too. -/
theorem firsts_congr (himp : ∀ w, p w = true → p' w = true) {n : ℕ} (h : ∀ w ∈ firsts p' n q, p w = true) :
    firsts p n q = firsts p' n q ∧ withoutFirsts p n q = withoutFirsts p' n q := by
  induction n generalizing q with
  | zero => exact ⟨rfl, rfl⟩
  | succ n ih =>
    cases hfind : q.find? p' with
    | none =>
      have hnone : q.find? p = none := by
        rw [List.find?_eq_none] at hfind ⊢
        exact fun w hw hp => hfind w hw (himp w hp)
      rw [firsts_of_find hfind, firsts_of_find hnone, withoutFirsts_of_find hfind, withoutFirsts_of_find hnone]
      exact ⟨rfl, rfl⟩
    | some w =>
      rw [firsts_succ hfind] at h
      have hw := h w List.mem_cons_self
      obtain ⟨-, q₁, q₂, hq, hbefore⟩ := List.find?_eq_some_iff_append.1 hfind
      have hbefore' : ∀ v ∈ q₁, ¬ p v = true := by
        intro v hv hp
        have hv' := hbefore v hv
        simp [himp v hp] at hv'
      have hfind' : q.find? p = some w := by
        rw [List.find?_eq_some_iff_append]
        exact ⟨hw, q₁, q₂, hq, by simpa using hbefore'⟩
      have herase : q.eraseP p = q.eraseP p' := by
        rw [hq, List.eraseP_append_right _ hbefore', List.eraseP_append_right _ (by simpa using hbefore),
          List.eraseP_cons_of_pos hw, List.eraseP_cons_of_pos (himp w hw)]
      obtain ⟨hfirsts, hwithout⟩ := ih fun v hv => h v (List.mem_cons_of_mem w hv)
      rw [firsts_succ hfind, firsts_succ hfind', withoutFirsts_succ, withoutFirsts_succ, herase, hfirsts, hwithout]
      exact ⟨rfl, rfl⟩

omit [DecidableEq T] in
theorem length_firsts (n : ℕ) : (firsts p n q).length = min n (q.countP p) := by
  rw [firsts, List.length_take, ← List.countP_eq_length_filter]

omit [DecidableEq T] in
/-- If two kinds leave the same queue and select as many, the ones selected are of both kinds. -/
theorem firsts_fit {n : ℕ} (hlength : (firsts p n q).length = (firsts p' n q).length)
    (hrest : withoutFirsts p n q = withoutFirsts p' n q) : ∀ w ∈ firsts p' n q, p w = true := by
  have hall : ∀ w ∈ firsts p n q, p w = true := fun w hw => (List.mem_filter.1 (List.mem_of_mem_take hw)).2
  have hcount := (firsts_perm p n q).countP_eq p
  have hcount' := (firsts_perm p' n q).countP_eq p
  rw [List.countP_append] at hcount hcount'
  rw [hrest, List.countP_eq_length.2 hall] at hcount
  rw [← List.countP_eq_length]
  omega

end Queues

/-- What the loop does for any mask. -/
theorem wakeLoop_firsts (s : Server T) (a : ℕ) (by_ : T) (mask : BitVec 32) (time n : ℕ) :
    (s.wakeLoop a by_ mask time n).1.futexes =
        Function.update s.futexes a (withoutFirsts (Waiter.fits mask) n (s.futexes a)) ∧
      woken (s.wakeLoop a by_ mask time n).1.log =
        woken s.log ++ (firsts (Waiter.fits mask) n (s.futexes a)).map Waiter.thread ∧
      (s.wakeLoop a by_ mask time n).2 = (firsts (Waiter.fits mask) n (s.futexes a)).length := by
  induction n generalizing s with
  | zero => exact ⟨(Function.update_eq_self ..).symm, by simp [Server.wakeLoop, firsts],
    by simp [Server.wakeLoop, firsts]⟩
  | succ n ih =>
    cases hfind : (s.futexes a).find? (Waiter.fits mask) with
    | none =>
      have hstep : s.dequeueWaiter a by_ mask time = (s, none) := by
        have hnext : ((s.futexes a).find? fun w => mask &&& w.mask ≠ 0#32) = none := hfind
        rw [Server.dequeueWaiter, hnext]
      rw [Server.wakeLoop, hstep, firsts_of_find hfind, withoutFirsts_of_find hfind]
      exact ⟨(Function.update_eq_self ..).symm, by simp, rfl⟩
    | some w =>
      have hstep : s.dequeueWaiter a by_ mask time =
          (((s.setFutex a ((s.futexes a).eraseP (Waiter.fits mask))).record (.wake w.thread by_)).resumeThread
            w.thread time true, some w.thread) := by
        have hnext : ((s.futexes a).find? fun w => mask &&& w.mask ≠ 0#32) = some w := hfind
        rw [Server.dequeueWaiter, hnext]
        rfl
      rw [Server.wakeLoop, hstep]
      dsimp only
      generalize ht : ((s.setFutex a ((s.futexes a).eraseP (Waiter.fits mask))).record
        (.wake w.thread by_)).resumeThread w.thread time true = t
      have htf : t.futexes = Function.update s.futexes a ((s.futexes a).eraseP (Waiter.fits mask)) := by
        rw [← ht]
        rfl
      have hta : t.futexes a = (s.futexes a).eraseP (Waiter.fits mask) := by rw [htf, Function.update_self]
      have htl : woken t.log = woken s.log ++ [w.thread] := by
        rw [← ht]
        exact woken_wake ..
      obtain ⟨hfutexes, hlog, hcount⟩ := ih t
      rw [hta] at hfutexes hlog hcount
      rw [firsts_succ hfind, withoutFirsts_succ]
      refine ⟨?_, ?_, ?_⟩
      · exact hfutexes.trans (by rw [htf, Function.update_idem])
      · exact hlog.trans (by rw [htl, List.map_cons, List.append_assoc, List.singleton_append])
      · exact congrArg (· + 1) hcount

/-! ### Wake calls -/

/-- `FUTEX_WAKE_BITSET` and `FUTEX_WAKE`. -/
def wakeCmd (bitset : Bool) : Cmd := if bitset then .wakeBitset else .wake

/-- The mask that a wake call has. -/
def wakeMask (bitset : Bool) (args : Args) : BitVec 32 := if bitset then args.val3 else matchAny

/-- A wake call wakes the first waiters that its mask fits, in the order of the queue. The others stay as they are, and
the number of those woken is returned. -/
structure Wakes (s : Server T) (thread : T) (mask : BitVec 32) (args : Args) (s' : Server T) : Prop where
  woken : woken s'.log = woken s.log ++
    (firsts (Waiter.fits mask) (iterations args.val) (s.futexes args.uaddr)).map Waiter.thread
  rest : s'.futexes = Function.update s.futexes args.uaddr
    (withoutFirsts (Waiter.fits mask) (iterations args.val) (s.futexes args.uaddr))
  answer : ∃ time, s'.log.head? =
    some (.answer thread (min (iterations args.val) ((s.futexes args.uaddr).countP (Waiter.fits mask)) : ℕ) time)

/-- Both kinds of wake use all bits. -/
theorem handleFutexCall_wake (s : Server T) (thread : T) (bitset : Bool) (args : Args) (currTime : ℕ) (executed : Bool) :
    ∃ s', s.handleFutexCall thread (wakeCmd bitset) args currTime executed = .ok s' ∧
      Wakes s thread matchAny args s' := by
  have hcall : s.handleFutexCall thread (wakeCmd bitset) args currTime executed =
      .ok (s.futexWake thread args.uaddr args.val matchAny currTime executed) := by
    cases bitset <;> rfl
  have hloop := wakeLoop_firsts (s.findFutexByUaddr args.uaddr) args.uaddr thread matchAny
    (currTime + (s.findFutexByUaddr args.uaddr).applyRescheduleCost executed true) (iterations args.val)
  obtain ⟨hfutexes, hlog, hcount⟩ := hloop
  rw [length_firsts] at hcount
  have hhead : (s.futexWake thread args.uaddr args.val matchAny currTime executed).log.head? =
      some (.answer thread ((s.findFutexByUaddr args.uaddr).wakeLoop args.uaddr thread matchAny
        (currTime + (s.findFutexByUaddr args.uaddr).applyRescheduleCost executed true) (iterations args.val)).2 _) := rfl
  rw [hcount] at hhead
  exact ⟨_, hcall, hlog, hfutexes, _, hhead⟩

/-- Which wake calls select the right waiters: those for which the first waiters with any bit have one in common with the
mask. -/
theorem wake_selection (s : Server T) (thread : T) (bitset : Bool) (args : Args) (currTime : ℕ) (executed : Bool) :
    (∃ s', s.handleFutexCall thread (wakeCmd bitset) args currTime executed = .ok s' ∧
      Wakes s thread (wakeMask bitset args) args s') ↔
    ∀ w ∈ firsts Waiter.hasMask (iterations args.val) (s.futexes args.uaddr), w.fits (wakeMask bitset args) = true := by
  obtain ⟨s', hs', hwakes⟩ := handleFutexCall_wake s thread bitset args currTime executed
  have hany : (Waiter.fits matchAny : Waiter T → Bool) = Waiter.hasMask := matchAny_hasMask
  have himp (w : Waiter T) (hw : w.fits (wakeMask bitset args) = true) : w.hasMask = true := by
    simp only [Waiter.fits, Waiter.hasMask, decide_eq_true_eq] at hw ⊢
    intro hzero
    rw [hzero, BitVec.and_zero] at hw
    exact hw rfl
  have hwoken := hwakes.woken
  have hrest := hwakes.rest
  obtain ⟨time, hanswer⟩ := hwakes.answer
  rw [hany] at hwoken hrest hanswer
  constructor
  · rintro ⟨s'', hs'', hright⟩
    rw [hs'] at hs''
    cases hs''
    have hqueue := congrFun (hrest.symm.trans hright.rest) args.uaddr
    rw [Function.update_self, Function.update_self] at hqueue
    obtain ⟨time', hanswer'⟩ := hright.answer
    have hcounts := Option.some.inj (hanswer.symm.trans hanswer')
    injection hcounts with _ hcounts _
    refine firsts_fit ?_ hqueue.symm
    rw [length_firsts, length_firsts]
    exact (Int.ofNat.inj hcounts).symm
  · intro hfit
    obtain ⟨hfirsts, hwithout⟩ := firsts_congr himp hfit
    have hlength := congrArg List.length hfirsts
    rw [length_firsts, length_firsts] at hlength
    refine ⟨s', hs', ?_, ?_, time, ?_⟩
    · rw [hfirsts]
      exact hwoken
    · rw [hwithout]
      exact hrest
    · rw [hlength]
      exact hanswer

/-- Two threads wait for a word, the first one for the bit 1 and the second one for the bit 2. -/
def twoBits : List (Event ℕ) :=
  [.futexCall 1 .waitBitset ⟨4, 0#32, none, 0#32, 0, 1#32⟩ 0 true, .goOn 1,
   .futexCall 2 .waitBitset ⟨4, 0#32, none, 0#32, 0, 2#32⟩ 1 true, .goOn 2]

/-- A wake for the bit 2 wakes the first one. -/
theorem wakeBitset_wrong : ¬ ∀ (s : Server ℕ) (thread : ℕ) (bitset : Bool) (args : Args) (currTime : ℕ) (executed : Bool),
    ∃ s', s.handleFutexCall thread (wakeCmd bitset) args currTime executed = .ok s' ∧
      Wakes s thread (wakeMask bitset args) args s' := by
  intro h
  obtain ⟨s', hs', hwakes⟩ := h ((machine ℕ).final (initial 5 fun _ => 0#32) twoBits) 3 true
    ⟨4, 1#32, none, 0#32, 0, 2#32⟩ 2 true
  have hwoken := hwakes.woken
  cases hs'
  revert hwoken
  decide +kernel

end LifeSim.Futex
