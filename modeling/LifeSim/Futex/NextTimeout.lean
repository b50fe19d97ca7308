import LifeSim.Futex.Correctness

/-!
# The next timeout

`getNextTimeout` looks at the sleeping threads and at the queue of every futex. Between the futexes it takes the smallest
timeout, but within a list it takes the last one. So its result is too late unless the last timeout of some list
is the earliest of all. That there is a timeout at all is always found out.
-/

namespace LifeSim.Futex

open LifeSim.Lib Server

variable {T : Type} [DecidableEq T]

/-- The waiter does not wait forever. -/
def Waiter.isTimed (w : Waiter T) : Bool := w.timeout < maxTime

/-- `SimFutex::getNextTimeout`, and the first loop of `SyscallServer::getNextTimeout`. -/
def lastTimeout (q : List (Waiter T)) : ℕ :=
  q.foldl (fun next w => if w.isTimed then w.timeout else next) maxTime

/-- `SyscallServer::getNextTimeout`, with the order in which the map has its futexes. -/
def Server.getNextTimeout (order : List ℕ) (s : Server T) : ℕ :=
  order.foldl (fun next uaddr => if lastTimeout (s.futexes uaddr) < next then lastTimeout (s.futexes uaddr) else next)
    (lastTimeout s.sleeping)

/-- The lists of all that wait. -/
def Server.lists (order : List ℕ) (s : Server T) : List (List (Waiter T)) := s.sleeping :: order.map s.futexes

/-! ### One list -/

omit [DecidableEq T] in
theorem lastTimeout_append (q : List (Waiter T)) (w : Waiter T) :
    lastTimeout (q ++ [w]) = if w.isTimed then w.timeout else lastTimeout q := by
  rw [lastTimeout, List.foldl_append]
  rfl

omit [DecidableEq T] in
/-- The result for a list is the last timeout in it. -/
theorem lastTimeout_eq (q : List (Waiter T)) :
    lastTimeout q = (((q.filter Waiter.isTimed).getLast?).map Waiter.timeout).getD maxTime := by
  induction q using List.reverseRecOn with
  | nil => rfl
  | append_singleton q w ih =>
    rw [lastTimeout_append, ih, List.filter_append]
    by_cases htimed : w.isTimed = true
    · rw [if_pos htimed, List.filter_cons_of_pos htimed, List.filter_nil, List.getLast?_concat]
      rfl
    · rw [if_neg htimed, List.filter_cons_of_neg htimed, List.filter_nil, List.append_nil]

omit [DecidableEq T] in
theorem lastTimeout_le (q : List (Waiter T)) : lastTimeout q ≤ maxTime := by
  induction q using List.reverseRecOn with
  | nil => exact le_refl _
  | append_singleton q w ih =>
    rw [lastTimeout_append]
    split_ifs with htimed
    · rw [Waiter.isTimed, decide_eq_true_eq] at htimed
      exact htimed.le
    · exact ih

omit [DecidableEq T] in
/-- The result for a list is below `maxTime` if somebody waits in it until a time. -/
theorem lastTimeout_lt {q : List (Waiter T)} {w : Waiter T} (hw : w ∈ q) (htimed : w.isTimed = true) :
    lastTimeout q < maxTime := by
  rw [lastTimeout_eq]
  cases hlast : (q.filter Waiter.isTimed).getLast? with
  | none =>
    rw [List.getLast?_eq_none_iff] at hlast
    have hmem := List.mem_filter.2 ⟨hw, htimed⟩
    rw [hlast] at hmem
    cases hmem
  | some v =>
    have hv := (List.mem_filter.1 (List.mem_of_getLast? hlast)).2
    simpa [Waiter.isTimed] using hv

/-! ### All lists -/

omit [DecidableEq T] in
/-- The loop over the futexes takes the smallest result. -/
theorem getNextTimeout_isLeast (order : List ℕ) (s : Server T) :
    IsLeast {n | ∃ q ∈ s.lists order, lastTimeout q = n} (s.getNextTimeout order) := by
  induction order using List.reverseRecOn with
  | nil => exact ⟨⟨s.sleeping, List.mem_cons_self, rfl⟩, fun n hn => by
      obtain ⟨q, hq, rfl⟩ := hn
      rw [List.mem_singleton.1 hq]
      exact le_refl _⟩
  | append_singleton order a ih =>
    have hlists : s.lists (order ++ [a]) = s.lists order ++ [s.futexes a] := by
      rw [Server.lists, List.map_append]
      rfl
    have hloop : s.getNextTimeout (order ++ [a]) =
        if lastTimeout (s.futexes a) < s.getNextTimeout order then lastTimeout (s.futexes a)
        else s.getNextTimeout order := by
      rw [Server.getNextTimeout, List.foldl_append]
      rfl
    obtain ⟨⟨q, hq, hqeq⟩, hlower⟩ := ih
    rw [hlists, hloop]
    constructor
    · split_ifs
      · exact ⟨_, List.mem_append_right _ List.mem_cons_self, rfl⟩
      · exact ⟨q, List.mem_append_left _ hq, hqeq⟩
    · rintro n ⟨q', hq', rfl⟩
      rcases List.mem_append.1 hq' with hq' | hq'
      · have hle := hlower ⟨q', hq', rfl⟩
        split_ifs <;> omega
      · rw [List.mem_singleton.1 hq']
        split_ifs <;> omega

/-- The times at which somebody has to be woken. -/
def Server.timeouts (s : Server T) : Set ℕ :=
  {n | n < maxTime ∧ ((∃ w ∈ s.sleeping, w.timeout = n) ∨ ∃ uaddr, ∃ w ∈ s.futexes uaddr, w.timeout = n)}

/-- The result of `getNextTimeout` should be the earliest of these times, or `maxTime` if there is none. -/
def NextTimeout (order : List ℕ) (s : Server T) : Prop :=
  IsLeast (insert maxTime s.timeouts) (s.getNextTimeout order)

/-- Nobody waits until a time, or the last one of some list to do so is among those that are to be woken first. -/
def LastIsFirst (order : List ℕ) (s : Server T) : Prop :=
  s.timeouts = ∅ ∨ ∃ q ∈ s.lists order, ∃ w, (q.filter Waiter.isTimed).getLast? = some w ∧
    w.timeout ∈ lowerBounds s.timeouts

/-! ### Which futexes have waiters -/

/-- Only a futex in the map has waiters. -/
def Known (s : Server T) : Prop := ∀ a, a ∉ s.addresses → s.futexes a = []

section Known

variable {s : Server T}

omit [DecidableEq T] in
theorem Known.of_futexes (h : Known s) {s' : Server T} (haddresses : s'.addresses = s.addresses)
    (hfutexes : ∀ a, s.futexes a = [] → s'.futexes a = []) : Known s' :=
  fun a ha => hfutexes a (h a (haddresses ▸ ha))

omit [DecidableEq T] in
theorem findFutexByUaddr_addresses (a : ℕ) : a ∈ (s.findFutexByUaddr a).addresses := by
  rw [Server.findFutexByUaddr]
  dsimp only
  split_ifs with hmem
  · exact hmem
  · exact List.mem_append_right _ List.mem_cons_self

omit [DecidableEq T] in
theorem Known.findFutexByUaddr (h : Known s) (a : ℕ) : Known (s.findFutexByUaddr a) := by
  intro b hb
  refine h b fun hmem => hb ?_
  rw [Server.findFutexByUaddr]
  dsimp only
  split_ifs
  · exact hmem
  · exact List.mem_append_left _ hmem

omit [DecidableEq T] in
/-- A queue that loses members stays empty if it was. -/
theorem update_nil_of_nil {f : ℕ → List (Waiter T)} {a b : ℕ} {q : List (Waiter T)} (hq : f a = [] → q = [])
    (hb : f b = []) : Function.update f a q b = [] := by
  by_cases hab : b = a
  · rw [hab, Function.update_self]
    exact hq (hab ▸ hb)
  · rw [Function.update_of_ne hab]
    exact hb

theorem Known.dequeueWaiter (h : Known s) (a : ℕ) (by_ : T) (mask : BitVec 32) (time : ℕ) :
    Known (s.dequeueWaiter a by_ mask time).1 := by
  rw [Server.dequeueWaiter]
  split
  · refine h.of_futexes rfl fun b hb => update_nil_of_nil (fun hnil => ?_) hb
    rw [hnil]
    rfl
  · exact h

theorem Known.wakeLoop (h : Known s) (a : ℕ) (by_ : T) (mask : BitVec 32) (time n : ℕ) :
    Known (s.wakeLoop a by_ mask time n).1 := by
  induction n generalizing s with
  | zero => exact h
  | succ n ih =>
    have hone := h.dequeueWaiter a by_ mask time
    rw [Server.wakeLoop]
    generalize s.dequeueWaiter a by_ mask time = r at hone
    obtain ⟨t, w⟩ := r
    cases w with
    | none => exact hone
    | some w => exact ih hone

theorem Known.wakeTimedOut (h : Known s) (time a : ℕ) : Known (s.wakeTimedOut time a) := by
  rw [Server.wakeTimedOut]
  split
  · refine h.of_futexes rfl fun b hb => update_nil_of_nil (fun hnil => ?_) hb
    rw [hnil]
    rfl
  · exact h

theorem Known.futexPeriodic (h : Known s) (time : ℕ) (order : List ℕ) : Known (s.futexPeriodic time order) := by
  have hsleeping : Known (s.wakeSleeping time) := by
    rw [Server.wakeSleeping]
    split
    · exact h.of_futexes rfl fun _ => id
    · exact h
  have hfold (t : Server T) (ht : Known t) : Known (order.foldl (fun s uaddr => s.wakeTimedOut time uaddr) t) := by
    induction order generalizing t with
    | nil => exact ht
    | cons a order ih => exact ih _ (ht.wakeTimedOut time a)
  exact hfold _ hsleeping

omit [DecidableEq T] in
/-- A futex in the map may get a waiter. -/
theorem Known.setFutex (h : Known s) {a : ℕ} (ha : a ∈ s.addresses) (q : List (Waiter T)) : Known (s.setFutex a q) := by
  intro b hb
  have hne : b ≠ a := by
    rintro rfl
    exact hb ha
  exact (Function.update_of_ne hne ..).trans (h b hb)

omit [DecidableEq T] in
theorem Known.requeueLoop (h : Known s) {a b : ℕ} (ha : a ∈ s.addresses) (hb : b ∈ s.addresses) (n : ℕ) :
    Known (s.requeueLoop a b n) := by
  induction n generalizing s with
  | zero => exact h
  | succ n ih =>
    rw [Server.requeueLoop, Server.requeueWaiter]
    cases s.futexes a with
    | nil => exact h
    | cons w rest => exact ih ((h.setFutex ha rest).setFutex hb _) ha hb

theorem wakeLoop_addresses (s : Server T) (a : ℕ) (by_ : T) (mask : BitVec 32) (time n : ℕ) :
    (s.wakeLoop a by_ mask time n).1.addresses = s.addresses := by
  induction n generalizing s with
  | zero => rfl
  | succ n ih =>
    rw [Server.wakeLoop, Server.dequeueWaiter]
    cases (s.futexes a).find? fun w => mask &&& w.mask ≠ 0#32 with
    | none => rfl
    | some w => exact ih _

/-- Futex calls enter the futexes they use into the map. -/
theorem Known.handleFutexCall (h : Known s) (thread : T) (cmd : Cmd) (args : Args) (currTime : ℕ) (executed : Bool) :
    Ensures (s.handleFutexCall thread cmd args currTime executed) Known fun _ => True := by
  have hfound := findFutexByUaddr_addresses (s := s) args.uaddr
  have hknown := h.findFutexByUaddr args.uaddr
  have hwait (mask : BitVec 32) (timeout : ℕ) :
      Known (s.futexWait thread args.uaddr args.val (s.memory args.uaddr) mask currTime timeout) := by
    rw [Server.futexWait]
    split_ifs
    · exact hknown
    · exact hknown.setFutex hfound _
  have hwake (mask : BitVec 32) : Known (s.futexWake thread args.uaddr args.val mask currTime executed) := by
    have hloop := Known.wakeLoop hknown args.uaddr thread mask (currTime + s.applyRescheduleCost executed true)
      (iterations args.val)
    exact hloop
  cases cmd with
  | wait => exact .ok (hwait _ _)
  | waitBitset => exact .ok (hwait _ _)
  | wake => exact .ok (hwake _)
  | wakeBitset => exact .ok (hwake _)
  | wakeOp =>
    have hboth := Known.findFutexByUaddr hknown args.uaddr2
    rw [Server.handleFutexCall]
    unfold Server.futexWakeOp Server.futexDoOp
    refine Ensures.bind (Q := fun p => Known p.1) ?_ fun p hp => ?_
    · exact .bind_any fun newval => .bind_any fun ret => .ok (Known.of_futexes hboth rfl fun _ => id)
    · obtain ⟨s', opRet⟩ := p
      have hfirst := Known.wakeLoop hp args.uaddr thread matchAny (currTime + s'.applyRescheduleCost executed true)
        (iterations args.val)
      cases opRet with
      | false => exact .ok hfirst
      | true =>
        have hsecond := Known.wakeLoop hfirst args.uaddr2 thread matchAny
          (currTime + s'.applyRescheduleCost executed true) (iterations args.val2)
        exact .ok hsecond
  | cmpRequeue =>
    rw [Server.handleFutexCall]
    split_ifs
    · exact trivial
    · rw [Server.futexCmpRequeue]
      dsimp only
      split_ifs
      · exact .ok hknown
      · have hloop := hknown.wakeLoop args.uaddr thread matchAny currTime (iterations args.val)
        have haddresses := wakeLoop_addresses (s.findFutexByUaddr args.uaddr) args.uaddr thread matchAny currTime
          (iterations args.val)
        generalize (s.findFutexByUaddr args.uaddr).wakeLoop args.uaddr thread matchAny currTime (iterations args.val) = r
          at hloop haddresses
        have hfirst : args.uaddr ∈ (r.1.findFutexByUaddr args.uaddr2).addresses := by
          rw [← haddresses] at hfound
          rw [Server.findFutexByUaddr]
          dsimp only
          split_ifs
          · exact hfound
          · exact List.mem_append_left _ hfound
        exact .ok ((hloop.findFutexByUaddr args.uaddr2).requeueLoop hfirst (findFutexByUaddr_addresses _) _)

/-- Every step keeps it. -/
theorem Known.step (h : Known s) (e : Event T) : Ensures (Futex.step s e) Known fun _ => True := by
  cases e with
  | futexCall thread cmd args currTime executed =>
    rw [Futex.step]
    split_ifs
    · exact h.handleFutexCall ..
    · exact trivial
  | sleepCall thread wakeTime =>
    rw [Futex.step]
    split_ifs
    · exact .ok (h.of_futexes rfl fun _ => id)
    · exact trivial
  | periodic time order =>
    rw [Futex.step]
    split_ifs
    · exact .ok (h.futexPeriodic time order)
    · exact .ok h
  | goOn thread =>
    rw [Futex.step]
    split
    · exact .ok h
    · rw [Server.settle]
      split_ifs
      · exact .ok (h.of_futexes rfl fun _ => id)
      · exact .ok (h.of_futexes rfl fun _ => id)
    · split_ifs
      · exact .ok (h.of_futexes rfl fun _ => id)
      · exact .ok h
  | store uaddr val => exact .ok (h.of_futexes rfl fun _ => id)

/-- Only a futex in the map has waiters, in every reachable state. -/
theorem Known.of_reachable {cost : ℕ} {memory : ℕ → BitVec 32} (h : (machine T).Reachable (initial cost memory) s) :
    Known s := by
  refine h.invariant (fun _ _ => rfl) fun s e s' hs he => ?_
  exact (hs.step e).of_ok he

end Known

/-! ### When the result is right -/

section Result

variable {s : Server T} {order : List ℕ}

omit [DecidableEq T] in
/-- The times are those in the lists. -/
theorem Known.mem_timeouts (h : Known s) (horder : order.Perm s.addresses) {n : ℕ} :
    n ∈ s.timeouts ↔ ∃ q ∈ s.lists order, ∃ w ∈ q, w.isTimed = true ∧ w.timeout = n := by
  simp only [Server.timeouts, Server.lists, Set.mem_ofPred_eq, Waiter.isTimed, decide_eq_true_eq, List.mem_cons,
    List.mem_map, exists_eq_or_imp]
  constructor
  · rintro ⟨hlt, ⟨w, hw, rfl⟩ | ⟨a, w, hw, rfl⟩⟩
    · exact .inl ⟨w, hw, hlt, rfl⟩
    · have ha : a ∈ s.addresses := by
        by_contra ha
        rw [h a ha] at hw
        cases hw
      exact .inr ⟨_, ⟨a, horder.mem_iff.2 ha, rfl⟩, w, hw, hlt, rfl⟩
  · rintro (⟨w, hw, hlt, rfl⟩ | ⟨q, ⟨a, -, rfl⟩, w, hw, hlt, rfl⟩)
    · exact ⟨hlt, .inl ⟨w, hw, rfl⟩⟩
    · exact ⟨hlt, .inr ⟨a, w, hw, rfl⟩⟩

omit [DecidableEq T] in
/-- The result is a time at which somebody has to be woken, or `maxTime`. -/
theorem Known.getNextTimeout_mem (h : Known s) (horder : order.Perm s.addresses) :
    s.getNextTimeout order ∈ insert maxTime s.timeouts := by
  obtain ⟨q, hq, heq⟩ := (getNextTimeout_isLeast order s).1
  rw [← heq, lastTimeout_eq]
  cases hlast : (q.filter Waiter.isTimed).getLast? with
  | none => exact .inl rfl
  | some w =>
    obtain ⟨hw, htimed⟩ := List.mem_filter.1 (List.mem_of_getLast? hlast)
    exact .inr ((h.mem_timeouts horder).2 ⟨q, hq, w, hw, htimed, rfl⟩)

omit [DecidableEq T] in
/-- What the assertion in `barrierRelease` asks is always answered right. -/
theorem Known.getNextTimeout_lt_iff (h : Known s) (horder : order.Perm s.addresses) :
    s.getNextTimeout order < maxTime ↔ s.timeouts.Nonempty := by
  constructor
  · intro hlt
    rcases h.getNextTimeout_mem horder with heq | hmem
    · omega
    · exact ⟨_, hmem⟩
  · rintro ⟨n, hn⟩
    obtain ⟨q, hq, w, hw, htimed, -⟩ := (h.mem_timeouts horder).1 hn
    exact ((getNextTimeout_isLeast order s).2 ⟨q, hq, rfl⟩).trans_lt (lastTimeout_lt hw htimed)

omit [DecidableEq T] in
theorem Known.nextTimeout_iff (h : Known s) (horder : order.Perm s.addresses) :
    NextTimeout order s ↔ LastIsFirst order s := by
  have hleast := getNextTimeout_isLeast order s
  constructor
  · intro hnext
    rcases Set.eq_empty_or_nonempty s.timeouts with hempty | hnonempty
    · exact .inl hempty
    · have hlt := (h.getNextTimeout_lt_iff horder).2 hnonempty
      obtain ⟨q, hq, heq⟩ := hleast.1
      rw [lastTimeout_eq] at heq
      cases hlast : (q.filter Waiter.isTimed).getLast? with
      | none =>
        rw [hlast] at heq
        exact absurd heq (Nat.ne_of_gt hlt)
      | some w =>
        rw [hlast] at heq
        change w.timeout = _ at heq
        refine .inr ⟨q, hq, w, hlast, fun n hn => ?_⟩
        rw [heq]
        exact hnext.2 (.inr hn)
  · intro hcond
    refine ⟨h.getNextTimeout_mem horder, ?_⟩
    rintro n (rfl | hn)
    · obtain ⟨q, hq, heq⟩ := hleast.1
      rw [← heq]
      exact lastTimeout_le q
    · rcases hcond with hempty | ⟨q, hq, w, hlast, hlower⟩
      · rw [hempty] at hn
        cases hn
      · refine (hleast.2 ⟨q, hq, ?_⟩).trans (hlower hn)
        rw [lastTimeout_eq, hlast]
        rfl

end Result

/-- In which reachable states the next timeout is right, in whatever order the map has its futexes. That there is one is
found out in all of them. -/
theorem nextTimeout_exact {cost : ℕ} {memory : ℕ → BitVec 32} {s : Server T} {order : List ℕ}
    (h : (machine T).Reachable (initial cost memory) s) (horder : order.Perm s.addresses) :
    (NextTimeout order s ↔ LastIsFirst order s) ∧ (s.getNextTimeout order < maxTime ↔ s.timeouts.Nonempty) :=
  ⟨(Known.of_reachable h).nextTimeout_iff horder, (Known.of_reachable h).getNextTimeout_lt_iff horder⟩

/-- One thread sleeps until time 10, and another one until time 20. -/
def twoSleepers : Server ℕ := (machine ℕ).final (initial 0 fun _ => 0#32) [.sleepCall 1 10, .sleepCall 2 20]

theorem twoSleepers_reachable : (machine ℕ).Reachable (initial 0 fun _ => 0#32) twoSleepers :=
  ⟨[.sleepCall 1 10, .sleepCall 2 20], rfl⟩

/-- The equivalence for the two threads. -/
theorem nextTimeout_exact_twoSleepers : (NextTimeout [] twoSleepers ↔ LastIsFirst [] twoSleepers) ∧
    (twoSleepers.getNextTimeout [] < maxTime ↔ twoSleepers.timeouts.Nonempty) :=
  nextTimeout_exact twoSleepers_reachable (.refl _)

/-- The later time is returned. -/
theorem twoSleepers_late : ¬ ∀ (s : Server ℕ) (order : List ℕ), (machine ℕ).Reachable (initial 0 fun _ => 0#32) s →
    order.Perm s.addresses → NextTimeout order s := by
  intro h
  have hlower := (h twoSleepers [] twoSleepers_reachable (.refl _)).2
  have hmem : 10 ∈ insert maxTime twoSleepers.timeouts :=
    .inr ⟨by decide, .inl ⟨⟨1, 0#32, 10⟩, List.mem_cons_self, rfl⟩⟩
  have hle : twoSleepers.getNextTimeout [] ≤ 10 := hlower hmem
  revert hle
  decide

end LifeSim.Futex
