import LifeSim.Futex.Server
import LifeSim.Lib.Checked

/-!
# Every waiter is in one queue

The history of a thread is a sequence of rounds. In a round it is put into a queue, taken out of it by a wake or
by a timeout, resumed, and its call returns with the result that belongs to the way in which it was taken out.
In every state the round of a thread says where it is: in exactly one queue exactly once while it is
stalled, and in none otherwise.
-/

namespace LifeSim.Futex

open LifeSim.Lib Server

variable {T : Type} [DecidableEq T]

/-- How far a thread has come. -/
inductive Round
  | outside
  /-- It is in the queue of a futex until this time. -/
  | queued (timeout : ℕ)
  /-- It has been taken out of the queue and its wait has this result. -/
  | removed (res : ℤ)
  | asleep
  /-- It has been resumed and its call will return this result. -/
  | resumed (res : Option ℤ)
  deriving DecidableEq, Repr

/-- The thread that an entry is about. -/
def Entry.thread : Entry T → T
  | .enqueue t _ | .wake t _ | .timeOut t _ | .sleep t | .resume t | .return t _ _ | .answer t _ _ => t

/-- What can follow in the history of one thread. A timeout cannot come before its time, a thread
is removed once and resumed once, and the result is the one of the removal. -/
def Round.next : Round → Entry T → Option Round
  | .outside, .enqueue _ timeout => some (.queued timeout)
  | .outside, .sleep _ => some .asleep
  | .outside, .answer .. => some .outside
  | .queued _, .wake .. => some (.removed 0)
  | .queued timeout, .timeOut _ time => if timeout ≤ time then some (.removed eTimedOut) else none
  | .removed res, .resume _ => some (.resumed (some res))
  | .asleep, .resume _ => some (.resumed none)
  | .resumed res, .return _ res' _ => if res' = res then some .outside else none
  | _, _ => none

/-- The round of a thread according to the history, if that is possible. -/
def follow (t : T) : List (Entry T) → Option Round
  | [] => some .outside
  | e :: log => if e.thread = t then (follow t log).bind fun r => r.next e else follow t log

/-- The places of a thread in the queue of a futex. -/
def waits (s : Server T) (t : T) (uaddr : ℕ) : List (Waiter T) :=
  (s.futexes uaddr).filter fun w => w.thread = t

/-- The places of a thread among those that sleep. -/
def naps (s : Server T) (t : T) : List (Waiter T) :=
  s.sleeping.filter fun w => w.thread = t

/-- Where a thread is in its round. -/
def Placed (s : Server T) (t : T) : Round → Prop
  | .outside => s.call t = none ∧ s.stalled t = none ∧ (∀ a, waits s t a = []) ∧ naps s t = []
  | .queued timeout => s.stalled t = some .futex ∧ (∃ p, s.call t = some (.futex, p)) ∧ naps s t = [] ∧
      ∃ a mask, waits s t a = [⟨t, mask, timeout⟩] ∧ ∀ b ≠ a, waits s t b = []
  | .removed _ => False
  | .asleep => s.stalled t = some .sleep ∧ (∃ p, s.call t = some (.sleep, p)) ∧ (∀ a, waits s t a = []) ∧
      ∃ w, naps s t = [w]
  | .resumed res => s.stalled t = none ∧ (∃ reason p, s.call t = some (reason, p) ∧
      res = result reason (s.wakeupMsg t)) ∧ (∀ a, waits s t a = []) ∧ naps s t = []

/-- The history of every thread is possible and says where the thread is. -/
def Inv (s : Server T) : Prop :=
  ∀ t, ∃ r, follow t s.log = some r ∧ Placed s t r

section Queues

variable {s : Server T} {t : T}

omit [DecidableEq T] in
/-- The first waiter of a kind and the queue without it. -/
theorem find_eraseP {p : Waiter T → Bool} {q : List (Waiter T)} {w : Waiter T} (h : q.find? p = some w) :
    p w = true ∧ ∃ q₁ q₂, q = q₁ ++ w :: q₂ ∧ q.eraseP p = q₁ ++ q₂ := by
  obtain ⟨hw, q₁, q₂, rfl, hq₁⟩ := List.find?_eq_some_iff_append.mp h
  refine ⟨hw, q₁, q₂, rfl, ?_⟩
  rw [List.eraseP_append_right _ (fun b hb => by simpa using hq₁ b hb), List.eraseP_cons_of_pos hw]

/-- Another thread keeps its places when a waiter leaves. -/
theorem filter_ne {q₁ q₂ : List (Waiter T)} {w : Waiter T} (h : w.thread ≠ t) :
    (q₁ ++ w :: q₂).filter (fun w => w.thread = t) = (q₁ ++ q₂).filter fun w => w.thread = t := by
  simp [h]

/-- A thread with one place has none when it leaves. -/
theorem filter_eq_nil {q₁ q₂ : List (Waiter T)} {w v : Waiter T}
    (h : (q₁ ++ w :: q₂).filter (fun w' => w'.thread = w.thread) = [v]) :
    v = w ∧ (q₁ ++ q₂).filter (fun w' => w'.thread = w.thread) = [] := by
  rw [List.filter_append, List.filter_cons_of_pos (by simp)] at h
  obtain ⟨hnil, hcons⟩ | ⟨hl, hnil⟩ := List.append_eq_singleton_iff.mp h
  · obtain ⟨rfl, hnil'⟩ := List.cons.inj hcons
    exact ⟨rfl, by rw [List.filter_append, hnil, hnil']; rfl⟩
  · cases hnil

/-- Only what concerns the thread matters. -/
theorem Placed.congr {s' : Server T} {r : Round} (h : Placed s t r) (hs : s'.stalled t = s.stalled t)
    (hc : s'.call t = s.call t) (hm : s'.wakeupMsg t = s.wakeupMsg t) (hw : ∀ a, waits s' t a = waits s t a)
    (hn : naps s' t = naps s t) : Placed s' t r := by
  cases r <;> simp only [Placed, hs, hc, hm, hw, hn] at h ⊢ <;> exact h

/-- An entry about another thread. -/
theorem follow_ne {e : Entry T} {log : List (Entry T)} (h : e.thread ≠ t) :
    follow t (e :: log) = follow t log := by
  rw [follow, if_neg h]

/-- An entry about the thread. -/
theorem follow_eq {e : Entry T} {log : List (Entry T)} {r : Round} (h : e.thread = t)
    (hr : follow t log = some r) : follow t (e :: log) = r.next e := by
  rw [follow, if_pos h, hr]
  rfl

/-- The places of a thread after a change of one queue. -/
theorem waits_setFutex (a b : ℕ) (q : List (Waiter T)) :
    waits (s.setFutex a q) t b = if b = a then q.filter (fun w => w.thread = t) else waits s t b := by
  by_cases hb : b = a
  · simp [waits, setFutex, hb]
  · simp [waits, setFutex, hb]

/-- A thread in a queue is in the round for it. -/
theorem Placed.queued {r : Round} (h : Placed s t r) {a : ℕ} {v : Waiter T} (hv : v ∈ waits s t a) :
    ∃ timeout, r = .queued timeout ∧ waits s t a = [⟨t, v.mask, timeout⟩] ∧ v.timeout = timeout ∧
      ∀ b ≠ a, waits s t b = [] := by
  cases r with
  | outside =>
    rw [h.2.2.1 a] at hv
    cases hv
  | removed res => exact h.elim
  | asleep =>
    rw [h.2.2.1 a] at hv
    cases hv
  | resumed res =>
    rw [h.2.2.1 a] at hv
    cases hv
  | queued timeout =>
    obtain ⟨-, -, -, a', mask, ha', hother⟩ := h
    have haa : a = a' := by
      by_contra hne
      rw [hother a hne] at hv
      cases hv
    subst haa
    rw [ha', List.mem_singleton] at hv
    subst hv
    exact ⟨timeout, rfl, ha', rfl, hother⟩

end Queues

namespace Inv

variable {s : Server T} {t : T}

/-- A waiter is taken out of its queue and resumed, by a wake or when its time has come. -/
theorem remove (h : Inv s) {a : ℕ} {q₁ q₂ : List (Waiter T)} {w : Waiter T} {e : Entry T} {msg : Bool}
    (hq : s.futexes a = q₁ ++ w :: q₂) (he : e.thread = w.thread)
    (hnext : (Round.queued w.timeout).next e = some (.removed (if msg then 0 else eTimedOut))) (time : ℕ) :
    Inv (((s.setFutex a (q₁ ++ q₂)).record e).resumeThread w.thread time msg) := by
  intro t
  obtain ⟨r, hr, hp⟩ := h t
  by_cases ht : t = w.thread
  · subst ht
    have hmem : w ∈ waits s w.thread a := by
      unfold waits
      rw [hq]
      simp
    obtain ⟨timeout, rfl, hone, htime, hother⟩ := hp.queued hmem
    have hgone : (q₁ ++ q₂).filter (fun w' => w'.thread = w.thread) = [] := by
      unfold waits at hone
      rw [hq] at hone
      exact (filter_eq_nil hone).2
    refine ⟨.resumed (some (if msg then 0 else eTimedOut)), ?_, ?_⟩
    · have hrem : follow w.thread (e :: s.log) = some (.removed (if msg then 0 else eTimedOut)) := by
        rw [follow_eq he hr, ← htime, hnext]
      exact follow_eq (e := .resume w.thread) rfl hrem
    · obtain ⟨-, ⟨p, hcall⟩, hnaps, -⟩ := hp
      refine ⟨Function.update_self .., ⟨.futex, p, hcall, ?_⟩, fun b => ?_, hnaps⟩
      · simp [result, resumeThread, record]
      · show waits (s.setFutex a (q₁ ++ q₂)) w.thread b = []
        rw [waits_setFutex]
        split
        · exact hgone
        · rename_i hb
          exact hother b hb
  · have hne : w.thread ≠ t := fun heq => ht heq.symm
    refine ⟨r, ?_, hp.congr ?_ rfl ?_ (fun b => ?_) rfl⟩
    · show follow t (.resume w.thread :: e :: s.log) = some r
      rw [follow_ne (e := .resume w.thread) hne, follow_ne (he ▸ hne), hr]
    · exact Function.update_of_ne ht ..
    · exact Function.update_of_ne ht ..
    · show waits (s.setFutex a (q₁ ++ q₂)) t b = _
      rw [waits_setFutex]
      split
      · rename_i hb
        subst hb
        unfold waits
        rw [hq, filter_ne hne]
      · rfl

/-- `dequeueWaiter`. -/
theorem dequeueWaiter (h : Inv s) (a : ℕ) (by_ : T) (mask : BitVec 32) (time : ℕ) :
    Inv (s.dequeueWaiter a by_ mask time).1 := by
  unfold Server.dequeueWaiter
  split
  · rename_i w hw
    obtain ⟨-, q₁, q₂, hq, hrest⟩ := find_eraseP hw
    rw [hrest]
    exact h.remove hq rfl rfl time
  · exact h

/-- `wakeTimedOut`. -/
theorem wakeTimedOut (h : Inv s) (time a : ℕ) : Inv (s.wakeTimedOut time a) := by
  unfold Server.wakeTimedOut
  split
  · rename_i w hw
    obtain ⟨hle, q₁, q₂, hq, hrest⟩ := find_eraseP hw
    rw [hrest]
    refine h.remove hq rfl ?_ time
    simp only [decide_eq_true_eq] at hle
    simp [Round.next, hle]
  · exact h

/-- `requeueWaiter`. -/
theorem requeueWaiter (h : Inv s) {a b : ℕ} (hab : a ≠ b) : Inv (s.requeueWaiter a b).1 := by
  unfold Server.requeueWaiter
  split
  · exact h
  · rename_i w rest hq
    have hwaits : ∀ t c, waits ((s.setFutex a rest).setFutex b ((s.setFutex a rest).futexes b ++ [w])) t c =
        if c = b then waits s t b ++ [w].filter (fun v => v.thread = t)
        else if c = a then rest.filter (fun v => v.thread = t) else waits s t c := by
      intro t c
      have hb : (s.setFutex a rest).futexes b = s.futexes b := Function.update_of_ne (Ne.symm hab) ..
      rw [waits_setFutex, waits_setFutex, hb, List.filter_append]
      rfl
    intro t
    obtain ⟨r, hr, hp⟩ := h t
    refine ⟨r, hr, ?_⟩
    by_cases ht : w.thread = t
    · have hmem : w ∈ waits s t a := by
        unfold waits
        rw [hq]
        simp [ht]
      obtain ⟨timeout, rfl, hone, -, hother⟩ := hp.queued hmem
      obtain ⟨hst, hcall, hnaps, -⟩ := hp
      unfold waits at hone
      rw [hq, List.filter_cons_of_pos (by simpa using ht)] at hone
      obtain ⟨hw, hrest⟩ := List.cons.inj hone
      refine ⟨hst, hcall, hnaps, b, w.mask, ?_, fun c hc => ?_⟩
      · rw [hwaits, if_pos rfl, hother b (Ne.symm hab), List.nil_append,
          List.filter_cons_of_pos (by simpa using ht), List.filter_nil, hw]
      · rw [hwaits, if_neg hc]
        split
        · exact hrest
        · rename_i hca
          exact hother c hca
    · refine hp.congr rfl rfl rfl (fun c => ?_) rfl
      rw [hwaits]
      split
      · rename_i hc
        simp [hc, ht]
      · split
        · rename_i hc
          simp [waits, hc, hq, ht]
        · rfl

/-- The loops around `dequeueWaiter`. -/
theorem wakeLoop (h : Inv s) (a : ℕ) (by_ : T) (mask : BitVec 32) (time n : ℕ) :
    Inv (s.wakeLoop a by_ mask time n).1 := by
  induction n generalizing s with
  | zero => exact h
  | succ n ih =>
    have hd := h.dequeueWaiter a by_ mask time
    unfold Server.wakeLoop
    cases hr : s.dequeueWaiter a by_ mask time with
    | mk s' woken =>
      rw [hr] at hd
      cases woken with
      | some t => exact ih hd
      | none => exact hd

/-- The loop around `requeueWaiter`. -/
theorem requeueLoop (h : Inv s) {a b : ℕ} (hab : a ≠ b) (n : ℕ) : Inv (s.requeueLoop a b n) := by
  induction n generalizing s with
  | zero => exact h
  | succ n ih =>
    have hd := h.requeueWaiter hab
    unfold Server.requeueLoop
    cases hr : s.requeueWaiter a b with
    | mk s' moved =>
      rw [hr] at hd
      cases moved with
      | some t => exact ih hd
      | none => exact hd

/-- Nothing of what a thread is about changes. -/
theorem congr (h : Inv s) {s' : Server T} (hl : s'.log = s.log) (hs : s'.stalled = s.stalled)
    (hc : s'.call = s.call) (hm : s'.wakeupMsg = s.wakeupMsg) (hf : s'.futexes = s.futexes)
    (hn : s'.sleeping = s.sleeping) : Inv s' := by
  intro t
  obtain ⟨r, hr, hp⟩ := h t
  refine ⟨r, by rw [hl, hr], hp.congr (by rw [hs]) (by rw [hc]) (by rw [hm]) (fun a => ?_) ?_⟩
  · unfold waits
    rw [hf]
  · unfold naps
    rw [hn]

/-- A thread that is in no call. -/
theorem outside (h : Inv s) (hc : s.call t = none) :
    follow t s.log = some .outside ∧ Placed s t .outside := by
  obtain ⟨r, hr, hp⟩ := h t
  cases r with
  | outside => exact ⟨hr, hp⟩
  | queued timeout =>
    obtain ⟨-, ⟨p, hcall⟩, -⟩ := hp
    rw [hc] at hcall
    cases hcall
  | removed res => exact hp.elim
  | asleep =>
    obtain ⟨-, ⟨p, hcall⟩, -⟩ := hp
    rw [hc] at hcall
    cases hcall
  | resumed res =>
    obtain ⟨-, ⟨reason, p, hcall, -⟩, -⟩ := hp
    rw [hc] at hcall
    cases hcall

/-- A call that does not stall returns. -/
theorem answer (h : Inv s) (hc : s.call t = none) (res : ℤ) (time : ℕ) :
    Inv (s.record (.answer t res time)) := by
  intro u
  by_cases hu : t = u
  · subst hu
    obtain ⟨hr, hp⟩ := h.outside hc
    exact ⟨.outside, follow_eq (e := .answer t res time) rfl hr, hp.congr rfl rfl rfl (fun _ => rfl) rfl⟩
  · obtain ⟨r, hr, hp⟩ := h u
    exact ⟨r, (follow_ne (e := .answer t res time) hu).trans hr, hp.congr rfl rfl rfl (fun _ => rfl) rfl⟩

/-- `enqueueWaiter`. -/
theorem enqueueWaiter (h : Inv s) (hc : s.call t = none) (a : ℕ) (mask : BitVec 32) (timeout : ℕ) :
    Inv (s.enqueueWaiter a t mask timeout) := by
  have hwaits : ∀ u b, waits (s.enqueueWaiter a t mask timeout) u b = if b = a
      then waits s u a ++ [⟨t, mask, timeout⟩].filter (fun w => w.thread = u) else waits s u b := by
    intro u b
    show waits (s.setFutex a (s.futexes a ++ [⟨t, mask, timeout⟩])) u b = _
    rw [waits_setFutex, List.filter_append]
    rfl
  intro u
  by_cases hu : t = u
  · subst hu
    obtain ⟨hr, -, -, hw, hn⟩ := h.outside hc
    refine ⟨.queued timeout, follow_eq (e := .enqueue t timeout) rfl hr, Function.update_self ..,
      ⟨.stalling, Function.update_self ..⟩, hn, a, mask, ?_, fun b hb => ?_⟩
    · rw [hwaits, if_pos rfl, hw a]
      simp
    · rw [hwaits, if_neg hb, hw b]
  · obtain ⟨r, hr, hp⟩ := h u
    refine ⟨r, (follow_ne (e := .enqueue t timeout) hu).trans hr,
      hp.congr (Function.update_of_ne (Ne.symm hu) ..) (Function.update_of_ne (Ne.symm hu) ..) rfl (fun b => ?_) rfl⟩
    rw [hwaits]
    split
    · rename_i hb
      simp [hb, hu]
    · rfl

/-- `handleSleepCall`. -/
theorem handleSleepCall (h : Inv s) (hc : s.call t = none) (wakeTime : ℕ) :
    Inv (s.handleSleepCall t wakeTime) := by
  have hnaps : ∀ u, naps (s.handleSleepCall t wakeTime) u =
      naps s u ++ [⟨t, 0#32, wakeTime⟩].filter (fun w => w.thread = u) := by
    intro u
    exact List.filter_append ..
  intro u
  by_cases hu : t = u
  · subst hu
    obtain ⟨hr, -, -, hw, hn⟩ := h.outside hc
    refine ⟨.asleep, follow_eq (e := .sleep t) rfl hr, Function.update_self ..,
      ⟨.stalling, Function.update_self ..⟩, hw, ⟨t, 0#32, wakeTime⟩, ?_⟩
    rw [hnaps, hn]
    simp
  · obtain ⟨r, hr, hp⟩ := h u
    refine ⟨r, (follow_ne (e := .sleep t) hu).trans hr,
      hp.congr (Function.update_of_ne (Ne.symm hu) ..) (Function.update_of_ne (Ne.symm hu) ..) rfl (fun _ => rfl) ?_⟩
    rw [hnaps]
    simp [hu]

/-- The sleeping threads of a periodic call. -/
theorem wakeSleeping (h : Inv s) (time : ℕ) : Inv (s.wakeSleeping time) := by
  unfold Server.wakeSleeping
  split
  · rename_i w hw
    obtain ⟨-, q₁, q₂, hq, hrest⟩ := find_eraseP hw
    rw [hrest]
    intro t
    obtain ⟨r, hr, hp⟩ := h t
    by_cases ht : w.thread = t
    · have hmem : w ∈ naps s t := by
        unfold naps
        rw [hq]
        simp [ht]
      cases r with
      | outside =>
        rw [hp.2.2.2] at hmem
        cases hmem
      | queued timeout =>
        rw [hp.2.2.1] at hmem
        cases hmem
      | removed res => exact hp.elim
      | resumed res =>
        rw [hp.2.2.2] at hmem
        cases hmem
      | asleep =>
        obtain ⟨-, ⟨p, hcall⟩, hwaits, v, hv⟩ := hp
        subst ht
        have hgone : (q₁ ++ q₂).filter (fun w' => w'.thread = w.thread) = [] := by
          unfold naps at hv
          rw [hq] at hv
          exact (filter_eq_nil hv).2
        refine ⟨.resumed none, follow_eq (e := .resume w.thread) rfl hr, Function.update_self ..,
          ⟨.sleep, p, hcall, rfl⟩, hwaits, hgone⟩
    · refine ⟨r, (follow_ne (e := .resume w.thread) ht).trans hr,
        hp.congr (Function.update_of_ne (Ne.symm ht) ..) rfl (Function.update_of_ne (Ne.symm ht) ..) (fun _ => rfl) ?_⟩
      show (q₁ ++ q₂).filter _ = s.sleeping.filter _
      rw [hq, filter_ne ht]
  · exact h

/-- `futexPeriodic`. -/
theorem futexPeriodic (h : Inv s) (time : ℕ) (order : List ℕ) : Inv (s.futexPeriodic time order) := by
  unfold Server.futexPeriodic
  have h' := h.wakeSleeping time
  generalize s.wakeSleeping time = s' at h'
  induction order generalizing s' with
  | nil => exact h'
  | cons a order ih => exact ih (s'.wakeTimedOut time a) (h'.wakeTimedOut time a)

/-- The call of a thread that has been resumed returns. -/
theorem leave (h : Inv s) {reason : StallType} {p : Phase} (hc : s.call t = some (reason, p))
    (hs : s.stalled t = none) : Inv (s.leave t reason) := by
  intro u
  obtain ⟨r, hr, hp⟩ := h u
  by_cases hu : t = u
  · subst hu
    cases r with
    | outside =>
      rw [hp.1] at hc
      cases hc
    | queued timeout =>
      rw [hp.1] at hs
      cases hs
    | removed res => exact hp.elim
    | asleep =>
      rw [hp.1] at hs
      cases hs
    | resumed res =>
      obtain ⟨-, ⟨reason', p', hcall, hres⟩, hwaits, hnaps⟩ := hp
      obtain ⟨rfl, rfl⟩ : reason = reason' ∧ p = p' := by
        rw [hc] at hcall
        simpa using hcall
      refine ⟨.outside, ?_, Function.update_self .., hs, hwaits, hnaps⟩
      refine (follow_eq (e := .return t (result reason (s.wakeupMsg t)) (s.wakeupTime t)) rfl hr).trans ?_
      simp [Round.next, hres]
  · exact ⟨r, (follow_ne (e := .return t _ _) hu).trans hr,
      hp.congr rfl (Function.update_of_ne (Ne.symm hu) ..) rfl (fun _ => rfl) rfl⟩

/-- The end of `stallThread`. -/
theorem settle (h : Inv s) {reason : StallType} {p : Phase} (hc : s.call t = some (reason, p)) :
    Inv (s.settle t reason) := by
  unfold Server.settle
  split
  · rename_i hs
    exact h.leave hc hs
  · rename_i hs
    intro u
    obtain ⟨r, hr, hp⟩ := h u
    refine ⟨r, hr, ?_⟩
    by_cases hu : u = t
    · subst hu
      -- a thread that is still stalled has got no message
      cases r with
      | outside => exact absurd hp.2.1 hs
      | queued timeout =>
        obtain ⟨hst, ⟨p', hcall⟩, hnaps, hwaits⟩ := hp
        rw [hc] at hcall
        refine ⟨hst, ⟨.waiting, ?_⟩, hnaps, hwaits⟩
        rw [← (Prod.mk.inj (Option.some.inj hcall)).1]
        exact Function.update_self ..
      | removed res => exact hp.elim
      | asleep =>
        obtain ⟨hst, ⟨p', hcall⟩, hwaits, hnaps⟩ := hp
        rw [hc] at hcall
        refine ⟨hst, ⟨.waiting, ?_⟩, hwaits, hnaps⟩
        rw [← (Prod.mk.inj (Option.some.inj hcall)).1]
        exact Function.update_self ..
      | resumed res => exact absurd hp.1 hs
    · exact hp.congr rfl (Function.update_of_ne hu ..) (Function.update_of_ne hu ..) (fun _ => rfl) rfl

end Inv

/-- Waking others leaves the calls of all threads as they are. -/
theorem wakeLoop_call (s : Server T) (a : ℕ) (by_ : T) (mask : BitVec 32) (time n : ℕ) :
    (s.wakeLoop a by_ mask time n).1.call = s.call := by
  induction n generalizing s with
  | zero => rfl
  | succ n ih =>
    unfold Server.wakeLoop
    cases hr : s.dequeueWaiter a by_ mask time with
    | mk s' woken =>
      have hs' : s'.call = s.call := by
        unfold Server.dequeueWaiter at hr
        split at hr
        · rw [← (Prod.mk.inj hr).1]
          rfl
        · rw [← (Prod.mk.inj hr).1]
      cases woken with
      | some t => exact (ih s').trans hs'
      | none => exact hs'

omit [DecidableEq T] in
/-- Moving waiters leaves the calls of all threads as they are. -/
theorem requeueLoop_call (s : Server T) (a b n : ℕ) : (s.requeueLoop a b n).call = s.call := by
  induction n generalizing s with
  | zero => rfl
  | succ n ih =>
    unfold Server.requeueLoop Server.requeueWaiter
    split
    · rename_i s' t hr
      have hs' : s'.call = s.call := by
        split at hr
        · cases hr
        · rw [← (Prod.mk.inj hr).1]
          rfl
      exact (ih s').trans hs'
    · rename_i s' hr
      split at hr
      · rw [← (Prod.mk.inj hr).1]
      · cases hr

namespace Inv

variable {s : Server T} {t : T}

/-- A futex is looked up. -/
theorem findFutexByUaddr (h : Inv s) (a : ℕ) : Inv (s.findFutexByUaddr a) :=
  h.congr rfl rfl rfl rfl rfl rfl

/-- `handleFutexCall`. -/
theorem handleFutexCall (h : Inv s) (hc : s.call t = none) (cmd : Cmd) (args : Args) (currTime : ℕ)
    (executed : Bool) :
    Ensures (s.handleFutexCall t cmd args currTime executed) Inv fun _ => True := by
  have hwait : ∀ mask timeout, Inv (s.futexWait t args.uaddr args.val (s.memory args.uaddr) mask currTime timeout) := by
    intro mask timeout
    unfold Server.futexWait
    dsimp only
    split
    · exact (h.findFutexByUaddr _).answer hc _ _
    · exact (h.findFutexByUaddr _).enqueueWaiter hc _ _ _
  have hwake : ∀ mask, Inv (s.futexWake t args.uaddr args.val mask currTime executed) := by
    intro mask
    unfold Server.futexWake
    dsimp only
    refine ((h.findFutexByUaddr _).wakeLoop _ _ _ _ _).answer ?_ _ _
    rw [wakeLoop_call]
    exact hc
  unfold Server.handleFutexCall
  dsimp only
  cases cmd with
  | wait => exact Ensures.ok (hwait _ _)
  | waitBitset => exact Ensures.ok (hwait _ _)
  | wake => exact Ensures.ok (hwake _)
  | wakeBitset => exact Ensures.ok (hwake _)
  | wakeOp =>
    dsimp only
    unfold Server.futexWakeOp Server.futexDoOp
    refine Ensures.bind (Q := fun p => Inv p.1 ∧ p.1.call = s.call) ?_ fun p hp => ?_
    · exact .bind_any fun newval => .bind_any fun ret => .ok ⟨h.congr rfl rfl rfl rfl rfl rfl, rfl⟩
    · obtain ⟨s', opRet⟩ := p
      obtain ⟨hs', hcall⟩ := hp
      have hc' : s'.call t = none := by rw [hcall, hc]
      refine Ensures.ok ?_
      have h₁ := hs'.wakeLoop args.uaddr t matchAny (currTime + s'.applyRescheduleCost executed true)
        (iterations args.val)
      cases opRet with
      | true =>
        refine (h₁.wakeLoop args.uaddr2 t matchAny _ (iterations args.val2)).answer ?_ _ _
        rw [wakeLoop_call, wakeLoop_call]
        exact hc'
      | false =>
        refine h₁.answer ?_ _ _
        rw [wakeLoop_call]
        exact hc'
  | cmpRequeue =>
    dsimp only
    split
    · exact Ensures.error trivial
    · rename_i hne
      refine Ensures.ok ?_
      unfold Server.futexCmpRequeue
      dsimp only
      split
      · exact (h.findFutexByUaddr _).answer hc _ _
      · have h₁ := (h.findFutexByUaddr args.uaddr).wakeLoop args.uaddr t matchAny currTime (iterations args.val)
        refine ((h₁.findFutexByUaddr args.uaddr2).requeueLoop hne _).answer ?_ _ _
        rw [requeueLoop_call]
        show Server.call (Server.wakeLoop _ _ _ _ _ _).1 t = none
        rw [wakeLoop_call]
        exact hc

/-- Every step keeps the waiters in their queues. -/
theorem step (h : Inv s) (e : Event T) : Ensures (Futex.step s e) Inv fun _ => True := by
  cases e with
  | futexCall t cmd args currTime executed =>
    dsimp only [Futex.step]
    split
    · rename_i hc
      exact h.handleFutexCall hc cmd args currTime executed
    · exact Ensures.error trivial
  | sleepCall t wakeTime =>
    dsimp only [Futex.step]
    split
    · rename_i hc
      exact Ensures.ok (h.handleSleepCall hc wakeTime)
    · exact Ensures.error trivial
  | periodic time order =>
    dsimp only [Futex.step]
    split
    · exact Ensures.ok (h.futexPeriodic time order)
    · exact Ensures.ok h
  | goOn t =>
    dsimp only [Futex.step]
    split
    · exact Ensures.ok h
    · rename_i reason hc
      exact Ensures.ok (h.settle hc)
    · rename_i reason hc
      split
      · rename_i hs
        exact Ensures.ok (h.leave hc hs)
      · exact Ensures.ok h
  | store a val => exact Ensures.ok (h.congr rfl rfl rfl rfl rfl rfl)

/-- The waiters are in their queues in every reachable state. -/
theorem of_reachable {cost : ℕ} {memory : ℕ → BitVec 32}
    (h : (machine T).Reachable (initial cost memory) s) : Inv s := by
  refine h.invariant (fun t => ⟨.outside, rfl, rfl, rfl, fun _ => rfl, rfl⟩) fun s e s' hs he => ?_
  exact (hs.step e).of_ok he

end Inv

end LifeSim.Futex
