import LifeSim.Lib.Machine
import LifeSim.Lib.Modify
import Mathlib.Data.List.Infix
import Mathlib.Data.List.Count

/-!
# The barriers of the application

`SimBarrier` and the two calls of the sync server that use it. A thread that is not the last of its round queues up and
is stalled; the last one resumes the others and goes on. Threads also stall and are resumed for other reasons, and a
stalled thread makes no calls.

The log has one entry for every arrival and one for every departure, newest first. It has no influence on what is done.
-/

namespace LifeSim.AppBarrier

open LifeSim.Lib

/-- Why a thread is stalled: `STALL_BARRIER`, or any of the other reasons of `ThreadManager::stall_type_t`. -/
inductive StallType
  | barrier
  | other
  deriving DecidableEq, Repr

/-- `SimBarrier`: its `m_count` and its waiting queue, front first. -/
structure SimBarrier (T : Type) where
  count : BitVec 32
  waiting : List T
  deriving DecidableEq, Repr

/-- A thread arrives at a barrier, or goes on behind it. -/
inductive Entry (T : Type)
  | arrive (barrier : ℕ) (thread : T) (time : ℕ)
  | leave (barrier : ℕ) (thread : T) (time : ℕ)
  deriving DecidableEq, Repr

/-- The barriers of the sync server, with the part of the thread manager that they use. -/
structure Server (T : Type) where
  barriers : List (SimBarrier T)
  stalled : T → Option StallType
  log : List (Entry T)

/-- What a thread does, or what happens to it. -/
inductive Call (T : Type)
  | barrierInit (thread : T) (count : BitVec 32)
  | barrierWait (thread : T) (barrier time : ℕ)
  /-- The thread is stalled for another reason. -/
  | stall (thread : T)
  /-- A thread that was stalled for another reason is resumed. -/
  | resume (thread : T)
  deriving DecidableEq, Repr

/-- Why a call is not carried out. -/
inductive Fault
  /-- A stalled thread makes no calls. -/
  | callerStalled
  /-- There is no barrier with this number. -/
  | noSuchBarrier
  /-- The thread is not stalled, or it waits at a barrier. -/
  | notResumable
  deriving DecidableEq, Repr

variable {T : Type} [DecidableEq T]

def initial : Server T := { barriers := [], stalled := fun _ => none, log := [] }

def Server.record (s : Server T) (e : Entry T) : Server T := { s with log := e :: s.log }

def Server.setWaiting (s : Server T) (barrier : ℕ) (q : List T) : Server T :=
  { s with barriers := s.barriers.modify barrier fun x => { x with waiting := q } }

def Server.stallThread (s : Server T) (thread : T) (reason : StallType) : Server T :=
  { s with stalled := Function.update s.stalled thread (some reason) }

def Server.resumeThread (s : Server T) (thread : T) : Server T :=
  { s with stalled := Function.update s.stalled thread none }

/-- The loop of `SimBarrier::wait` over the threads that are left in the queue. -/
def Server.release (barrier time : ℕ) : List T → Server T → Server T
  | [], s => s
  | waiter :: rest, s =>
    release barrier time rest (((s.setWaiting barrier rest).resumeThread waiter).record (.leave barrier waiter time))

/-- `SimBarrier::wait`. The count is decremented as an unsigned number. -/
def Server.wait (s : Server T) (barrier : ℕ) (x : SimBarrier T) (thread : T) (time : ℕ) : Server T :=
  let s := s.record (.arrive barrier thread time)
  if x.waiting.length = (x.count - 1#32).toNat then
    (Server.release barrier time x.waiting s).record (.leave barrier thread time)
  else (s.setWaiting barrier (x.waiting ++ [thread])).stallThread thread .barrier

def step (s : Server T) : Call T → Except Fault (Server T)
  | .barrierInit thread count =>
    if s.stalled thread = none then .ok { s with barriers := s.barriers ++ [⟨count, []⟩] } else .error .callerStalled
  | .barrierWait thread barrier time =>
    if s.stalled thread = none then
      match s.barriers[barrier]? with
      | some x => .ok (s.wait barrier x thread time)
      | none => .error .noSuchBarrier
    else .error .callerStalled
  | .stall thread => if s.stalled thread = none then .ok (s.stallThread thread .other) else .error .callerStalled
  | .resume thread =>
    if s.stalled thread = some .other then .ok (s.resumeThread thread) else .error .notResumable

/-- Any number of threads use any number of barriers. -/
def machine (T : Type) [DecidableEq T] : Machine (Server T) (Call T) Fault := ⟨step⟩

/-! ### Reading the log -/

/-- The threads that arrived at a barrier, in order. -/
def arrived (barrier : ℕ) : List (Entry T) → List T
  | [] => []
  | .arrive b t _ :: log => if b = barrier then arrived barrier log ++ [t] else arrived barrier log
  | .leave .. :: log => arrived barrier log

/-- The threads that went on behind a barrier, in order. -/
def left (barrier : ℕ) : List (Entry T) → List T
  | [] => []
  | .leave b t _ :: log => if b = barrier then left barrier log ++ [t] else left barrier log
  | .arrive .. :: log => left barrier log

/-- How many of the arrivals belong to rounds that are complete. -/
def complete (n barrier : ℕ) (log : List (Entry T)) : ℕ := n * ((arrived barrier log).length / n)

/-- The threads left in the order of their arrival, and only in complete rounds. -/
def OnTime (n barrier : ℕ) (log : List (Entry T)) : Prop :=
  left barrier log <+: (arrived barrier log).take (complete n barrier log)

/-- The entry is about this barrier. -/
def Entry.barrier : Entry T → ℕ
  | .arrive b .. | .leave b .. => b

section Log

variable {b n : ℕ} {log : List (Entry T)}

omit [DecidableEq T] in
theorem arrived_cons_of_ne {e : Entry T} (h : e.barrier ≠ b) : arrived b (e :: log) = arrived b log := by
  cases e with
  | arrive => exact if_neg h
  | leave => rfl

omit [DecidableEq T] in
theorem left_cons_of_ne {e : Entry T} (h : e.barrier ≠ b) : left b (e :: log) = left b log := by
  cases e with
  | arrive => rfl
  | leave => exact if_neg h

omit [DecidableEq T] in
theorem arrived_arrive (t : T) (time : ℕ) : arrived b (.arrive b t time :: log) = arrived b log ++ [t] := if_pos rfl

omit [DecidableEq T] in
theorem left_leave (t : T) (time : ℕ) : left b (.leave b t time :: log) = left b log ++ [t] := if_pos rfl

omit [DecidableEq T] in
theorem onTime_cons_of_ne {e : Entry T} (h : e.barrier ≠ b) (hlog : OnTime n b log) : OnTime n b (e :: log) := by
  rw [OnTime, complete, arrived_cons_of_ne h, left_cons_of_ne h]
  exact hlog

omit [DecidableEq T] in
/-- More arrivals complete no fewer rounds. -/
theorem onTime_arrive (t : T) (time : ℕ) (hlog : OnTime n b log) : OnTime n b (.arrive b t time :: log) := by
  have hrounds : complete n b log ≤ complete n b (.arrive b t time :: log) := by
    rw [complete, complete, arrived_arrive, List.length_append]
    exact Nat.mul_le_mul_left n (Nat.div_le_div_right (Nat.le_add_right _ _))
  have hle : complete n b log ≤ (arrived b log).length := Nat.mul_div_le _ _
  have hinitial : (arrived b log).take (complete n b log) <+: arrived b (.arrive b t time :: log) := by
    rw [arrived_arrive]
    exact (List.take_prefix _ _).trans (List.prefix_append _ _)
  refine (hlog.trans ?_ : left b log <+: _)
  rw [List.prefix_take_iff]
  exact ⟨hinitial, (List.length_take_le _ _).trans hrounds⟩

omit [DecidableEq T] in
/-- In a complete round the first one that is still there may leave. -/
theorem onTime_leave {t : T} {rest : List T} (time : ℕ) (hround : n ∣ (arrived b log).length)
    (hnext : arrived b log = left b log ++ t :: rest) : OnTime n b (.leave b t time :: log) := by
  have hall : complete n b (.leave b t time :: log) = (arrived b log).length := Nat.mul_div_cancel' hround
  rw [OnTime, hall, left_leave]
  change _ <+: (arrived b log).take _
  rw [List.take_length, hnext, List.append_cons (left b log) t rest]
  exact List.prefix_append _ _

omit [DecidableEq T] in
/-- A property of the log at all times, when one more entry is made. -/
theorem forall_suffix_cons {P : List (Entry T) → Prop} {e : Entry T} (hnew : P (e :: log))
    (hold : ∀ older, older <:+ log → P older) : ∀ older, older <:+ e :: log → P older := by
  intro older holder
  rcases List.suffix_cons_iff.1 holder with rfl | holder
  · exact hnew
  · exact hold older holder

/-- The threads leave one after the other. -/
def leaveAll (barrier time : ℕ) (threads : List T) (log : List (Entry T)) : List (Entry T) :=
  threads.foldl (fun log t => .leave barrier t time :: log) log

omit [DecidableEq T] in
/-- All that are there leave, in a complete round. -/
theorem leaveAll_spec {threads : List T} (time : ℕ) (hround : n ∣ (arrived b log).length)
    (hthere : arrived b log = left b log ++ threads) (hold : ∀ older, older <:+ log → OnTime n b older) :
    arrived b (leaveAll b time threads log) = arrived b log ∧ left b (leaveAll b time threads log) = arrived b log ∧
      ∀ older, older <:+ leaveAll b time threads log → OnTime n b older := by
  induction threads generalizing log with
  | nil =>
    rw [List.append_nil] at hthere
    exact ⟨rfl, hthere.symm, hold⟩
  | cons t rest ih =>
    have hnext : arrived b (.leave b t time :: log) = left b (.leave b t time :: log) ++ rest := by
      rw [left_leave, ← List.append_cons]
      exact hthere
    have hleft := forall_suffix_cons (onTime_leave time hround hthere) hold
    exact ih hround hnext hleft

omit [DecidableEq T] in
theorem leaveAll_of_ne {b' : ℕ} {threads : List T} (time : ℕ) (h : b' ≠ b)
    (hold : ∀ older, older <:+ log → OnTime n b older) :
    arrived b (leaveAll b' time threads log) = arrived b log ∧ left b (leaveAll b' time threads log) = left b log ∧
      ∀ older, older <:+ leaveAll b' time threads log → OnTime n b older := by
  induction threads generalizing log with
  | nil => exact ⟨rfl, rfl, hold⟩
  | cons t rest ih =>
    have hne : (Entry.leave b' t time).barrier ≠ b := h
    have hall := forall_suffix_cons (onTime_cons_of_ne hne (hold log List.suffix_rfl)) hold
    obtain ⟨harrived, hleft, honTime⟩ := ih hall
    exact ⟨harrived, hleft.trans (left_cons_of_ne hne), honTime⟩

omit [DecidableEq T] in
theorem mem_leaveAll {threads : List T} {time : ℕ} {e : Entry T} (h : e ∈ leaveAll b time threads log) :
    e.barrier = b ∨ e ∈ log := by
  induction threads generalizing log with
  | nil => exact .inr h
  | cons t rest ih =>
    rcases ih h with hb | hmem
    · exact .inl hb
    · rcases List.mem_cons.1 hmem with rfl | hmem
      · exact .inl rfl
      · exact .inr hmem

end Log

/-! ### What a release does -/

section Release

variable (s : Server T) (barrier time : ℕ) (threads : List T)

theorem release_log : (Server.release barrier time threads s).log = leaveAll barrier time threads s.log := by
  induction threads generalizing s with
  | nil => rfl
  | cons t rest ih =>
    rw [Server.release, ih]
    rfl

/-- The entries of the last thread of a round. -/
theorem release_record_log (t : T) :
    ((Server.release barrier time threads (s.record (.arrive barrier t time))).record (.leave barrier t time)).log =
      leaveAll barrier time (threads ++ [t]) (.arrive barrier t time :: s.log) := by
  rw [Server.record, release_log, leaveAll, leaveAll, List.foldl_append]
  rfl

theorem release_stalled (t : T) :
    (Server.release barrier time threads s).stalled t = if t ∈ threads then none else s.stalled t := by
  induction threads generalizing s with
  | nil => rfl
  | cons waiter rest ih =>
    rw [Server.release, ih]
    by_cases hrest : t ∈ rest
    · rw [if_pos hrest, if_pos (List.mem_cons_of_mem _ hrest)]
    · rw [if_neg hrest]
      change Function.update s.stalled waiter none t = _
      by_cases ht : t = waiter
      · rw [ht, Function.update_self, if_pos List.mem_cons_self]
      · rw [Function.update_of_ne ht, if_neg fun hmem => (List.mem_cons.1 hmem).elim ht hrest]

variable {s threads}

theorem release_barriers {x : SimBarrier T} (hx : s.barriers[barrier]? = some x) (hwaiting : x.waiting = threads) :
    (Server.release barrier time threads s).barriers = s.barriers.modify barrier fun x => { x with waiting := [] } := by
  induction threads generalizing s x with
  | nil =>
    rw [Server.release]
    refine (modify_of_eq_self (f := fun x : SimBarrier T => { x with waiting := [] }) hx ?_).symm
    rw [← hwaiting]
  | cons waiter rest ih =>
    have hx' : (s.setWaiting barrier rest).barriers[barrier]? = some { x with waiting := rest } := by
      rw [Server.setWaiting, List.getElem?_modify_eq, hx]
      rfl
    rw [Server.release]
    refine (ih (s := ((s.setWaiting barrier rest).resumeThread waiter).record
      (.leave barrier waiter time)) hx' rfl).trans ?_
    exact List.modify_modify_eq ..

end Release

/-! ### The invariant -/

/-- A barrier of `n` threads and its history. -/
structure Grouped (n b : ℕ) (waiting : List T) (log : List (Entry T)) : Prop where
  arrived_eq : arrived b log = left b log ++ waiting
  rounds : n ∣ (left b log).length
  short : waiting.length < n
  onTime : ∀ older, older <:+ log → OnTime n b older

namespace Grouped

variable {n b : ℕ} {waiting : List T} {log : List (Entry T)}

omit [DecidableEq T] in
/-- Nothing has happened at the barrier. -/
theorem of_unused (hn : 0 < n) (h : ∀ e ∈ log, e.barrier ≠ b) : Grouped n b ([] : List T) log := by
  have hunused (older : List (Entry T)) (holder : older <:+ log) : arrived b older = [] ∧ left b older = [] := by
    have hother := fun e he => h e (holder.subset he)
    clear holder
    induction older with
    | nil => exact ⟨rfl, rfl⟩
    | cons e older ih =>
      have hne := hother e List.mem_cons_self
      rw [arrived_cons_of_ne hne, left_cons_of_ne hne]
      exact ih fun e he => hother e (List.mem_cons_of_mem _ he)
  have hlog := hunused log List.suffix_rfl
  exact
    { arrived_eq := by rw [hlog.1, hlog.2]; rfl
      rounds := by rw [hlog.2]; exact Nat.dvd_zero n
      short := hn
      onTime := fun older holder => by
        rw [OnTime, (hunused older holder).2]
        exact List.nil_prefix }

omit [DecidableEq T] in
/-- Something happens at another barrier. -/
theorem cons_of_ne (h : Grouped n b waiting log) {e : Entry T} (he : e.barrier ≠ b) : Grouped n b waiting (e :: log) where
  arrived_eq := by
    rw [arrived_cons_of_ne he, left_cons_of_ne he]
    exact h.arrived_eq
  rounds := by
    rw [left_cons_of_ne he]
    exact h.rounds
  short := h.short
  onTime := forall_suffix_cons (onTime_cons_of_ne he (h.onTime log List.suffix_rfl)) h.onTime

omit [DecidableEq T] in
/-- A thread arrives that is not the last one of its round. -/
theorem arrive (h : Grouped n b waiting log) (t : T) (time : ℕ) (hmore : waiting.length + 1 ≠ n) :
    Grouped n b (waiting ++ [t]) (.arrive b t time :: log) where
  arrived_eq := by
    rw [arrived_arrive, h.arrived_eq, List.append_assoc]
    rfl
  rounds := h.rounds
  short := by
    have hshort := h.short
    rw [List.length_append, List.length_singleton]
    omega
  onTime := forall_suffix_cons (onTime_arrive t time (h.onTime log List.suffix_rfl)) h.onTime

omit [DecidableEq T] in
/-- The last thread of a round arrives, and all of the round leave. -/
theorem leaveAll (h : Grouped n b waiting log) (t : T) (time : ℕ) (hlast : waiting.length + 1 = n) :
    Grouped n b [] (AppBarrier.leaveAll b time (waiting ++ [t]) (.arrive b t time :: log)) ∧
      left b (AppBarrier.leaveAll b time (waiting ++ [t]) (.arrive b t time :: log)) =
        left b log ++ (waiting ++ [t]) := by
  have hthere : arrived b (.arrive b t time :: log) = left b log ++ (waiting ++ [t]) := by
    rw [arrived_arrive, h.arrived_eq, List.append_assoc]
  have hround : n ∣ (arrived b (.arrive b t time :: log)).length := by
    rw [hthere, List.length_append, List.length_append, List.length_singleton, hlast]
    exact Nat.dvd_add h.rounds (Nat.dvd_refl n)
  obtain ⟨harrived, hleft, honTime⟩ := leaveAll_spec time hround hthere
    (forall_suffix_cons (onTime_arrive t time (h.onTime log List.suffix_rfl)) h.onTime)
  refine ⟨⟨?_, ?_, hlast ▸ Nat.succ_pos _, honTime⟩, hleft.trans hthere⟩
  · rw [harrived, hleft, List.append_nil]
  · rw [hleft]
    exact hround

end Grouped

/-- The queues of all barriers. -/
def Server.queued (s : Server T) : List T := s.barriers.flatMap SimBarrier.waiting

/-- What holds after every call. -/
structure Inv (s : Server T) : Prop where
  known : ∀ e ∈ s.log, e.barrier < s.barriers.length
  grouped : ∀ b x, s.barriers[b]? = some x → x.count ≠ 0#32 → Grouped x.count.toNat b x.waiting s.log
  queued : ∀ t, s.queued.count t = if s.stalled t = some .barrier then 1 else 0

theorem toNat_pos {count : BitVec 32} (h : count ≠ 0#32) : 0 < count.toNat := by
  rw [Nat.pos_iff_ne_zero]
  intro hzero
  exact h (BitVec.eq_of_toNat_eq hzero)

theorem toNat_sub_one {count : BitVec 32} (h : count ≠ 0#32) : (count - 1#32).toNat + 1 = count.toNat := by
  have hpos := toNat_pos h
  bv_omega

namespace Inv

variable {s : Server T}

theorem initial : Inv (initial : Server T) where
  known e he := by cases he
  grouped b x hx := by cases hx
  queued t := rfl

/-- A thread is stalled or resumed for another reason. -/
theorem update_stalled (h : Inv s) {t : T} {old new : Option StallType} (hold : s.stalled t = old)
    (hne : old ≠ some .barrier) (hnew : new ≠ some .barrier) :
    Inv { s with stalled := Function.update s.stalled t new } where
  known := h.known
  grouped := h.grouped
  queued u := by
    refine (h.queued u).trans ?_
    change _ = if Function.update s.stalled t new u = some .barrier then 1 else 0
    by_cases hu : u = t
    · subst hu
      rw [hold, Function.update_self, if_neg hne, if_neg hnew]
    · rw [Function.update_of_ne hu]

theorem barrierInit (h : Inv s) (count : BitVec 32) : Inv { s with barriers := s.barriers ++ [⟨count, []⟩] } where
  known e he := by
    rw [List.length_append]
    exact (h.known e he).trans_le (Nat.le_add_right _ _)
  grouped b x hx hcount := by
    change (s.barriers ++ [(⟨count, []⟩ : SimBarrier T)])[b]? = some x at hx
    rcases Nat.lt_or_ge b s.barriers.length with hb | hb
    · rw [List.getElem?_append_left hb] at hx
      exact h.grouped b x hx hcount
    · rw [List.getElem?_append_right hb, List.getElem?_singleton] at hx
      split_ifs at hx
      cases hx
      exact .of_unused (toNat_pos hcount) fun e he => Nat.ne_of_lt ((h.known e he).trans_le hb)
  queued t := by
    refine Eq.trans ?_ (h.queued t)
    rw [Server.queued, List.flatMap_append, List.count_append]
    rfl

/-- The thread has to wait. -/
theorem enqueue (h : Inv s) {b : ℕ} {x : SimBarrier T} {t : T} (time : ℕ) (hx : s.barriers[b]? = some x)
    (ht : s.stalled t = none) (hmore : x.count ≠ 0#32 → x.waiting.length + 1 ≠ x.count.toNat) :
    Inv (((s.record (.arrive b t time)).setWaiting b (x.waiting ++ [t])).stallThread t .barrier) where
  known e he := by
    change e.barrier < (s.barriers.modify b _).length
    rw [List.length_modify]
    rcases List.mem_cons.1 he with rfl | he
    · exact (List.getElem?_eq_some_iff.1 hx).1
    · exact h.known e he
  grouped b' y hy hcount := by
    change (s.barriers.modify b _)[b']? = some y at hy
    by_cases hb : b = b'
    · subst hb
      rw [List.getElem?_modify_eq, hx] at hy
      cases hy
      exact (h.grouped b x hx hcount).arrive t time (hmore hcount)
    · rw [List.getElem?_modify_ne _ _ hb] at hy
      exact (h.grouped b' y hy hcount).cons_of_ne hb
  queued u := by
    have hcount := count_flatMap_modify (f := fun y : SimBarrier T => { y with waiting := x.waiting ++ [t] })
      (g := SimBarrier.waiting) hx u
    have hold := h.queued u
    change ((s.barriers.modify b _).flatMap SimBarrier.waiting).count u =
      if Function.update s.stalled t (some .barrier) u = some .barrier then 1 else 0
    change (s.barriers.flatMap SimBarrier.waiting).count u = _ at hold
    rw [List.count_append, List.count_singleton] at hcount
    by_cases hu : u = t
    · subst hu
      rw [Function.update_self, if_pos rfl]
      rw [ht, if_neg (Option.some_ne_none _).symm] at hold
      rw [if_pos (beq_self_eq_true u)] at hcount
      omega
    · rw [Function.update_of_ne hu]
      have hbeq : ¬ (t == u) = true := fun hbeq => hu (eq_of_beq hbeq).symm
      rw [if_neg hbeq] at hcount
      omega

/-- The thread is the last one of its round. -/
theorem release (h : Inv s) {b : ℕ} {x : SimBarrier T} (t : T) (time : ℕ) (hx : s.barriers[b]? = some x)
    (hlast : x.count ≠ 0#32 → x.waiting.length + 1 = x.count.toNat) :
    Inv ((Server.release b time x.waiting (s.record (.arrive b t time))).record (.leave b t time)) := by
  have hlog := release_record_log s b time x.waiting t
  have hbarriers := release_barriers (s := s.record (.arrive b t time)) b time hx rfl
  have hstalled := release_stalled (s.record (.arrive b t time)) b time x.waiting
  refine ⟨?_, ?_, ?_⟩
  · rw [hlog]
    intro e he
    change e.barrier < (Server.release b time x.waiting (s.record (.arrive b t time))).barriers.length
    rw [hbarriers, List.length_modify]
    have hb : b < s.barriers.length := (List.getElem?_eq_some_iff.1 hx).1
    rcases mem_leaveAll he with he | he
    · rw [he]
      exact hb
    · rcases List.mem_cons.1 he with rfl | he
      · exact hb
      · exact h.known e he
  · rw [hlog]
    intro b' y hy hcount
    change (Server.release b time x.waiting (s.record (.arrive b t time))).barriers[b']? = some y at hy
    rw [hbarriers] at hy
    change (s.barriers.modify b _)[b']? = some y at hy
    by_cases hb : b = b'
    · subst hb
      rw [List.getElem?_modify_eq, hx] at hy
      cases hy
      exact ((h.grouped b x hx hcount).leaveAll t time (hlast hcount)).1
    · rw [List.getElem?_modify_ne _ _ hb] at hy
      have hother := (h.grouped b' y hy hcount).cons_of_ne (e := .arrive b t time) hb
      obtain ⟨harrived, hleft, honTime⟩ := @leaveAll_of_ne T _ _ _ _ (x.waiting ++ [t]) time hb hother.onTime
      refine ⟨?_, ?_, hother.short, honTime⟩
      · rw [harrived, hleft]
        exact hother.arrived_eq
      · rw [hleft]
        exact hother.rounds
  · intro u
    have hcount := count_flatMap_modify (f := fun y : SimBarrier T => { y with waiting := [] })
      (g := SimBarrier.waiting) hx u
    have hold := h.queued u
    change (s.barriers.flatMap SimBarrier.waiting).count u = _ at hold
    change ((Server.release b time x.waiting (s.record (.arrive b t time))).barriers.flatMap
        SimBarrier.waiting).count u =
      if (Server.release b time x.waiting (s.record (.arrive b t time))).stalled u = some .barrier then 1 else 0
    rw [hbarriers, hstalled]
    change ((s.barriers.modify b _).flatMap SimBarrier.waiting).count u =
      if (if u ∈ x.waiting then none else s.stalled u) = some .barrier then 1 else 0
    rw [List.count_nil] at hcount
    by_cases hu : u ∈ x.waiting
    · have hpos := List.count_pos_iff.2 hu
      rw [if_pos hu, if_neg (Option.some_ne_none _).symm]
      split_ifs at hold <;> omega
    · rw [if_neg hu]
      rw [List.count_eq_zero_of_not_mem hu] at hcount
      omega

/-- Every call keeps it. -/
theorem step (h : Inv s) {call : Call T} {s' : Server T} (hstep : AppBarrier.step s call = .ok s') : Inv s' := by
  cases call with
  | barrierInit t count =>
    rw [AppBarrier.step] at hstep
    split_ifs at hstep
    cases hstep
    exact h.barrierInit count
  | barrierWait t b time =>
    rw [AppBarrier.step] at hstep
    split_ifs at hstep with ht
    split at hstep
    · rename_i x hx
      cases hstep
      rw [Server.wait]
      split_ifs with hlast
      · exact h.release t time hx fun hcount => by rw [hlast, toNat_sub_one hcount]
      · refine h.enqueue time hx ht fun hcount hlen => hlast ?_
        have hsub := toNat_sub_one hcount
        omega
    · cases hstep
  | stall t =>
    rw [AppBarrier.step] at hstep
    split_ifs at hstep with ht
    cases hstep
    exact h.update_stalled ht (Option.some_ne_none _).symm (by decide)
  | resume t =>
    rw [AppBarrier.step] at hstep
    split_ifs at hstep with ht
    cases hstep
    exact h.update_stalled ht (by decide) (Option.some_ne_none _).symm

theorem of_reachable (h : (machine T).Reachable AppBarrier.initial s) : Inv s :=
  h.invariant initial fun _ _ _ hs he => hs.step he

end Inv

/-! ### What the barriers do -/

/-- One more thread arrives at a barrier of `n` threads. -/
structure Round (n b : ℕ) (x : SimBarrier T) (s : Server T) (t : T) (s' : Server T) : Prop where
  /-- While others are missing, nobody leaves, and the thread waits. -/
  waits : x.waiting.length + 1 < n → left b s'.log = left b s.log ∧
    s'.barriers[b]? = some { x with waiting := x.waiting ++ [t] } ∧ s'.stalled t = some .barrier
  /-- The last one of a round lets all of them go on, and leaves the queue empty. -/
  leaves : x.waiting.length + 1 = n → left b s'.log = left b s.log ++ (x.waiting ++ [t]) ∧
    s'.barriers[b]? = some { x with waiting := [] } ∧ ∀ u ∈ x.waiting ++ [t], s'.stalled u = none

/-- The guarantees of a barrier of `n` threads. -/
structure Sound (s : Server T) (n b : ℕ) (x : SimBarrier T) : Prop where
  /-- Each arrival has been released once, in the order of the arrivals, or it is in the queue. -/
  once : arrived b s.log = left b s.log ++ x.waiting
  groups : n ∣ (left b s.log).length
  short : x.waiting.length < n
  /-- At all times only threads of complete rounds have left. -/
  onTime : ∀ older, older <:+ s.log → OnTime n b older
  round : ∀ t time s', step s (.barrierWait t b time) = .ok s' → Round n b x s t s'

theorem Inv.round {s s' : Server T} (h : Inv s) {b : ℕ} {x : SimBarrier T} (hx : s.barriers[b]? = some x)
    (hcount : x.count ≠ 0#32) {t : T} {time : ℕ} (hstep : AppBarrier.step s (.barrierWait t b time) = .ok s') :
    Round x.count.toNat b x s t s' := by
  have hsub := toNat_sub_one hcount
  rw [AppBarrier.step, hx] at hstep
  split_ifs at hstep with ht
  cases hstep
  rw [Server.wait]
  split_ifs with hlast
  · constructor
    · intro hmore
      omega
    · intro hround
      refine ⟨?_, ?_, fun u hu => ?_⟩
      · rw [release_record_log]
        exact ((h.grouped b x hx hcount).leaveAll t time hround).2
      · change (Server.release b time x.waiting (s.record (.arrive b t time))).barriers[b]? = _
        rw [release_barriers (s := s.record (.arrive b t time)) b time hx rfl, List.getElem?_modify_eq]
        change (s.barriers[b]?).map _ = _
        rw [hx]
        rfl
      · refine (release_stalled (s.record (.arrive b t time)) b time x.waiting u).trans ?_
        split_ifs with hmem
        · rfl
        · rcases List.mem_append.1 hu with hu | hu
          · exact absurd hu hmem
          · rw [List.mem_singleton.1 hu]
            exact ht
  · constructor
    · intro hmore
      refine ⟨rfl, ?_, Function.update_self ..⟩
      change (s.barriers.modify b _)[b]? = _
      rw [List.getElem?_modify_eq, hx]
      rfl
    · intro hround
      omega

/-- In every state that any threads can reach, each barrier of at least one thread releases its threads in whole rounds,
and a thread is in one queue if it waits at a barrier and in none otherwise. -/
theorem appBarrier_sound {s : Server T} (h : (machine T).Reachable initial s) :
    (∀ b x, s.barriers[b]? = some x → 1 ≤ x.count.toNat → Sound s x.count.toNat b x) ∧
      ∀ t, s.queued.count t = if s.stalled t = some .barrier then 1 else 0 := by
  have hinv := Inv.of_reachable h
  refine ⟨fun b x hx hn => ?_, hinv.queued⟩
  have hcount : x.count ≠ 0#32 := by
    intro hzero
    rw [hzero] at hn
    exact absurd hn (by decide)
  have hgrouped := hinv.grouped b x hx hcount
  exact
    { once := hgrouped.arrived_eq
      groups := hgrouped.rounds
      short := hgrouped.short
      onTime := hgrouped.onTime
      round := fun _ _ _ hstep => hinv.round hx hcount hstep }

/-- Threads 0 and 1 meet at a barrier of two, and thread 1 is there again first. -/
def twoRounds : List (Call ℕ) :=
  [.barrierInit 0 2#32, .barrierWait 0 0 0, .barrierWait 1 0 1, .barrierWait 1 0 2]

/-- The guarantees for the two threads. -/
theorem appBarrier_sound_twoRounds :
    left 0 ((machine ℕ).final initial twoRounds).log = [0, 1] ∧
      Sound ((machine ℕ).final initial twoRounds) 2 0 ⟨2#32, [1]⟩ :=
  ⟨rfl, (appBarrier_sound ⟨twoRounds, rfl⟩).1 0 _ rfl (by decide)⟩

end LifeSim.AppBarrier
