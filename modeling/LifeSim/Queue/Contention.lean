import Mathlib
import LifeSim.Queue.SubsecondTime

/-!
# Units that requests compete for

`contention_model.cc`: a number of units, with the time from which on each is free. `getCompletionTime` books a unit, and
`getStartTime` tells when a request would begin. The statistics are left out.

The two functions agree, but for a request at time zero. `getCompletionTime` lets it begin at once, and `getStartTime`
lets it wait for a unit. This makes a difference when a barrier has occupied all units before any other request.
-/

namespace LifeSim.Queue

/-- `ContentionModel`: when each unit becomes free, with the tag of its last user, and the time of the last request. -/
structure ContentionModel where
  time : List (SubsecondTime × BitVec 64)
  tLast : SubsecondTime

namespace ContentionModel

/-- The constructor. -/
def new (numOutstanding : ℕ) : ContentionModel := ⟨List.replicate numOutstanding (0, 0), 0⟩

variable (c : ContentionModel) (start : SubsecondTime)

/-- `m_num_outstanding`. -/
def numOutstanding : ℕ := c.time.length

/-- `m_time[unit].first`. -/
def timeOf (unit : ℕ) : SubsecondTime := (c.time.getD unit (0, 0)).1

/-- The loop of `getCompletionTime` from unit `i` on, which finds the first unit that is free. -/
def findUnit : ℕ → ℕ → ℕ → ℕ
  | 0, _, unit => unit
  | n + 1, i, unit =>
    if c.timeOf i ≤ start then i
    else if c.timeOf i < c.timeOf unit then findUnit n (i + 1) i
    else findUnit n (i + 1) unit

/-- `getCompletionTime`. -/
def getCompletionTime (delay : SubsecondTime) (tag : BitVec 64) : ContentionModel × SubsecondTime :=
  if c.numOutstanding = 0 then (c, start + delay)
  else if start = 0 then (c, delay)
  else if start < c.tLast then (c, start + delay)
  else
    let unit := c.findUnit start c.numOutstanding 0 0
    let begins := if start < c.timeOf unit then c.timeOf unit else start
    let ends := begins + delay
    (⟨c.time.set unit (ends, tag), start⟩, ends)

/-- The loop of `getStartTime` from unit `i` on, which ends the function at a free unit. -/
def peekUnit : ℕ → ℕ → ℕ → Option ℕ
  | 0, _, unit => some unit
  | n + 1, i, unit =>
    if c.timeOf i ≤ start then none
    else if c.timeOf i < c.timeOf unit then peekUnit n (i + 1) i
    else peekUnit n (i + 1) unit

/-- `getStartTime`. -/
def getStartTime : SubsecondTime :=
  if c.numOutstanding = 0 then start
  else if start < c.tLast then start
  else
    match c.peekUnit start c.numOutstanding 0 0 with
    | none => start
    | some unit => if start < c.timeOf unit then c.timeOf unit else start

/-- The first loop of `getBarrierCompletionTime`. -/
def maxTime : SubsecondTime := c.time.foldl (fun max unit => if max < unit.1 then unit.1 else max) start

/-- `getBarrierCompletionTime`. -/
def getBarrierCompletionTime (delay : SubsecondTime) (tag : BitVec 64) : ContentionModel × SubsecondTime :=
  if c.numOutstanding = 0 then (c, start + delay)
  else (⟨c.time.map fun _ => (c.maxTime start + delay, tag), c.tLast⟩, c.maxTime start + delay)

/-! ### The choice of a unit -/

variable {c start}

/-- No unit that the loop has seen is free, and `unit` is the first one of them to become free. -/
structure Seen (c : ContentionModel) (start : SubsecondTime) (i unit : ℕ) : Prop where
  /-- At the start, the first unit has not been seen yet. -/
  unit_lt : unit < i ∨ i = 0 ∧ unit = 0
  busy : ∀ j < i, start < c.timeOf j
  first : ∀ j < i, c.timeOf unit ≤ c.timeOf j

theorem Seen.init (c : ContentionModel) (start : SubsecondTime) : c.Seen start 0 0 :=
  ⟨.inr ⟨rfl, rfl⟩, fun j hj => absurd hj (Nat.not_lt_zero j), fun j hj => absurd hj (Nat.not_lt_zero j)⟩

/-- One more unit that is not free. -/
theorem Seen.next {i unit : ℕ} (h : c.Seen start i unit) (hbusy : ¬ c.timeOf i ≤ start) :
    c.Seen start (i + 1) (if c.timeOf i < c.timeOf unit then i else unit) := by
  have hbusy' (j : ℕ) (hj : j < i + 1) : start < c.timeOf j := by
    rcases Nat.lt_succ_iff_lt_or_eq.1 hj with hlt | rfl
    · exact h.busy j hlt
    · exact BitVec.not_le.1 hbusy
  by_cases hless : c.timeOf i < c.timeOf unit
  · rw [if_pos hless]
    refine ⟨.inl (Nat.lt_succ_self i), hbusy', fun j hj => ?_⟩
    rcases Nat.lt_succ_iff_lt_or_eq.1 hj with hlt | rfl
    · exact BitVec.le_trans (BitVec.le_of_lt hless) (h.first j hlt)
    · exact BitVec.le_refl _
  · rw [if_neg hless]
    have hfirst := BitVec.not_lt.1 hless
    refine ⟨.inl ?_, hbusy', fun j hj => ?_⟩
    · rcases h.unit_lt with hlt | ⟨rfl, rfl⟩ <;> omega
    · rcases Nat.lt_succ_iff_lt_or_eq.1 hj with hlt | rfl
      · exact h.first j hlt
      · exact hfirst

/-- The loop of `getCompletionTime` finds a unit that is free, or the first one to become free. -/
theorem findUnit_spec {n i unit : ℕ} (h : c.Seen start i unit) :
    (i ≤ c.findUnit start n i unit ∧ c.findUnit start n i unit < i + n ∧ c.timeOf (c.findUnit start n i unit) ≤ start ∧
        c.peekUnit start n i unit = none) ∨
      (c.Seen start (i + n) (c.findUnit start n i unit) ∧
        c.peekUnit start n i unit = some (c.findUnit start n i unit)) := by
  induction n generalizing i unit with
  | zero => exact .inr ⟨h, rfl⟩
  | succ n ih =>
    rw [findUnit, peekUnit]
    by_cases hfree : c.timeOf i ≤ start
    · rw [if_pos hfree, if_pos hfree]
      exact .inl ⟨Nat.le_refl i, by omega, hfree, rfl⟩
    · have hnext := h.next hfree
      rw [if_neg hfree, if_neg hfree]
      by_cases hless : c.timeOf i < c.timeOf unit
      · rw [if_pos hless] at hnext ⊢
        rw [if_pos hless]
        refine (ih hnext).imp (fun ⟨hge, hlt, hrest⟩ => ⟨by omega, by omega, hrest⟩) fun ⟨hseen, hpeek⟩ => ⟨?_, hpeek⟩
        rwa [Nat.add_right_comm] at hseen
      · rw [if_neg hless] at hnext ⊢
        rw [if_neg hless]
        refine (ih hnext).imp (fun ⟨hge, hlt, hrest⟩ => ⟨by omega, by omega, hrest⟩) fun ⟨hseen, hpeek⟩ => ⟨?_, hpeek⟩
        rwa [Nat.add_right_comm] at hseen

/-! ### Peeking and booking -/

/-- With a unit, a request that is not out of order begins on a unit that is free, or waits for the first one. -/
theorem getStartTime_eq (hunits : 0 < c.numOutstanding) (hlast : ¬ start < c.tLast) :
    ∃ unit < c.numOutstanding, c.findUnit start c.numOutstanding 0 0 = unit ∧
      c.getStartTime start = (if start < c.timeOf unit then c.timeOf unit else start) ∧
      (c.timeOf unit ≤ start ∨ ∀ j < c.numOutstanding, start < c.timeOf j ∧ c.timeOf unit ≤ c.timeOf j) := by
  rw [getStartTime, if_neg hunits.ne', if_neg hlast]
  rcases findUnit_spec (n := c.numOutstanding) (Seen.init c start) with ⟨-, hlt, hfree, hpeek⟩ | ⟨hseen, hpeek⟩
  · rw [Nat.zero_add] at hlt
    rw [hpeek]
    refine ⟨_, hlt, rfl, ?_, .inl hfree⟩
    rw [if_neg (BitVec.not_lt.2 hfree)]
  · rw [Nat.zero_add] at hseen
    rw [hpeek]
    have hlt := hseen.unit_lt.resolve_right fun h => hunits.ne' h.1
    exact ⟨_, hlt, rfl, rfl, .inr fun j hj => ⟨hseen.busy j hj, hseen.first j hj⟩⟩

/-- The two functions agree on all requests but those at time zero. -/
theorem getCompletionTime_result (hstart : c.numOutstanding = 0 ∨ start ≠ 0) (delay : SubsecondTime) (tag : BitVec 64) :
    (c.getCompletionTime start delay tag).2 = c.getStartTime start + delay := by
  rw [getCompletionTime]
  by_cases hunits : c.numOutstanding = 0
  · rw [if_pos hunits, getStartTime, if_pos hunits]
  · rw [if_neg hunits, if_neg (hstart.resolve_left hunits)]
    by_cases hlast : start < c.tLast
    · rw [if_pos hlast, getStartTime, if_neg hunits, if_pos hlast]
    · obtain ⟨unit, -, hfind, hbegins, -⟩ := getStartTime_eq (Nat.pos_of_ne_zero hunits) hlast
      rw [if_neg hlast, hfind, hbegins]

/-- A request at time zero waits if all units are busy and none has come in time before it. -/
theorem getStartTime_zero (hunits : 0 < c.numOutstanding) :
    c.getStartTime 0 = 0 ↔ c.tLast ≠ 0 ∨ ∃ unit < c.numOutstanding, c.timeOf unit = 0 := by
  by_cases hlast : (0 : SubsecondTime) < c.tLast
  · rw [getStartTime, if_neg hunits.ne', if_pos hlast]
    exact iff_of_true rfl (.inl (by bv_omega))
  · obtain ⟨unit, hlt, -, hbegins, hchosen⟩ := getStartTime_eq hunits hlast
    have htLast : c.tLast = 0 := by bv_omega
    rw [hbegins]
    constructor
    · intro hzero
      refine .inr ⟨unit, hlt, ?_⟩
      split_ifs at hzero with hwait
      · exact hzero
      · bv_omega
    · rintro (hne | ⟨j, hj, hfree⟩)
      · exact absurd htLast hne
      · rcases hchosen with hfree | hbusy
        · exact if_neg (BitVec.not_lt.2 hfree)
        · obtain ⟨hwait, -⟩ := hbusy j hj
          rw [hfree] at hwait
          exact absurd hwait (BitVec.not_lt.2 (BitVec.le_refl _))

end ContentionModel

/-- What a user asks of the units. -/
inductive ContentionCall
  | completion (start delay : SubsecondTime) (tag : BitVec 64)
  | barrier (start delay : SubsecondTime) (tag : BitVec 64)

/-- A request at a time other than zero. -/
def ContentionCall.Late : ContentionCall → Prop
  | .completion start _ _ => start ≠ 0
  | .barrier _ _ _ => False

namespace ContentionModel

/-- One call. -/
def call (c : ContentionModel) : ContentionCall → ContentionModel
  | .completion start delay tag => (c.getCompletionTime start delay tag).1
  | .barrier start delay tag => (c.getBarrierCompletionTime start delay tag).1

theorem call_numOutstanding (c : ContentionModel) (x : ContentionCall) : (c.call x).numOutstanding = c.numOutstanding := by
  cases x with
  | completion start delay tag =>
    rw [call, getCompletionTime]
    split_ifs
    · rfl
    · rfl
    · rfl
    · exact List.length_set
  | barrier start delay tag =>
    rw [call, getBarrierCompletionTime]
    split_ifs
    · rfl
    · exact List.length_map _

/-- The time of the last request changes with requests at times other than zero. -/
theorem call_tLast {c : ContentionModel} (hunits : 0 < c.numOutstanding) (x : ContentionCall) :
    (c.call x).tLast ≠ 0 ↔ c.tLast ≠ 0 ∨ x.Late := by
  cases x with
  | completion start delay tag =>
    rw [call, getCompletionTime, if_neg hunits.ne']
    by_cases hstart : start = 0
    · rw [if_pos hstart]
      exact ⟨.inl, fun h => h.resolve_right fun hne => hne hstart⟩
    · rw [if_neg hstart]
      refine iff_of_true ?_ (.inr hstart)
      split_ifs with hlast
      · intro hzero
        bv_omega
      · exact hstart
  | barrier start delay tag =>
    rw [call, getBarrierCompletionTime, if_neg hunits.ne']
    exact ⟨.inl, fun h => h.resolve_right id⟩

theorem run_numOutstanding (c : ContentionModel) (calls : List ContentionCall) :
    (calls.foldl call c).numOutstanding = c.numOutstanding := by
  induction calls generalizing c with
  | nil => rfl
  | cons x calls ih => exact (ih (c.call x)).trans (c.call_numOutstanding x)

theorem run_tLast {c : ContentionModel} (hunits : 0 < c.numOutstanding) (calls : List ContentionCall) :
    (calls.foldl call c).tLast ≠ 0 ↔ c.tLast ≠ 0 ∨ ∃ x ∈ calls, x.Late := by
  induction calls generalizing c with
  | nil => exact ⟨.inl, fun h => h.resolve_right fun ⟨x, hx, _⟩ => List.not_mem_nil hx⟩
  | cons x calls ih =>
    refine (ih ((c.call_numOutstanding x).symm ▸ hunits)).trans ?_
    simp only [call_tLast hunits, or_assoc, List.mem_cons, exists_eq_or_imp]

/-- After any calls, a request is booked for the time that has been told before, but for a request at time zero that all
units are too busy for and that no request at another time precedes. -/
theorem completion_eq_start_iff (k : ℕ) (calls : List ContentionCall) (start delay : SubsecondTime) (tag : BitVec 64) :
    ((calls.foldl call (new k)).getCompletionTime start delay tag).2 =
        (calls.foldl call (new k)).getStartTime start + delay ↔
      start ≠ 0 ∨ k = 0 ∨ (∃ x ∈ calls, x.Late) ∨ ∃ unit < k, (calls.foldl call (new k)).timeOf unit = 0 := by
  have hnum : (calls.foldl call (new k)).numOutstanding = k :=
    (run_numOutstanding _ calls).trans List.length_replicate
  by_cases hbook : k = 0 ∨ start ≠ 0
  · refine iff_of_true (getCompletionTime_result (by rwa [hnum]) delay tag) ?_
    exact hbook.elim (fun hk => .inr (.inl hk)) .inl
  · obtain ⟨hk, hzero⟩ := not_or.1 hbook
    obtain rfl := not_not.1 hzero
    have hunits : 0 < (calls.foldl call (new k)).numOutstanding := hnum.symm ▸ Nat.pos_of_ne_zero hk
    have hlate : (calls.foldl call (new k)).tLast ≠ 0 ↔ ∃ x ∈ calls, x.Late := by
      rw [run_numOutstanding] at hunits
      rw [run_tLast hunits]
      exact or_iff_right fun h => h rfl
    have hzero := getStartTime_zero hunits
    rw [hlate, hnum] at hzero
    rw [getCompletionTime, if_neg hunits.ne', if_pos rfl]
    -- the request is booked for its delay
    have hsum : delay = (calls.foldl call (new k)).getStartTime 0 + delay ↔
        (calls.foldl call (new k)).getStartTime 0 = 0 := by
      generalize (calls.foldl call (new k)).getStartTime 0 = t
      constructor <;> intro h <;> bv_omega
    refine hsum.trans (hzero.trans ?_)
    exact ⟨fun h => .inr (.inr h), fun h => (h.resolve_left fun hne => hne rfl).resolve_left hk⟩

/-- A barrier at time zero occupies the unit, and a request at time zero is booked for another time than it was told. -/
theorem completion_ne_start_barrier : ¬ (∀ (k : ℕ) (calls : List ContentionCall) (start delay : SubsecondTime)
    (tag : BitVec 64), ((calls.foldl call (new k)).getCompletionTime start delay tag).2 =
      (calls.foldl call (new k)).getStartTime start + delay) := by
  intro h
  have hone : (([ContentionCall.barrier 0 5 0].foldl call (new 1)).getCompletionTime 0 3 0).2 =
    ([ContentionCall.barrier 0 5 0].foldl call (new 1)).getStartTime 0 + 3 := h 1 [.barrier 0 5 0] 0 3 0
  exact absurd hone (by decide)

end ContentionModel

end LifeSim.Queue
