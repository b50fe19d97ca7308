import Mathlib
import LifeSim.Lib.Machine
import LifeSim.Queue.SubsecondTime

/-!
# Queues with a list of free intervals

`queue_model_history_list.cc`: the queue keeps the intervals in which it is free. A request takes its time from the first
interval that it fits in, or that begins after it arrives. In the second case nothing checks that it fits. What remains of
the interval is then computed by a subtraction that wraps around, and an interval that ends before it begins is put into
the list.

`computeQueueDelay` leaves the list alone when it uses the analytical model, so that requests here are those of
`computeUsingHistoryList`.
-/

namespace LifeSim.Queue

open LifeSim.Lib

/-- The parameters of the queue. -/
structure HistoryConfig where
  minProcessingTime : SubsecondTime
  maxFreeIntervalListSize : ℕ

/-- An interval in which the queue is free. -/
structure Interval where
  first : SubsecondTime
  second : SubsecondTime
  deriving DecidableEq

/-- The arguments of `computeUsingHistoryList`. -/
structure Packet where
  pktTime : SubsecondTime
  processingTime : SubsecondTime

/-- The assertions. -/
inductive HistoryFault
  | listTooLong
  | freeIntervalNotFound
  deriving DecidableEq

/-- `max_simulation_time`. -/
def maxSimulationTime : SubsecondTime := 1 <<< 63

/-- `m_free_interval_list` after the constructor. -/
def newHistory : List Interval := [⟨0, maxSimulationTime⟩]

section

variable (cfg : HistoryConfig) (p : Packet)

/-- The loop of `computeUsingHistoryList`: the list after it, and the delay. -/
def searchHistory : List Interval → Option (List Interval × SubsecondTime)
  | [] => none
  | i :: rest =>
    if i.first ≤ p.pktTime ∧ p.pktTime + p.processingTime ≤ i.second then
      some ((if cfg.minProcessingTime ≤ p.pktTime - i.first then [⟨i.first, p.pktTime⟩] else []) ++
        (if cfg.minProcessingTime ≤ i.second - (p.pktTime + p.processingTime) then
          [⟨p.pktTime + p.processingTime, i.second⟩] else []) ++ rest, 0)
    else if p.pktTime < i.first then
      some ((if cfg.minProcessingTime ≤ i.second - (i.first + p.processingTime) then
        [⟨i.first + p.processingTime, i.second⟩] else []) ++ rest, i.first - p.pktTime)
    else (searchHistory rest).map fun x => (i :: x.1, x.2)

/-- `computeUsingHistoryList`: the list after it, and the delay. -/
def computeUsingHistoryList (l : List Interval) : Except HistoryFault (List Interval × SubsecondTime) :=
  if l.length ≤ cfg.maxFreeIntervalListSize then
    match searchHistory cfg p l with
    | none => .error .freeIntervalNotFound
    | some (l, delay) =>
      if delay = SubsecondTime.maxTime then .error .freeIntervalNotFound
      else .ok (if cfg.maxFreeIntervalListSize < l.length then l.tail else l, delay)
  else .error .listTooLong

end

/-- The queue as a machine. -/
def historyMachine (cfg : HistoryConfig) : Machine (List Interval) Packet HistoryFault :=
  ⟨fun l p => (computeUsingHistoryList cfg p l).map Prod.fst⟩

theorem historyMachine_step (cfg : HistoryConfig) (l : List Interval) (p : Packet) :
    (historyMachine cfg).step l p = (computeUsingHistoryList cfg p l).map Prod.fst := rfl

/-! ### The interval that a request is given -/

/-- An interval in which the loop ends. -/
def Takes (p : Packet) (i : Interval) : Prop :=
  (i.first ≤ p.pktTime ∧ p.pktTime + p.processingTime ≤ i.second) ∨ p.pktTime < i.first

instance (p : Packet) (i : Interval) : Decidable (Takes p i) := inferInstanceAs (Decidable (_ ∨ _))

/-- The interval that a request is given. -/
def given (p : Packet) (l : List Interval) : Option Interval := l.find? fun i => decide (Takes p i)

/-- When the request begins in the interval. -/
def Packet.begins (p : Packet) (i : Interval) : ℕ := max p.pktTime.toNat i.first.toNat

/-- When the request ends. -/
def Packet.ends (p : Packet) (i : Interval) : ℕ := p.begins i + p.processingTime.toNat

/-- The request fits in the interval that it is given. -/
def FitsHistory (l : List Interval) (p : Packet) : Prop := ∀ i ∈ given p l, p.ends i ≤ i.second.toNat

instance (l : List Interval) (p : Packet) : Decidable (FitsHistory l p) :=
  inferInstanceAs (Decidable (∀ i ∈ given p l, p.ends i ≤ i.second.toNat))

/-- All times of the request are below the limit. -/
def Below (limit : ℕ) (l : List Interval) (p : Packet) : Prop :=
  p.pktTime.toNat + p.processingTime.toNat < limit ∧ ∀ i ∈ given p l, p.ends i < limit

instance (limit : ℕ) (l : List Interval) (p : Packet) : Decidable (Below limit l p) :=
  inferInstanceAs (Decidable (_ ∧ ∀ i ∈ given p l, p.ends i < limit))

/-- What remains of the interval. -/
def pieces (cfg : HistoryConfig) (p : Packet) (i : Interval) : List Interval :=
  if p.pktTime < i.first then
    if cfg.minProcessingTime ≤ i.second - (i.first + p.processingTime) then [⟨i.first + p.processingTime,
      i.second⟩] else []
  else
    (if cfg.minProcessingTime ≤ p.pktTime - i.first then [⟨i.first, p.pktTime⟩] else []) ++
      (if cfg.minProcessingTime ≤ i.second - (p.pktTime + p.processingTime) then
        [⟨p.pktTime + p.processingTime, i.second⟩] else [])

/-- The loop replaces the given interval by what remains of it. -/
theorem searchHistory_eq (cfg : HistoryConfig) (p : Packet) (l : List Interval) :
    (given p l = none ∧ searchHistory cfg p l = none) ∨
      ∃ before i after, l = before ++ i :: after ∧ given p l = some i ∧ Takes p i ∧
        searchHistory cfg p l =
          some (before ++ pieces cfg p i ++ after, if p.pktTime < i.first then i.first - p.pktTime else 0) := by
  induction l with
  | nil => exact .inl ⟨rfl, rfl⟩
  | cons i rest ih =>
    rw [searchHistory, given, List.find?_cons]
    by_cases hinside : i.first ≤ p.pktTime ∧ p.pktTime + p.processingTime ≤ i.second
    · have htakes : Takes p i := .inl hinside
      have hnot := BitVec.not_lt.2 hinside.1
      refine .inr ⟨[], i, rest, rfl, by rw [decide_eq_true htakes], htakes, ?_⟩
      rw [if_pos hinside, pieces, if_neg hnot, if_neg hnot, List.nil_append]
    · rw [if_neg hinside]
      by_cases hbefore : p.pktTime < i.first
      · have htakes : Takes p i := .inr hbefore
        refine .inr ⟨[], i, rest, rfl, by rw [decide_eq_true htakes], htakes, ?_⟩
        rw [if_pos hbefore, pieces, if_pos hbefore, if_pos hbefore, List.nil_append]
      · have htakes : ¬ Takes p i := not_or.2 ⟨hinside, hbefore⟩
        rw [if_neg hbefore, decide_eq_false htakes]
        rcases ih with ⟨hnone, hsearch⟩ | ⟨before, j, after, rfl, hgiven, htakes, hsearch⟩
        · exact .inl ⟨hnone, by rw [hsearch]; rfl⟩
        · exact .inr ⟨i :: before, j, after, rfl, hgiven, htakes, by rw [hsearch]; rfl⟩

/-! ### Lists of free intervals -/

/-- An interval ends before another one begins. -/
def Apart (i j : Interval) : Prop := i.second ≤ j.first

/-- What the list should be. -/
structure WellFormed (cfg : HistoryConfig) (l : List Interval) : Prop where
  nonempty : l ≠ []
  short : l.length ≤ cfg.maxFreeIntervalListSize
  ordered : ∀ i ∈ l, i.first ≤ i.second
  apart : l.Pairwise Apart

/-- The instants in the free intervals. -/
def FreeAt (l : List Interval) (t : ℕ) : Prop := ∃ i ∈ l, i.first.toNat ≤ t ∧ t < i.second.toNat

/-- The list is well formed, and its last interval goes on. -/
structure HistoryInv (cfg : HistoryConfig) (l : List Interval) : Prop extends WellFormed cfg l where
  last : ∃ before i, l = before ++ [i] ∧ i.first.toNat < 2 ^ 62 ∧ i.second = maxSimulationTime

variable {cfg : HistoryConfig} {p : Packet} {l before after : List Interval} {i : Interval}

theorem maxSimulationTime_toNat : maxSimulationTime.toNat = 2 ^ 63 := rfl

/-- No interval goes on longer than the last one. -/
theorem HistoryInv.bounded (h : HistoryInv cfg l) (hi : i ∈ l) : i.second.toNat ≤ 2 ^ 63 := by
  obtain ⟨before, j, rfl, -, hj⟩ := h.last
  rcases List.mem_append.1 hi with hi | hi
  · have hapart : i.second ≤ j.first := (List.pairwise_append.1 h.apart).2.2 i hi j (List.mem_singleton_self j)
    have hordered := h.ordered j (List.mem_append_right before (List.mem_singleton_self j))
    rw [hj] at hordered
    have hle : i.second.toNat ≤ maxSimulationTime.toNat := BitVec.le_trans hapart hordered
    exact hle
  · obtain rfl := List.mem_singleton.1 hi
    rw [hj, maxSimulationTime_toNat]

/-- Every request is given an interval. -/
theorem HistoryInv.exists_given (h : HistoryInv cfg l) (hp : p.pktTime.toNat + p.processingTime.toNat < 2 ^ 62) :
    ∃ i, given p l = some i := by
  rw [← Option.isSome_iff_exists, given, List.find?_isSome]
  obtain ⟨before, i, rfl, -, hi⟩ := h.last
  refine ⟨i, List.mem_append_right before (List.mem_singleton_self i), decide_eq_true ?_⟩
  by_cases hbefore : p.pktTime < i.first
  · exact .inr hbefore
  · refine .inl ⟨BitVec.not_lt.1 hbefore, ?_⟩
    rw [hi, BitVec.le_def, BitVec.toNat_add_of_lt (by omega), maxSimulationTime_toNat]
    omega

theorem newHistory_inv (hsize : 0 < cfg.maxFreeIntervalListSize) : HistoryInv cfg newHistory where
  nonempty := List.cons_ne_nil _ _
  short := hsize
  ordered i hi := by
    obtain rfl := List.mem_singleton.1 hi
    exact Nat.zero_le _
  apart := List.pairwise_singleton _ _
  last := ⟨[], _, rfl, Nat.two_pow_pos 62, rfl⟩

/-! ### One request -/

/-- The request in the list. -/
structure Placed (cfg : HistoryConfig) (l : List Interval) (p : Packet) (before : List Interval) (i : Interval)
    (after : List Interval) : Prop where
  list : l = before ++ i :: after
  given : given p l = some i
  takes : Takes p i
  step : computeUsingHistoryList cfg p l =
    .ok (if cfg.maxFreeIntervalListSize < (before ++ pieces cfg p i ++ after).length then
      (before ++ pieces cfg p i ++ after).tail else before ++ pieces cfg p i ++ after,
      if p.pktTime < i.first then i.first - p.pktTime else 0)

theorem HistoryInv.placed (h : HistoryInv cfg l) (hp : Below (2 ^ 62) l p) :
    ∃ before i after, Placed cfg l p before i after := by
  obtain ⟨j, hj⟩ := h.exists_given hp.1
  rcases searchHistory_eq cfg p l with ⟨hnone, -⟩ | ⟨before, i, after, hl, hgiven, htakes, hsearch⟩
  · rw [hnone] at hj
    cases hj
  · refine ⟨before, i, after, hl, hgiven, htakes, ?_⟩
    have hmem : i ∈ l := hl ▸ List.mem_append_right before List.mem_cons_self
    have hbound := h.bounded hmem
    have hordered : i.first.toNat ≤ i.second.toNat := h.ordered i hmem
    have hdelay : (if p.pktTime < i.first then i.first - p.pktTime else 0) ≠ SubsecondTime.maxTime := by
      have hmax : SubsecondTime.maxTime.toNat = 2 ^ 64 - 1 := rfl
      split_ifs with hbefore <;> bv_omega
    rw [computeUsingHistoryList, if_pos h.short, hsearch]
    exact if_neg hdelay

/-- A piece of the interval that does not meet the time of the request. -/
structure Piece (p : Packet) (i j : Interval) : Prop where
  first : i.first ≤ j.first
  ordered : j.first ≤ j.second
  second : j.second ≤ i.second
  clear : j.second.toNat ≤ p.begins i ∨ p.ends i ≤ j.first.toNat

/-- What remains are pieces of the interval, apart from each other. -/
theorem pieces_spec (cfg : HistoryConfig) (htakes : Takes p i) (hbound : i.second.toNat ≤ 2 ^ 63)
    (hp : p.pktTime.toNat + p.processingTime.toNat < 2 ^ 62) (hfits : p.ends i ≤ i.second.toNat) :
    (pieces cfg p i).Pairwise Apart ∧ ∀ j ∈ pieces cfg p i, Piece p i j := by
  rw [Packet.ends, Packet.begins] at hfits
  by_cases hbefore : p.pktTime < i.first
  · have hlt : p.pktTime.toNat < i.first.toNat := hbefore
    rw [max_eq_right hlt.le] at hfits
    rw [pieces, if_pos hbefore]
    split_ifs
    · refine ⟨List.pairwise_singleton _ _, fun j hj => ?_⟩
      obtain rfl := List.mem_singleton.1 hj
      have hsum := BitVec.toNat_add_of_lt (by omega : i.first.toNat + p.processingTime.toNat < 2 ^ 64)
      refine ⟨?_, ?_, BitVec.le_refl _, .inr ?_⟩
      · rw [BitVec.le_def, hsum]
        exact Nat.le_add_right _ _
      · rw [BitVec.le_def, hsum]
        exact hfits
      · rw [Packet.ends, Packet.begins, max_eq_right hlt.le, hsum]
    · exact ⟨List.Pairwise.nil, fun j hj => absurd hj List.not_mem_nil⟩
  · obtain ⟨hfirst, hsecond⟩ := htakes.resolve_right hbefore
    have hle : i.first.toNat ≤ p.pktTime.toNat := hfirst
    rw [max_eq_left hle] at hfits
    have hsum := BitVec.toNat_add_of_lt (by omega : p.pktTime.toNat + p.processingTime.toNat < 2 ^ 64)
    have hleft : Piece p i ⟨i.first, p.pktTime⟩ :=
      ⟨BitVec.le_refl _, hfirst, (Nat.le_add_right _ _).trans hfits, .inl (le_max_left _ _)⟩
    have hright : Piece p i ⟨p.pktTime + p.processingTime, i.second⟩ := by
      refine ⟨?_, hsecond, BitVec.le_refl _, .inr ?_⟩
      · rw [BitVec.le_def, hsum]
        exact hle.trans (Nat.le_add_right _ _)
      · rw [Packet.ends, Packet.begins, max_eq_left hle, hsum]
    have hapart : Apart ⟨i.first, p.pktTime⟩ ⟨p.pktTime + p.processingTime, i.second⟩ := by
      rw [Apart, BitVec.le_def, hsum]
      exact Nat.le_add_right _ _
    rw [pieces, if_neg hbefore]
    split_ifs <;> simp [hleft, hright, hapart]

/-- An element of a list is replaced by others. -/
theorem pairwise_replace {pieces : List Interval} (h : (before ++ i :: after).Pairwise Apart)
    (hpieces : pieces.Pairwise Apart) (hsub : ∀ j ∈ pieces, i.first ≤ j.first ∧ j.second ≤ i.second) :
    (before ++ pieces ++ after).Pairwise Apart := by
  obtain ⟨hbefore, hafter, hapart⟩ := List.pairwise_append.1 h
  obtain ⟨hi, hafter⟩ := List.pairwise_cons.1 hafter
  rw [List.append_assoc]
  refine List.pairwise_append.2 ⟨hbefore, List.pairwise_append.2 ⟨hpieces, hafter, fun j hj b hb => ?_⟩,
    fun a ha b hb => ?_⟩
  · exact BitVec.le_trans (hsub j hj).2 (hi b hb)
  · rcases List.mem_append.1 hb with hb | hb
    · exact BitVec.le_trans (hapart a ha i List.mem_cons_self) (hsub b hb).1
    · exact hapart a ha b (List.mem_cons_of_mem i hb)

/-- The last interval keeps enough of its time. -/
theorem pieces_last (hmin : cfg.minProcessingTime.toNat < 2 ^ 62) (hsecond : i.second = maxSimulationTime)
    (hp : p.pktTime.toNat + p.processingTime.toNat < 2 ^ 62) (hends : p.ends i < 2 ^ 62) :
    ∃ some j, pieces cfg p i = some ++ [j] ∧ j.first.toNat < 2 ^ 62 ∧ j.second = maxSimulationTime := by
  rw [Packet.ends, Packet.begins] at hends
  have hmax := maxSimulationTime_toNat
  by_cases hbefore : p.pktTime < i.first
  · have hlt : p.pktTime.toNat < i.first.toNat := hbefore
    rw [max_eq_right hlt.le] at hends
    have hsum := BitVec.toNat_add_of_lt (by omega : i.first.toNat + p.processingTime.toNat < 2 ^ 64)
    refine ⟨[], ⟨i.first + p.processingTime, i.second⟩, ?_, by rw [hsum]; exact hends, hsecond⟩
    rw [pieces, if_pos hbefore, if_pos]
    · rfl
    · rw [hsecond]
      bv_omega
  · have hsum := BitVec.toNat_add_of_lt (by omega : p.pktTime.toNat + p.processingTime.toNat < 2 ^ 64)
    refine ⟨if cfg.minProcessingTime ≤ p.pktTime - i.first then [⟨i.first, p.pktTime⟩] else [],
      ⟨p.pktTime + p.processingTime, i.second⟩, ?_, by rw [hsum]; exact hp, hsecond⟩
    rw [pieces, if_neg hbefore, if_pos (by rw [hsecond]; bv_omega :
      cfg.minProcessingTime ≤ i.second - (p.pktTime + p.processingTime))]

/-- There are two pieces at most. -/
theorem length_pieces_le : (pieces cfg p i).length ≤ 2 := by
  rw [pieces]
  split_ifs <;> simp

/-- The list with the pieces in the place of the interval, before the front is dropped. -/
theorem Placed.pieces_inv (h : Placed cfg l p before i after) (hinv : HistoryInv cfg l) (hp : Below (2 ^ 62) l p)
    (hmin : cfg.minProcessingTime.toNat < 2 ^ 62) (hfits : FitsHistory l p) :
    (∀ j ∈ before ++ pieces cfg p i ++ after, j.first ≤ j.second) ∧ (before ++ pieces cfg p i ++ after).Pairwise Apart ∧
      (∃ rest j, before ++ pieces cfg p i ++ after = rest ++ [j] ∧ j.first.toNat < 2 ^ 62 ∧
        j.second = maxSimulationTime) ∧
      (∀ t, FreeAt (before ++ pieces cfg p i ++ after) t → FreeAt l t ∧ (t < p.begins i ∨ p.ends i ≤ t)) := by
  obtain ⟨rfl, hgiven, htakes, -⟩ := h
  have hi := List.mem_append_right before (List.mem_cons_self (a := i) (l := after))
  obtain ⟨hapart, hpieces⟩ := pieces_spec cfg htakes (hinv.bounded hi) hp.1 (hfits i hgiven)
  have hwhole := pairwise_replace hinv.apart hapart fun j hj => ⟨(hpieces j hj).first, (hpieces j hj).second⟩
  refine ⟨fun j hj => ?_, hwhole, ?_, ?_⟩
  · rcases List.mem_append.1 hj with hj | hj
    · rcases List.mem_append.1 hj with hj | hj
      · exact hinv.ordered j (List.mem_append_left _ hj)
      · exact (hpieces j hj).ordered
    · exact hinv.ordered j (List.mem_append_right _ (List.mem_cons_of_mem i hj))
  · obtain ⟨rest, k, hlist, hk⟩ := hinv.last
    rcases List.eq_nil_or_concat after with rfl | ⟨after, k', rfl⟩
    · -- the request is given the last interval
      obtain ⟨-, hlast⟩ := List.append_inj' hlist rfl
      obtain rfl := List.singleton_inj.1 hlast
      obtain ⟨some, j, hsome, hj⟩ := pieces_last hmin hk.2 hp.1 (hp.2 i hgiven)
      exact ⟨before ++ some, j, by rw [hsome, List.append_nil, List.append_assoc], hj⟩
    · rw [List.concat_eq_append, ← List.cons_append, ← List.append_assoc] at hlist
      obtain ⟨-, hlast⟩ := List.append_inj' hlist rfl
      obtain rfl := List.singleton_inj.1 hlast
      exact ⟨before ++ pieces cfg p i ++ after, k', by rw [List.concat_eq_append, List.append_assoc _ after], hk⟩
  · rintro t ⟨j, hj, hfirst, hsecond⟩
    obtain ⟨-, hafter, hbefore⟩ := List.pairwise_append.1 hinv.apart
    have hends := hfits i hgiven
    have hbegins : i.first.toNat ≤ p.begins i := le_max_right _ _
    rcases List.mem_append.1 hj with hj | hj
    · rcases List.mem_append.1 hj with hj | hj
      · have hapart : j.second.toNat ≤ i.first.toNat := hbefore j hj i List.mem_cons_self
        exact ⟨⟨j, List.mem_append_left _ hj, hfirst, hsecond⟩, .inl (by omega)⟩
      · obtain ⟨hge, -, hle, hclear⟩ := hpieces j hj
        refine ⟨⟨i, hi, (BitVec.le_def.1 hge).trans hfirst, hsecond.trans_le hle⟩, ?_⟩
        exact hclear.imp (fun hle => hsecond.trans_le hle) fun hle => hle.trans hfirst
    · have hapart : i.second.toNat ≤ j.first.toNat := (List.pairwise_cons.1 hafter).1 j hj
      exact ⟨⟨j, List.mem_append_right _ (List.mem_cons_of_mem i hj), hfirst, hsecond⟩, .inr (by omega)⟩

/-- What the list should be after a request: well formed, with no more free time than before. -/
def KeepsHistory (cfg : HistoryConfig) (l : List Interval) (p : Packet) : Prop :=
  ∃ l' delay, computeUsingHistoryList cfg p l = .ok (l', delay) ∧ WellFormed cfg l' ∧ ∀ t, FreeAt l' t → FreeAt l t

/-- A request that fits keeps the list as it should be, and takes its time out of it. -/
theorem HistoryInv.step (hinv : HistoryInv cfg l) (hsize : 0 < cfg.maxFreeIntervalListSize)
    (hmin : cfg.minProcessingTime.toNat < 2 ^ 62) (hp : Below (2 ^ 62) l p) (hfits : FitsHistory l p) :
    ∃ l' delay, computeUsingHistoryList cfg p l = .ok (l', delay) ∧ HistoryInv cfg l' ∧
      (∀ t, FreeAt l' t → FreeAt l t ∧
        (t < (p.pktTime + delay).toNat ∨ (p.pktTime + delay).toNat + p.processingTime.toNat ≤ t)) ∧
      ∀ t, (p.pktTime + delay).toNat ≤ t → t < (p.pktTime + delay).toNat + p.processingTime.toNat → FreeAt l t := by
  obtain ⟨before, i, after, hplaced⟩ := hinv.placed hp
  obtain ⟨hordered, hapart, ⟨rest, j, hlist, hj⟩, hfree⟩ := hplaced.pieces_inv hinv hp hmin hfits
  have hshort := hinv.short
  rw [hplaced.list, List.length_append, List.length_cons] at hshort
  have hlength : (before ++ pieces cfg p i ++ after).length ≤ cfg.maxFreeIntervalListSize + 1 := by
    have := @length_pieces_le cfg p i
    rw [List.length_append, List.length_append]
    omega
  have hbegins : (p.pktTime + if p.pktTime < i.first then i.first - p.pktTime else 0).toNat = p.begins i := by
    rw [Packet.begins]
    split_ifs with hbefore
    · rw [BitVec.add_comm, BitVec.sub_add_cancel]
      exact (max_eq_right (BitVec.le_of_lt hbefore)).symm
    · have hzero : p.pktTime + 0 = p.pktTime := BitVec.add_zero _
      rw [hzero]
      exact (max_eq_left (BitVec.not_lt.1 hbefore)).symm
  refine ⟨_, _, hplaced.step, ?_, ?_, ?_⟩
  · generalize before ++ pieces cfg p i ++ after = new at *
    split_ifs with hlong
    · -- the oldest interval is dropped
      have htail := List.tail_sublist new
      refine ⟨⟨fun hnil => ?_, ?_, fun k hk => hordered k (htail.subset hk), hapart.sublist htail⟩, ?_⟩
      · have := congrArg List.length hnil
        rw [List.length_tail, List.length_nil] at this
        omega
      · rw [List.length_tail]
        omega
      · subst hlist
        cases rest with
        | nil =>
          rw [List.nil_append, List.length_singleton] at hlong
          omega
        | cons k rest => exact ⟨rest, j, rfl, hj⟩
    · refine ⟨⟨?_, not_lt.1 hlong, hordered, hapart⟩, rest, j, hlist, hj⟩
      rw [hlist]
      exact List.append_ne_nil_of_right_ne_nil _ (List.cons_ne_nil _ _)
  · rw [hbegins]
    rintro t ⟨k, hk, hin⟩
    refine hfree t ⟨k, ?_, hin⟩
    split_ifs at hk
    · exact List.mem_of_mem_tail hk
    · exact hk
  · rw [hbegins]
    intro t hge hlt
    refine ⟨i, hplaced.list ▸ List.mem_append_right before List.mem_cons_self, (le_max_right _ _).trans hge, ?_⟩
    exact lt_of_lt_of_le hlt (hfits i hplaced.given)

/-- A request that does not fit leaves an interval that ends before it begins. -/
theorem HistoryInv.not_keeps (hinv : HistoryInv cfg l) (hmin : cfg.minProcessingTime.toNat < 2 ^ 62)
    (hp : Below (2 ^ 62) l p) (hfits : ¬ FitsHistory l p) : ¬ KeepsHistory cfg l p := by
  obtain ⟨before, i, after, hplaced⟩ := hinv.placed hp
  have hends : i.second.toNat < p.ends i := by
    by_contra hle
    refine hfits fun k hk => ?_
    rw [hplaced.given] at hk
    exact Option.some.inj hk ▸ not_lt.1 hle
  have hmem : i ∈ l := hplaced.list ▸ List.mem_append_right before List.mem_cons_self
  have hbound := hinv.bounded hmem
  have hordered : i.first.toNat ≤ i.second.toNat := hinv.ordered i hmem
  have hlimit := hp.2 i hplaced.given
  have hp := hp.1
  rw [Packet.ends, Packet.begins] at hends hlimit
  have hbefore : p.pktTime < i.first := by
    refine hplaced.takes.resolve_left fun ⟨hfirst, hsecond⟩ => ?_
    rw [BitVec.le_def, BitVec.toNat_add_of_lt (by omega)] at hsecond
    rw [max_eq_left hfirst] at hends
    omega
  have hlt : p.pktTime.toNat < i.first.toNat := hbefore
  rw [max_eq_right hlt.le] at hends hlimit
  have hsum := BitVec.toNat_add_of_lt (by omega : i.first.toNat + p.processingTime.toNat < 2 ^ 64)
  -- what remains wraps around
  have hpieces : pieces cfg p i = [⟨i.first + p.processingTime, i.second⟩] := by
    rw [pieces, if_pos hbefore, if_pos]
    bv_omega
  have hstep := hplaced.step
  rw [hpieces, if_neg] at hstep
  · rintro ⟨l', delay, hok, hwell, -⟩
    rw [hstep] at hok
    obtain ⟨rfl, -⟩ := Prod.mk.inj (Except.ok.inj hok)
    have hwrong : i.first + p.processingTime ≤ i.second :=
      hwell.ordered ⟨i.first + p.processingTime, i.second⟩ (by simp)
    rw [BitVec.le_def, hsum] at hwrong
    omega
  · have hshort := hinv.short
    rw [hplaced.list] at hshort
    simpa using hshort

/-! ### Runs -/

/-- The intervals in which requests are served. -/
def services (cfg : HistoryConfig) : List Interval → List Packet → List (ℕ × ℕ)
  | _, [] => []
  | l, p :: ps =>
    match computeUsingHistoryList cfg p l with
    | .error _ => []
    | .ok (l', delay) =>
      ((p.pktTime + delay).toNat, (p.pktTime + delay).toNat + p.processingTime.toNat) :: services cfg l' ps

/-- Two intervals have no instant in common. -/
def Disjoint (a b : ℕ × ℕ) : Prop := ∀ t, ¬ ((a.1 ≤ t ∧ t < a.2) ∧ b.1 ≤ t ∧ t < b.2)

/-- Requests that fit are served when the queue is free, one at a time. -/
theorem HistoryInv.services {ps : List Packet} (hinv : HistoryInv cfg l) (hsize : 0 < cfg.maxFreeIntervalListSize)
    (hmin : cfg.minProcessingTime.toNat < 2 ^ 62) (hp : (historyMachine cfg).Guarded (Below (2 ^ 62)) l ps)
    (hfits : (historyMachine cfg).Guarded FitsHistory l ps) :
    (services cfg l ps).Pairwise Disjoint ∧ ∀ a ∈ services cfg l ps, ∀ t, a.1 ≤ t → t < a.2 → FreeAt l t := by
  induction ps generalizing l with
  | nil => exact ⟨List.Pairwise.nil, fun a ha => absurd ha List.not_mem_nil⟩
  | cons p ps ih =>
    obtain ⟨l', delay, hok, hinv', hshrinks, hfree⟩ := hinv.step hsize hmin hp.1 hfits.1
    have hstep : (historyMachine cfg).step l p = .ok l' := by
      rw [historyMachine_step, hok]
      rfl
    obtain ⟨hdisjoint, hinside⟩ := ih hinv' (hp.2 l' hstep) (hfits.2 l' hstep)
    rw [Queue.services, hok]
    refine ⟨List.pairwise_cons.2 ⟨fun a ha t ht => ?_, hdisjoint⟩, fun a ha t hge hlt => ?_⟩
    · obtain ⟨⟨hge, hlt⟩, hin⟩ := ht
      rcases (hshrinks t (hinside a ha t hin.1 hin.2)).2 with h | h
      · exact absurd hge (not_le.2 h)
      · exact absurd hlt (not_lt.2 h)
    · rcases List.mem_cons.1 ha with rfl | ha
      · exact hfree t hge hlt
      · exact (hshrinks t (hinside a ha t hge hlt)).1

/-- As long as all times are below `2 ^ 62`, the list stays as it should be exactly if every request fits in the interval
that it is given, and then the requests are served one at a time. -/
theorem history_sound_iff (cfg : HistoryConfig) (hsize : 0 < cfg.maxFreeIntervalListSize)
    (hmin : cfg.minProcessingTime.toNat < 2 ^ 62) (ps : List Packet)
    (hp : (historyMachine cfg).Guarded (Below (2 ^ 62)) newHistory ps) :
    (WellFormed cfg newHistory ∧ (historyMachine cfg).Guarded (KeepsHistory cfg) newHistory ps ∧
        ((historyMachine cfg).Guarded FitsHistory newHistory ps →
          (services cfg newHistory ps).Pairwise Disjoint)) ↔
      (historyMachine cfg).Guarded FitsHistory newHistory ps := by
  have hnew := newHistory_inv hsize
  have hkeeps : (historyMachine cfg).Guarded (KeepsHistory cfg) newHistory ps ↔
      (historyMachine cfg).Guarded FitsHistory newHistory ps := by
    refine Machine.guarded_congr_of_kept _ (fun l p l' hinv hbelow hfits hstep => ?_) (fun l p hinv hbelow => ?_) hnew hp
    · obtain ⟨l'', delay, hok, hinv', -⟩ := hinv.step hsize hmin hbelow hfits
      rw [historyMachine_step, hok] at hstep
      exact Except.ok.inj hstep ▸ hinv'
    · refine ⟨fun hkeep => by_contra fun hfits => hinv.not_keeps hmin hbelow hfits hkeep, fun hfits => ?_⟩
      obtain ⟨l', delay, hok, hinv', hshrinks, -⟩ := hinv.step hsize hmin hbelow hfits
      exact ⟨l', delay, hok, hinv'.toWellFormed, fun t ht => (hshrinks t ht).1⟩
  rw [hkeeps]
  exact ⟨fun h => h.2.1, fun h => ⟨hnew.toWellFormed, h, fun hfits => (hnew.services hsize hmin hp hfits).1⟩⟩

/-- A queue with a short list. -/
def shortHistory : HistoryConfig := ⟨1, 100⟩

/-- The third request fits between the others. -/
theorem history_sound_iff_threePackets :
    (WellFormed shortHistory newHistory ∧
        (historyMachine shortHistory).Guarded (KeepsHistory shortHistory) newHistory [⟨10, 5⟩, ⟨20, 5⟩, ⟨12, 3⟩] ∧
        ((historyMachine shortHistory).Guarded FitsHistory newHistory [⟨10, 5⟩, ⟨20, 5⟩, ⟨12, 3⟩] →
          (services shortHistory newHistory [⟨10, 5⟩, ⟨20, 5⟩, ⟨12, 3⟩]).Pairwise Disjoint)) ↔
      (historyMachine shortHistory).Guarded FitsHistory newHistory [⟨10, 5⟩, ⟨20, 5⟩, ⟨12, 3⟩] := by
  have hbelow : (historyMachine shortHistory).Guarded (fun l p => decide (Below (2 ^ 62) l p) = true) newHistory
      [⟨10, 5⟩, ⟨20, 5⟩, ⟨12, 3⟩] := .of_follows (by decide)
  simp only [decide_eq_true_iff] at hbelow
  exact history_sound_iff shortHistory (by decide) (by decide) _ hbelow

/-- The third request arrives before a gap of five and needs seven, and an interval from 22 to 20 remains. -/
theorem history_gap_tooShort :
    ¬ (historyMachine shortHistory).Guarded (KeepsHistory shortHistory) newHistory [⟨10, 5⟩, ⟨20, 5⟩, ⟨12, 7⟩] := by
  intro h
  have hrun : (historyMachine shortHistory).run newHistory [⟨10, 5⟩, ⟨20, 5⟩] =
    .ok [⟨0, 10⟩, ⟨15, 20⟩, ⟨25, maxSimulationTime⟩] := by decide
  have happend : (historyMachine shortHistory).Guarded (KeepsHistory shortHistory) newHistory
    ([⟨10, 5⟩, ⟨20, 5⟩] ++ ⟨12, 7⟩ :: []) := h
  obtain ⟨l', delay, hok, hwell, -⟩ := happend.at_event hrun
  have hstep : computeUsingHistoryList shortHistory ⟨12, 7⟩ [⟨0, 10⟩, ⟨15, 20⟩, ⟨25, maxSimulationTime⟩] =
    .ok ([⟨0, 10⟩, ⟨22, 20⟩, ⟨25, maxSimulationTime⟩], 3) := by decide
  rw [hstep] at hok
  obtain ⟨rfl, -⟩ := Prod.mk.inj (Except.ok.inj hok)
  exact absurd (hwell.ordered ⟨22, 20⟩ (by simp)) (by decide)

end LifeSim.Queue
