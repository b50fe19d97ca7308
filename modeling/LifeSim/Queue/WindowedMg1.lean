import LifeSim.Lib.Machine
import LifeSim.Lib.Recent
import LifeSim.Queue.SubsecondTime
import Mathlib.Data.BitVec
import Mathlib.Algebra.BigOperators.Group.List.Lemmas
import Mathlib.Data.List.Perm.Basic

/-!
# Queues with a window of requests

`queue_model_windowed_mg1.cc`: the queue keeps the requests of some time, with their number, the sum of their service
times and the sum of the squares. Each request removes those before a cut-off and adds itself. The delay, which is
computed in floating point, is left out.

The cut-off is the later one of two differences. When one of them is below zero it wraps around, so that requests are
removed which are not old.
-/

namespace LifeSim.Queue

open LifeSim.Lib

/-- A request in the window: its packet time and its service time. -/
abbrev Item := SubsecondTime × SubsecondTime

/-- `QueueModelWindowedMG1`, with `m_window` in the order of its keys. -/
structure WindowedMg1 where
  window : List Item
  numArrivals : BitVec 64
  serviceTimeSum : BitVec 64
  serviceTimeSum2 : BitVec 64

/-- A call of `computeQueueDelay`, with the global time then. -/
structure Arrival where
  globalTime : SubsecondTime
  pktTime : SubsecondTime
  processingTime : SubsecondTime

namespace WindowedMg1

/-- The constructor. -/
def new : WindowedMg1 := ⟨[], 0, 0, 0⟩

/-- `std::multimap::insert`: a new item comes after those with the same key. -/
def insertItem (x : Item) : List Item → List Item
  | [] => [x]
  | y :: ys => if x.1 < y.1 then x :: y :: ys else y :: insertItem x ys

/-- `addItem`. -/
def addItem (s : WindowedMg1) (pktTime serviceTime : SubsecondTime) : WindowedMg1 where
  window := insertItem (pktTime, serviceTime) s.window
  numArrivals := s.numArrivals + 1
  serviceTimeSum := s.serviceTimeSum + serviceTime.getPS
  serviceTimeSum2 := s.serviceTimeSum2 + serviceTime.getPS * serviceTime.getPS

/-- The loop of `removeItems`. -/
def removeLoop (earliestTime : SubsecondTime) : List Item → WindowedMg1 → WindowedMg1
  | [], s => { s with window := [] }
  | x :: xs, s =>
    if x.1 < earliestTime then
      removeLoop earliestTime xs
        { window := xs
          numArrivals := s.numArrivals - 1
          serviceTimeSum := s.serviceTimeSum - x.2.getPS
          serviceTimeSum2 := s.serviceTimeSum2 - x.2.getPS * x.2.getPS }
    else { s with window := x :: xs }

/-- `removeItems`. -/
def removeItems (s : WindowedMg1) (earliestTime : SubsecondTime) : WindowedMg1 := removeLoop earliestTime s.window s

/-- The cut-off in `computeQueueDelay`. -/
def earliestTime (windowSize : SubsecondTime) (a : Arrival) : SubsecondTime :=
  SubsecondTime.latest (a.globalTime - windowSize) (a.pktTime - 10 * windowSize)

/-- `computeQueueDelay`. -/
def computeQueueDelay (windowSize : SubsecondTime) (s : WindowedMg1) (a : Arrival) : WindowedMg1 :=
  (s.removeItems (earliestTime windowSize a)).addItem a.pktTime a.processingTime

/-! ### The totals -/

/-- The totals are those of the window. -/
structure Totals (s : WindowedMg1) : Prop where
  numArrivals : s.numArrivals = (s.window.length : BitVec 64)
  serviceTimeSum : s.serviceTimeSum = (s.window.map fun x => x.2.getPS).sum
  serviceTimeSum2 : s.serviceTimeSum2 = (s.window.map fun x => x.2.getPS * x.2.getPS).sum

theorem addItem_window (s : WindowedMg1) (pktTime serviceTime : SubsecondTime) :
    (s.addItem pktTime serviceTime).window = insertItem (pktTime, serviceTime) s.window := rfl

theorem perm_insertItem (x : Item) (l : List Item) : (insertItem x l).Perm (x :: l) := by
  induction l with
  | nil => exact List.Perm.refl _
  | cons y ys ih =>
    rw [insertItem]
    split_ifs
    · exact List.Perm.refl _
    · exact (ih.cons y).trans (List.Perm.swap x y ys)

theorem Totals.addItem {s : WindowedMg1} (h : s.Totals) (pktTime serviceTime : SubsecondTime) :
    (s.addItem pktTime serviceTime).Totals := by
  have hperm := perm_insertItem (pktTime, serviceTime) s.window
  refine ⟨?_, ?_, ?_⟩
  · change s.numArrivals + 1 = ((insertItem (pktTime, serviceTime) s.window).length : BitVec 64)
    rw [hperm.length_eq, h.numArrivals, List.length_cons, Nat.cast_succ]
  · change s.serviceTimeSum + serviceTime.getPS = _
    rw [addItem_window, (hperm.map fun x => x.2.getPS).sum_eq, List.map_cons, List.sum_cons, h.serviceTimeSum, add_comm]
  · change s.serviceTimeSum2 + serviceTime.getPS * serviceTime.getPS = _
    rw [addItem_window, (hperm.map fun x => x.2.getPS * x.2.getPS).sum_eq, List.map_cons, List.sum_cons,
      h.serviceTimeSum2, add_comm]

/-- The loop removes the items at the front that are too old, and keeps the totals. -/
theorem removeLoop_spec (earliest : SubsecondTime) (l : List Item) {s : WindowedMg1} (hl : s.window = l) (h : s.Totals) :
    (removeLoop earliest l s).window = l.dropWhile (fun x => decide (x.1 < earliest)) ∧
      (removeLoop earliest l s).Totals := by
  induction l generalizing s with
  | nil => exact ⟨rfl, by rw [removeLoop, ← hl]; exact h⟩
  | cons x xs ih =>
    rw [removeLoop, List.dropWhile_cons]
    obtain ⟨hnum, hsum, hsum2⟩ := h
    rw [hl] at hnum hsum hsum2
    by_cases hold : x.1 < earliest
    · rw [if_pos hold, decide_eq_true hold]
      refine ih rfl ⟨?_, ?_, ?_⟩
      · rw [hnum, List.length_cons, Nat.cast_succ]
        exact add_sub_cancel_right _ _
      · rw [hsum, List.map_cons, List.sum_cons]
        exact add_sub_cancel_left _ _
      · rw [hsum2, List.map_cons, List.sum_cons]
        exact add_sub_cancel_left _ _
    · rw [if_neg hold, decide_eq_false hold]
      exact ⟨rfl, hnum, hsum, hsum2⟩

/-! ### The window -/

/-- The keys are in order. -/
def Sorted (l : List Item) : Prop := l.Pairwise fun x y => x.1 ≤ y.1

theorem Sorted.insertItem {l : List Item} (h : Sorted l) (x : Item) : Sorted (insertItem x l) := by
  induction l with
  | nil => exact List.pairwise_singleton _ _
  | cons y ys ih =>
    obtain ⟨hy, hys⟩ := List.pairwise_cons.1 h
    rw [WindowedMg1.insertItem]
    split_ifs with hlt
    · refine List.pairwise_cons.2 ⟨fun z hz => ?_, h⟩
      rcases List.mem_cons.1 hz with rfl | hz
      · exact BitVec.le_of_lt hlt
      · exact BitVec.le_trans (BitVec.le_of_lt hlt) (hy z hz)
    · refine List.pairwise_cons.2 ⟨fun z hz => ?_, ih hys⟩
      rcases List.mem_cons.1 ((perm_insertItem x ys).mem_iff.1 hz) with rfl | hz
      · exact BitVec.not_lt.1 hlt
      · exact hy z hz

/-- What is too old is at the front. -/
theorem Sorted.dropWhile_eq {l : List Item} (h : Sorted l) (earliest : SubsecondTime) :
    l.dropWhile (fun x => decide (x.1 < earliest)) = l.filter fun x => decide (earliest ≤ x.1) :=
  dropWhile_eq_filter (fun x : Item => x.1.toNat) h earliest.toNat

/-- The cut-off as it is meant: differences below zero count as zero. -/
def cutOff (windowSize : SubsecondTime) (a : Arrival) : ℕ :=
  max (a.globalTime.toNat - windowSize.toNat) (a.pktTime.toNat - 10 * windowSize.toNat)

/-- The items that have not been too old at any call since they were added. -/
def remaining (windowSize : SubsecondTime) : List Arrival → List Item
  | [] => []
  | a :: as =>
    if ∀ b ∈ as, cutOff windowSize b ≤ a.pktTime.toNat then (a.pktTime, a.processingTime) :: remaining windowSize as
    else remaining windowSize as

/-- The window holds these items, and the totals are right. -/
def Tracks (windowSize : SubsecondTime) (as : List Arrival) (s : WindowedMg1) : Prop :=
  s.window.Perm (remaining windowSize as) ∧ s.Totals

/-- No item is removed that is not too old. -/
def NoneEarly (windowSize : SubsecondTime) (s : WindowedMg1) (a : Arrival) : Prop :=
  ∀ x ∈ s.window, x.1 < earliestTime windowSize a → x.1.toNat < cutOff windowSize a

variable {w : SubsecondTime} {s : WindowedMg1}

/-- A difference that wraps around is too late. -/
theorem cutOff_le (w : SubsecondTime) (a : Arrival) : cutOff w a ≤ (earliestTime w a).toNat := by
  have hdiff (x y : SubsecondTime) : x.toNat - y.toNat ≤ (x - y).toNat := by
    rw [BitVec.toNat_sub]
    omega
  have hten : (10 * w).toNat ≤ 10 * w.toNat := by
    rw [BitVec.toNat_mul]
    exact Nat.mod_le _ _
  have hpkt := (Nat.sub_le_sub_left hten a.pktTime.toNat).trans (hdiff a.pktTime (10 * w))
  rw [cutOff, earliestTime, SubsecondTime.latest]
  split_ifs with hlt
  · exact max_le ((hdiff _ _).trans (BitVec.le_of_lt hlt)) hpkt
  · exact max_le (hdiff _ _) (hpkt.trans (BitVec.not_lt.1 hlt))

/-- A call removes the items that are too old then, and adds one. -/
theorem remaining_append (w : SubsecondTime) (as : List Arrival) (b : Arrival) :
    remaining w (as ++ [b]) =
      ((remaining w as).filter fun x => decide (cutOff w b ≤ x.1.toNat)) ++ [(b.pktTime, b.processingTime)] := by
  induction as with
  | nil => simp [remaining]
  | cons a as ih =>
    have hnew : (∀ c ∈ as ++ [b], cutOff w c ≤ a.pktTime.toNat) ↔
        (∀ c ∈ as, cutOff w c ≤ a.pktTime.toNat) ∧ cutOff w b ≤ a.pktTime.toNat := by
      rw [List.forall_mem_append, List.forall_mem_singleton]
    rw [List.cons_append, remaining, remaining, ih]
    by_cases hold : ∀ c ∈ as, cutOff w c ≤ a.pktTime.toNat
    · rw [if_pos hold, List.filter_cons]
      by_cases hlast : cutOff w b ≤ a.pktTime.toNat
      · rw [if_pos (hnew.2 ⟨hold, hlast⟩), decide_eq_true hlast, if_pos rfl, List.cons_append]
      · rw [if_neg fun h => hlast (hnew.1 h).2, decide_eq_false hlast, if_neg Bool.false_ne_true]
    · rw [if_neg fun h => hold (hnew.1 h).1, if_neg hold]

/-- The window after a call. -/
theorem window_computeQueueDelay (hsorted : Sorted s.window) (htotals : s.Totals) (a : Arrival) :
    (computeQueueDelay w s a).window = insertItem (a.pktTime, a.processingTime)
        (s.window.filter fun x => decide (earliestTime w a ≤ x.1)) ∧
      Sorted (computeQueueDelay w s a).window ∧ (computeQueueDelay w s a).Totals := by
  obtain ⟨hwindow, htotals⟩ := removeLoop_spec (earliestTime w a) s.window rfl htotals
  rw [hsorted.dropWhile_eq] at hwindow
  have hadd : (computeQueueDelay w s a).window = insertItem (a.pktTime, a.processingTime)
      (s.window.filter fun x => decide (earliestTime w a ≤ x.1)) :=
    congrArg (insertItem (a.pktTime, a.processingTime)) hwindow
  refine ⟨hadd, ?_, htotals.addItem _ _⟩
  rw [hadd]
  exact Sorted.insertItem (hsorted.filter _) _

/-- A call goes on as it should exactly if it removes nothing too early. -/
theorem tracks_append_iff {as : List Arrival} (hsorted : Sorted s.window) (h : Tracks w as s) (a : Arrival) :
    Tracks w (as ++ [a]) (computeQueueDelay w s a) ↔ NoneEarly w s a := by
  obtain ⟨hwindow, -, htotals⟩ := window_computeQueueDelay (w := w) hsorted h.2 a
  have hremaining : (remaining w (as ++ [a])).Perm ((a.pktTime, a.processingTime) ::
      s.window.filter fun x => decide (cutOff w a ≤ x.1.toNat)) := by
    rw [remaining_append]
    exact (List.perm_append_singleton _ _).trans ((h.1.symm.filter _).cons _)
  rw [Tracks, and_iff_left htotals, hwindow]
  have hperm : (insertItem (a.pktTime, a.processingTime)
        (s.window.filter fun x => decide (earliestTime w a ≤ x.1))).Perm (remaining w (as ++ [a])) ↔
      (s.window.filter fun x => decide (earliestTime w a ≤ x.1)).Perm
        (s.window.filter fun x => decide (cutOff w a ≤ x.1.toNat)) := by
    refine ⟨fun hp => ?_, fun hp => ?_⟩
    · exact (List.perm_cons _).1 (((perm_insertItem _ _).symm.trans hp).trans hremaining)
    · exact ((perm_insertItem _ _).trans (hp.cons _)).trans hremaining.symm
  rw [hperm]
  constructor
  · intro hsame x hx hearly
    by_contra hkept
    have hmem := hsame.symm.subset (List.mem_filter.2 ⟨hx, decide_eq_true (not_lt.1 hkept)⟩)
    exact BitVec.not_lt.2 (of_decide_eq_true (List.mem_filter.1 hmem).2) hearly
  · intro hearly
    refine List.Perm.of_eq (List.filter_congr fun x hx => decide_eq_decide.2 ⟨fun hle => ?_, fun hle => ?_⟩)
    · exact (cutOff_le w a).trans hle
    · by_contra hlt
      exact absurd (hearly x hx (BitVec.not_le.1 hlt)) (not_lt.2 hle)

/-! ### Runs -/

/-- After any calls the window holds the items that have not been too old since they were added, and the totals are
theirs, exactly if no call has removed an item that was not too old. -/
theorem window_tracks_iff (w : SubsecondTime) (calls : List Arrival) :
    (∀ pre post, calls = pre ++ post → Tracks w pre (pre.foldl (computeQueueDelay w) new)) ↔
      (Machine.always (computeQueueDelay w)).Guarded (NoneEarly w) new calls := by
  have hgeneral (done : List Arrival) (s : WindowedMg1) (hsorted : Sorted s.window) (h : Tracks w done s) :
      (∀ pre post, calls = pre ++ post → Tracks w (done ++ pre) (pre.foldl (computeQueueDelay w) s)) ↔
        (Machine.always (computeQueueDelay w)).Guarded (NoneEarly w) s calls := by
    induction calls generalizing done s with
    | nil =>
      refine iff_of_true (fun pre post hnil => ?_) trivial
      obtain ⟨rfl, -⟩ := List.append_eq_nil_iff.1 hnil.symm
      rwa [List.append_nil]
    | cons a calls ih =>
      obtain ⟨-, hsorted', -⟩ := window_computeQueueDelay (w := w) hsorted h.2 a
      have hfirst := tracks_append_iff (w := w) hsorted h a
      constructor
      · intro htracks
        have hnext := htracks [a] calls rfl
        refine ⟨hfirst.1 hnext, fun s' hs' => ?_⟩
        obtain rfl := Except.ok.inj hs'
        refine (ih (done ++ [a]) _ hsorted' hnext).1 fun pre post hcalls => ?_
        rw [List.append_assoc]
        exact htracks (a :: pre) post (by rw [hcalls, List.cons_append])
      · rintro ⟨hnone, hrest⟩ pre post hcalls
        have hnext := hfirst.2 hnone
        cases pre with
        | nil => rwa [List.append_nil]
        | cons b pre =>
          obtain ⟨rfl, htail⟩ := List.cons.inj hcalls
          have hlater := (ih (done ++ [a]) _ hsorted' hnext).2 (hrest _ rfl) pre post htail
          rwa [List.append_assoc] at hlater
  exact hgeneral [] new List.Pairwise.nil ⟨List.Perm.refl _, rfl, rfl, rfl⟩

/-- Nothing is removed too early when neither difference is below zero. -/
theorem noneEarly_of_le {a : Arrival} (hglobal : w.toNat ≤ a.globalTime.toNat) (hpkt : 10 * w.toNat ≤ a.pktTime.toNat) :
    NoneEarly w s a := by
  intro x _ hearly
  have hlt := a.pktTime.isLt
  have hten : (10 * w).toNat = 10 * w.toNat := by
    rw [BitVec.toNat_mul]
    exact Nat.mod_eq_of_lt (lt_of_le_of_lt hpkt hlt)
  have hcut : cutOff w a = (earliestTime w a).toNat := by
    rw [cutOff, earliestTime, SubsecondTime.latest]
    split_ifs with h
    · rw [BitVec.toNat_sub_of_le (by rw [BitVec.le_def, hten]; exact hpkt), hten]
      refine max_eq_right ?_
      rw [BitVec.lt_def, BitVec.toNat_sub_of_le hglobal, BitVec.toNat_sub_of_le (by rw [BitVec.le_def, hten]; exact hpkt),
        hten] at h
      exact h.le
    · rw [BitVec.toNat_sub_of_le hglobal]
      refine max_eq_left ?_
      rw [BitVec.lt_def, BitVec.toNat_sub_of_le hglobal, BitVec.toNat_sub_of_le (by rw [BitVec.le_def, hten]; exact hpkt),
        hten] at h
      exact not_lt.1 h
  rw [hcut]
  exact hearly

/-- At time zero the first difference wraps around, and the second call empties a window of one item. -/
theorem window_emptied_atStart : ¬ ∀ (w : SubsecondTime) (calls : List Arrival),
    (calls.head?.all fun a => a.globalTime = 0) = true → (calls.Pairwise fun a b => a.globalTime ≤ b.globalTime) →
      ∀ pre post, calls = pre ++ post → Tracks w pre (pre.foldl (computeQueueDelay w) new) := by
  intro h
  have htracks := h 1000 [⟨0, 20000, 1000⟩, ⟨0, 20000, 1000⟩] (by decide) (by decide) _ [] (List.append_nil _).symm
  exact absurd htracks.1.length_eq (by decide)

end WindowedMg1

end LifeSim.Queue
