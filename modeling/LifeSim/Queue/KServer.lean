import LifeSim.Lib.Machine
import LifeSim.Lib.Servers
import LifeSim.Queue.Contention
import Mathlib.Order.BoundedOrder.Basic
import Mathlib.Data.Finset.Range

/-!
# The units as a queue with several servers

As long as requests come in order, and after time zero, `ContentionModel` is a queue with one server for each unit:
`getCompletionTime` books each request on a unit that is free, or else on the first one to become free. Times have 64
bits, so that this holds until a booking ends after them.
-/

namespace LifeSim.Queue

open LifeSim.Lib

/-- The arguments of `getCompletionTime`. -/
structure Request where
  start : SubsecondTime
  delay : SubsecondTime
  tag : BitVec 64

namespace ContentionModel

variable {c : ContentionModel} {r : Request} {k : ℕ} {h : List (Booking ℕ ℕ)}

/-- The completion time of a request. -/
def completion (c : ContentionModel) (r : Request) : SubsecondTime := (c.getCompletionTime r.start r.delay r.tag).2

/-- The units after a request. -/
def serve (c : ContentionModel) (r : Request) : ContentionModel := (c.getCompletionTime r.start r.delay r.tag).1

/-- The interval that is booked for a request. -/
def booking (c : ContentionModel) (r : Request) : Booking ℕ ℕ where
  server := c.findUnit r.start c.numOutstanding 0 0
  arrival := r.start.toNat
  begins := (c.completion r - r.delay).toNat
  finish := (c.completion r).toNat

/-- The intervals that are booked for requests. -/
def bookings (c : ContentionModel) : List Request → List (Booking ℕ ℕ)
  | [] => []
  | r :: rs => c.booking r :: bookings (c.serve r) rs

/-- The request ends within 64 bits. -/
def Fits (c : ContentionModel) (r : Request) : Prop := (c.getStartTime r.start).toNat + r.delay.toNat < 2 ^ 64

instance (c : ContentionModel) (r : Request) : Decidable (c.Fits r) := inferInstanceAs (Decidable (_ < _))

/-- When each unit is free. -/
def free (c : ContentionModel) (unit : ℕ) : ℕ := (c.timeOf unit).toNat

theorem free_new (k : ℕ) : (new k).free = fun _ => ⊥ := by
  funext unit
  rw [free, timeOf, new, List.getD_eq_getElem?_getD, List.getElem?_replicate]
  split_ifs <;> rfl

/-- The units after a request that is in order: one of them is booked from the time at which it begins. -/
theorem serve_spec (hunits : 0 < c.numOutstanding) (hstart : 0 < r.start) (hlast : c.tLast ≤ r.start) (hfits : c.Fits r) :
    (c.serve r).free = Function.update c.free (c.booking r).server (c.booking r).finish ∧ (c.serve r).tLast = r.start ∧
      (c.booking r).server < c.numOutstanding ∧
      (c.free (c.booking r).server ≤ r.start.toNat ∨ ∀ unit < c.numOutstanding,
        r.start.toNat < c.free unit ∧ c.free (c.booking r).server ≤ c.free unit) ∧
      (c.booking r).begins = max r.start.toNat (c.free (c.booking r).server) ∧
      (c.booking r).finish = (c.booking r).begins + r.delay.toNat := by
  obtain ⟨unit, hlt, hfind, hbegins, hchosen⟩ := getStartTime_eq hunits (BitVec.not_lt.2 hlast)
  have hne : r.start ≠ 0 := fun hzero => by
    rw [hzero] at hstart
    exact absurd hstart (BitVec.not_lt.2 (BitVec.le_refl _))
  have hends : c.completion r = c.getStartTime r.start + r.delay := getCompletionTime_result (.inr hne) _ _
  have hserve : c.serve r = ⟨c.time.set unit (c.getStartTime r.start + r.delay, r.tag), r.start⟩ := by
    rw [serve, getCompletionTime, if_neg hunits.ne', if_neg hne, if_neg (BitVec.not_lt.2 hlast), hfind, hbegins]
  have hfinish : (c.completion r).toNat = (c.getStartTime r.start).toNat + r.delay.toNat := by
    rw [hends, BitVec.toNat_add_of_lt hfits]
  have hstarts : (c.booking r).begins = (c.getStartTime r.start).toNat := by
    rw [booking, hends, BitVec.add_sub_cancel]
  have hserver : (c.booking r).server = unit := hfind
  refine ⟨?_, by rw [hserve], hserver ▸ hlt, ?_, ?_, by rw [hstarts]; exact hfinish⟩
  · funext u
    rw [hserve, hserver]
    rcases eq_or_ne u unit with rfl | hother
    · rw [Function.update_self, free, timeOf, List.getD_eq_getElem?_getD, List.getElem?_set_self hlt]
      exact congrArg BitVec.toNat hends.symm
    · rw [Function.update_of_ne hother, free, free, timeOf, timeOf, List.getD_eq_getElem?_getD,
        List.getElem?_set_ne hother.symm, List.getD_eq_getElem?_getD]
  · rw [hserver]
    exact hchosen
  · rw [hstarts, hserver, hbegins, free]
    split_ifs with hwait
    · exact (max_eq_right (BitVec.le_of_lt hwait)).symm
    · exact (max_eq_left (BitVec.not_lt.1 hwait)).symm

/-- A request that is in order extends the history of a queue with several servers. -/
theorem serve_served (hk : c.numOutstanding = k) (hunits : 0 < k) (hs : Served (Finset.range k) c.free h)
    (hstart : 0 < r.start) (hlast : c.tLast ≤ r.start) (hordered : ∀ a ∈ h, a.arrival ≤ r.start.toNat)
      (hfits : c.Fits r) :
    Served (Finset.range k) (c.serve r).free (h ++ [c.booking r]) := by
  subst hk
  obtain ⟨hfree, -, hserver, hchosen, hbegins, hfinish⟩ := serve_spec hunits hstart hlast hfits
  rw [hfree]
  refine hs.book (Finset.mem_range.2 hserver) hordered ?_ hbegins (hfinish ▸ Nat.le_add_right _ _)
  exact hchosen.imp_right fun hbusy unit hunit => (hbusy unit (Finset.mem_range.1 hunit)).2

theorem serve_numOutstanding (c : ContentionModel) (r : Request) : (c.serve r).numOutstanding = c.numOutstanding :=
  c.call_numOutstanding (.completion r.start r.delay r.tag)

/-- The bookings of requests that are in order are the history of a queue with several servers. -/
theorem bookings_served {rs : List Request} (hk : c.numOutstanding = k) (hunits : 0 < k)
    (hs : Served (Finset.range k) c.free h) (hpos : ∀ r ∈ rs, 0 < r.start)
    (hordered : rs.Pairwise fun a b => a.start ≤ b.start) (hlast : ∀ r ∈ rs, c.tLast ≤ r.start)
    (harrival : ∀ r ∈ rs, ∀ a ∈ h, a.arrival ≤ r.start.toNat)
    (hfits : (Machine.always serve).Guarded Fits c rs) :
    Served (Finset.range k) (rs.foldl serve c).free (h ++ c.bookings rs) := by
  induction rs generalizing c h with
  | nil => rwa [bookings, List.append_nil]
  | cons r rs ih =>
    obtain ⟨hfirst, hrest⟩ := hfits
    obtain ⟨hbefore, hordered⟩ := List.pairwise_cons.1 hordered
    have hr := List.mem_cons_self (a := r) (l := rs)
    have hstep := serve_served hk hunits hs (hpos r hr) (hlast r hr) (harrival r hr) hfirst
    obtain ⟨-, htLast, -⟩ := serve_spec (hk.symm ▸ hunits) (hpos r hr) (hlast r hr) hfirst
    rw [bookings, List.append_cons]
    refine ih ((serve_numOutstanding c r).trans hk) hstep (fun t ht => hpos t (List.mem_cons_of_mem r ht)) hordered
      (fun t ht => htLast ▸ hbefore t ht) (fun t ht a ha => ?_) (hrest _ rfl)
    rcases List.mem_append.1 ha with ha | ha
    · exact harrival t (List.mem_cons_of_mem r ht) a ha
    · exact List.mem_singleton.1 ha ▸ hbefore t ht

theorem run_serve_tLast {t : SubsecondTime} {rs : List Request} (hc : c.tLast ≤ t) (hrs : ∀ r ∈ rs, r.start ≤ t) :
    (rs.foldl serve c).tLast ≤ t := by
  induction rs generalizing c with
  | nil => exact hc
  | cons r rs ih =>
    refine ih ?_ fun a ha => hrs a (List.mem_cons_of_mem r ha)
    rw [serve, getCompletionTime]
    split_ifs
    · exact hc
    · exact hc
    · exact hc
    · exact hrs r List.mem_cons_self

theorem run_serve_numOutstanding (c : ContentionModel) (rs : List Request) :
    (rs.foldl serve c).numOutstanding = c.numOutstanding := by
  induction rs generalizing c with
  | nil => rfl
  | cons r rs ih => exact (ih (c.serve r)).trans (serve_numOutstanding c r)

theorem exists_of_mem_bookings {rs : List Request} {a : Booking ℕ ℕ} (ha : a ∈ c.bookings rs) :
    ∃ r ∈ rs, a.arrival = r.start.toNat := by
  induction rs generalizing c with
  | nil => exact absurd ha List.not_mem_nil
  | cons r rs ih =>
    rcases List.mem_cons.1 ha with rfl | ha
    · exact ⟨r, List.mem_cons_self, rfl⟩
    · obtain ⟨r', hr', harrival⟩ := ih ha
      exact ⟨r', List.mem_cons_of_mem r hr', harrival⟩

/-- There are never more bookings in progress than units, and none of them ends too early. A request waits only if all
units are busy when it comes, and then until the first of them becomes free. It begins at the first time from its start
on at which fewer bookings are in progress than there are units. -/
def IsQueue (k : ℕ) (rs : List Request) : Prop :=
  (∀ t, inProgress ((new k).bookings rs) t ≤ k) ∧
    ∀ pre r post, rs = pre ++ r :: post →
      let c := pre.foldl serve (new k)
      let begins := (c.completion r - r.delay).toNat
      r.start.toNat + r.delay.toNat ≤ (c.completion r).toNat ∧
        (r.start.toNat < begins → ∀ unit < k, r.start < c.timeOf unit) ∧
        (r.start.toNat < begins → IsLeast {t | ∃ unit < k, (c.timeOf unit).toNat = t} begins) ∧
        IsLeast {t | r.start.toNat ≤ t ∧ inProgress ((new k).bookings pre) t < k} begins

/-- For requests at positive times in order, whose bookings end within 64 bits, the units are a queue. -/
theorem completion_kServer (k : ℕ) (hk : 0 < k) (rs : List Request) (hpos : ∀ r ∈ rs, 0 < r.start)
    (hordered : rs.Pairwise fun a b => a.start ≤ b.start) (hfits : (Machine.always serve).Guarded Fits (new k) rs) :
    IsQueue k rs := by
  have hnum : (new k).numOutstanding = k := List.length_replicate
  have hnil : Served (Finset.range k) (new k).free [] := free_new k ▸ Served.nil
  have hlate (rs : List Request) : ∀ r ∈ rs, (new k).tLast ≤ r.start := fun r _ => Nat.zero_le r.start.toNat
  have harrival (rs : List Request) : ∀ r ∈ rs, ∀ a ∈ ([] : List (Booking ℕ ℕ)), a.arrival ≤ r.start.toNat :=
    fun r _ a ha => absurd ha List.not_mem_nil
  constructor
  · intro t
    have hs := bookings_served hnum hk hnil hpos hordered (hlate rs) (harrival rs) hfits
    exact (hs.inProgress_le_card t).trans_eq (Finset.card_range k)
  · rintro pre r post rfl c begins
    have hr : r ∈ pre ++ r :: post := List.mem_append_right pre List.mem_cons_self
    obtain ⟨hearly, hrest⟩ := Machine.guarded_append _ |>.1 hfits
    have hfirst : c.Fits r := (hrest c (Machine.always_run _ _ _)).1
    obtain ⟨hpre, hpost, hbefore⟩ := List.pairwise_append.1 hordered
    have hs : Served (Finset.range k) c.free ((new k).bookings pre) := by
      have hs := bookings_served hnum hk hnil (fun a ha => hpos a (List.mem_append_left _ ha)) hpre (hlate pre)
        (harrival pre) hearly
      rwa [List.nil_append] at hs
    have hbusy : c.numOutstanding = k := (run_serve_numOutstanding _ pre).trans hnum
    have htLast : c.tLast ≤ r.start :=
      run_serve_tLast (Nat.zero_le r.start.toNat) fun a ha => hbefore a ha r List.mem_cons_self
    obtain ⟨-, -, hserver, hchosen, hbegins, hfinish⟩ := serve_spec (hbusy.symm ▸ hk) (hpos r hr) htLast hfirst
    rw [hbusy] at hserver hchosen
    change begins = max r.start.toNat (c.free (c.booking r).server) at hbegins
    have hends : (c.completion r).toNat = begins + r.delay.toNat := hfinish
    -- a request that waits has found no unit free
    have hwaits : r.start.toNat < begins →
        ∀ unit < k, r.start.toNat < c.free unit ∧ c.free (c.booking r).server ≤ c.free unit := by
      intro hwait
      refine hchosen.resolve_left fun hfree => ?_
      rw [hbegins, max_eq_left hfree] at hwait
      exact lt_irrefl _ hwait
    refine ⟨?_, fun hwait unit hunit => (hwaits hwait unit hunit).1, fun hwait => ?_, ?_⟩
    · rw [hends, hbegins]
      exact Nat.add_le_add_right (le_max_left _ _) _
    · obtain hlt := (hwaits hwait _ hserver).1
      rw [hbegins, max_eq_right hlt.le]
      refine ⟨⟨_, hserver, rfl⟩, ?_⟩
      rintro t ⟨unit, hunit, rfl⟩
      exact (hwaits hwait unit hunit).2
    · have hleast := hs.isLeast_begins (b := c.booking r) (Finset.mem_range.2 hserver) (fun a ha => ?_)
        (hchosen.imp_right fun hall unit hunit => (hall unit (Finset.mem_range.1 hunit)).2) hbegins
      · rwa [Finset.card_range] at hleast
      · obtain ⟨r', hr', harrival'⟩ := exists_of_mem_bookings ha
        exact harrival'.trans_le (hbefore r' hr' r List.mem_cons_self)

/-- Two units, and a third request that has to wait. -/
theorem completion_kServer_threeRequests : IsQueue 2 [⟨1, 10, 0⟩, ⟨2, 10, 0⟩, ⟨3, 5, 0⟩] := by
  have hfits : (Machine.always serve).Guarded (fun c r => decide (c.Fits r) = true) (new 2)
      [⟨1, 10, 0⟩, ⟨2, 10, 0⟩, ⟨3, 5, 0⟩] := .of_follows (by decide)
  simp only [decide_eq_true_iff] at hfits
  exact completion_kServer 2 (by decide) _ (by decide) (by decide) hfits

/-- A booking that ends after the last time of 64 bits ends too early. -/
theorem completion_kServer_overflow : ¬ ∀ (k : ℕ) (rs : List Request), 0 < k → (∀ r ∈ rs, 0 < r.start) →
    (rs.Pairwise fun a b => a.start ≤ b.start) → IsQueue k rs := by
  intro h
  obtain ⟨-, hends⟩ := h 1 [⟨1, BitVec.allOnes 64, 0⟩] (by decide) (by decide) (by decide)
  obtain ⟨hlate, -⟩ := hends [] ⟨1, BitVec.allOnes 64, 0⟩ [] rfl
  exact absurd hlate (by decide)

end ContentionModel

end LifeSim.Queue
