import Mathlib.Data.Finset.Card
import Mathlib.Data.List.Nodup
import Mathlib.Order.Bounds.Basic

/-!
# Queues with several servers

Requests arrive in order, and each is booked on a server: on one that is free, or else on the one that is free first.
The history of such a queue is a list of bookings, oldest first. No server works on two bookings at one time, and a
request waits only while all servers work.
-/

namespace LifeSim.Lib

variable {ι τ : Type*} [LinearOrder τ]

/-- A request that a server works on from one time until another. -/
structure Booking (ι τ : Type*) where
  server : ι
  arrival : τ
  begins : τ
  finish : τ

namespace Booking

/-- The server works on the request. -/
def covers (b : Booking ι τ) (t : τ) : Bool := decide (b.begins ≤ t ∧ t < b.finish)

theorem covers_iff {b : Booking ι τ} {t : τ} : b.covers t = true ↔ b.begins ≤ t ∧ t < b.finish := decide_eq_true_iff

end Booking

/-- How many bookings are in progress. -/
def inProgress (h : List (Booking ι τ)) (t : τ) : ℕ := h.countP fun b => b.covers t

variable [DecidableEq ι] [OrderBot τ]

/-- A history, and when each server is free after it. -/
inductive Served (servers : Finset ι) : (ι → τ) → List (Booking ι τ) → Prop
  | nil : Served servers (fun _ => ⊥) []
  | book {free : ι → τ} {h : List (Booking ι τ)} {b : Booking ι τ} (served : Served servers free h)
      (mem : b.server ∈ servers) (ordered : ∀ a ∈ h, a.arrival ≤ b.arrival)
      (chosen : free b.server ≤ b.arrival ∨ ∀ u ∈ servers, free b.server ≤ free u)
      (begins : b.begins = max b.arrival (free b.server)) (ends : b.begins ≤ b.finish) :
      Served servers (Function.update free b.server b.finish) (h ++ [b])

namespace Served

variable {servers : Finset ι} {free : ι → τ} {h : List (Booking ι τ)} {b : Booking ι τ} {t : τ}

theorem mem_servers (hs : Served servers free h) (hb : b ∈ h) : b.server ∈ servers := by
  induction hs with
  | nil => exact absurd hb List.not_mem_nil
  | book served mem ordered chosen begins ends ih =>
    rcases List.mem_append.1 hb with hb | hb
    · exact ih hb
    · exact List.mem_singleton.1 hb ▸ mem

/-- A server becomes free later and later. -/
theorem finish_le_free (hs : Served servers free h) (hb : b ∈ h) : b.finish ≤ free b.server := by
  induction hs with
  | nil => exact absurd hb List.not_mem_nil
  | @book free h a served mem ordered chosen begins ends ih =>
    rcases List.mem_append.1 hb with hb | hb
    · by_cases hsame : b.server = a.server
      · rw [hsame, Function.update_self]
        calc b.finish ≤ free b.server := ih hb
          _ = free a.server := by rw [hsame]
          _ ≤ a.begins := begins ▸ le_max_right _ _
          _ ≤ a.finish := ends
      · rw [Function.update_of_ne hsame]
        exact ih hb
    · obtain rfl := List.mem_singleton.1 hb
      rw [Function.update_self]

/-- Two bookings on a server do not overlap. -/
theorem pairwise (hs : Served servers free h) : h.Pairwise fun a b => a.server = b.server → a.finish ≤ b.begins := by
  induction hs with
  | nil => exact List.Pairwise.nil
  | @book free h b served mem ordered chosen begins ends ih =>
    refine List.pairwise_append.2 ⟨ih, List.pairwise_singleton _ _, fun a ha c hc hsame => ?_⟩
    obtain rfl := List.mem_singleton.1 hc
    calc a.finish ≤ free a.server := served.finish_le_free ha
      _ = free c.server := by rw [hsame]
      _ ≤ c.begins := begins ▸ le_max_right _ _

/-- The servers of the bookings in progress differ. -/
theorem nodup_servers (hs : Served servers free h) (t : τ) :
    ((h.filter fun b => b.covers t).map Booking.server).Nodup := by
  rw [List.Nodup, List.pairwise_map]
  refine (hs.pairwise.filter _).imp_of_mem fun {a b} ha hb hapart hsame => ?_
  obtain ⟨-, hlt⟩ := Booking.covers_iff.1 (List.mem_filter.1 ha).2
  obtain ⟨hle, -⟩ := Booking.covers_iff.1 (List.mem_filter.1 hb).2
  exact absurd (hlt.trans_le ((hapart hsame).trans hle)) (lt_irrefl t)

/-- Bookings are in progress only on servers that are free later. -/
theorem inProgress_le (hs : Served servers free h) (t : τ) :
    inProgress h t ≤ (servers.filter fun u => t < free u).card := by
  rw [inProgress, List.countP_eq_length_filter, ← List.length_map Booking.server,
    ← List.toFinset_card_of_nodup (hs.nodup_servers t)]
  refine Finset.card_le_card fun u hu => ?_
  obtain ⟨b, hb, rfl⟩ := List.mem_map.1 (List.mem_toFinset.1 hu)
  obtain ⟨hmem, hcovers⟩ := List.mem_filter.1 hb
  exact Finset.mem_filter.2 ⟨hs.mem_servers hmem, (Booking.covers_iff.1 hcovers).2.trans_le (hs.finish_le_free hmem)⟩

/-- There are no more bookings in progress than servers. -/
theorem inProgress_le_card (hs : Served servers free h) (t : τ) : inProgress h t ≤ servers.card :=
  (hs.inProgress_le t).trans (Finset.card_filter_le _ _)

/-- After the last arrival a server works until it is free. -/
theorem exists_covers (hs : Served servers free h) {u : ι} (hlast : ∀ b ∈ h, b.arrival ≤ t) (hfree : t < free u) :
    ∃ b ∈ h, b.server = u ∧ b.covers t = true := by
  induction hs with
  | nil => exact absurd hfree not_lt_bot
  | @book free h b served mem ordered chosen begins ends ih =>
    have hbefore := fun a ha => hlast a (List.mem_append_left [b] ha)
    have hmem := List.mem_append_right h (List.mem_singleton_self b)
    by_cases hsame : u = b.server
    · subst hsame
      rw [Function.update_self] at hfree
      rcases le_or_gt b.begins t with hle | hgt
      · exact ⟨b, hmem, rfl, Booking.covers_iff.2 ⟨hle, hfree⟩⟩
      · -- the request waits for the server, which still works
        rw [begins, lt_max_iff] at hgt
        obtain ⟨a, ha, hserver⟩ := ih hbefore (hgt.resolve_left (hlast b hmem).not_gt)
        exact ⟨a, List.mem_append_left _ ha, hserver⟩
    · rw [Function.update_of_ne hsame] at hfree
      obtain ⟨a, ha, hserver⟩ := ih hbefore hfree
      exact ⟨a, List.mem_append_left _ ha, hserver⟩

/-- After the last arrival, a server that is not free works. -/
theorem inProgress_eq (hs : Served servers free h) (hlast : ∀ b ∈ h, b.arrival ≤ t) :
    inProgress h t = (servers.filter fun u => t < free u).card := by
  refine (hs.inProgress_le t).antisymm ?_
  rw [inProgress, List.countP_eq_length_filter, ← List.length_map Booking.server,
    ← List.toFinset_card_of_nodup (hs.nodup_servers t)]
  refine Finset.card_le_card fun u hu => ?_
  obtain ⟨b, hb, rfl, hcovers⟩ := hs.exists_covers hlast (Finset.mem_filter.1 hu).2
  exact List.mem_toFinset.2 (List.mem_map_of_mem (List.mem_filter.2 ⟨hb, hcovers⟩))

/-- A server is free exactly if there are fewer bookings in progress than servers. -/
theorem inProgress_lt_iff (hs : Served servers free h) (hlast : ∀ b ∈ h, b.arrival ≤ t) :
    inProgress h t < servers.card ↔ ∃ u ∈ servers, free u ≤ t := by
  rw [hs.inProgress_eq hlast]
  constructor
  · intro hlt
    by_contra hbusy
    refine hlt.ne (congrArg _ (Finset.filter_true_of_mem fun u hu => ?_))
    exact not_le.1 fun hfree => hbusy ⟨u, hu, hfree⟩
  · rintro ⟨u, hu, hfree⟩
    exact Finset.card_lt_card (Finset.filter_ssubset.2 ⟨u, hu, not_lt.2 hfree⟩)

/-- A request begins when a server first has nothing to do. -/
theorem isLeast_begins (hs : Served servers free h) (mem : b.server ∈ servers) (ordered : ∀ a ∈ h, a.arrival ≤ b.arrival)
    (chosen : free b.server ≤ b.arrival ∨ ∀ u ∈ servers, free b.server ≤ free u)
    (begins : b.begins = max b.arrival (free b.server)) :
    IsLeast {t | b.arrival ≤ t ∧ inProgress h t < servers.card} b.begins := by
  have hlt (t : τ) (ht : b.arrival ≤ t) : inProgress h t < servers.card ↔ ∃ u ∈ servers, free u ≤ t :=
    hs.inProgress_lt_iff fun a ha => (ordered a ha).trans ht
  rw [begins]
  refine ⟨⟨le_max_left _ _, (hlt _ (le_max_left _ _)).2 ⟨b.server, mem, le_max_right _ _⟩⟩, ?_⟩
  rintro t ⟨ht, hfew⟩
  obtain ⟨u, hu, hfree⟩ := (hlt t ht).1 hfew
  rcases chosen with hnow | hfirst
  · exact max_le ht (hnow.trans ht)
  · exact max_le ht ((hfirst u hu).trans hfree)

end Served

end LifeSim.Lib
