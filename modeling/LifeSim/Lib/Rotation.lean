import Mathlib.Data.List.Rotate
import Mathlib.Data.List.Nodup

/-!
# Taking turns

A log that reads a list in a circle, from some place on. Any part of the log that is as long as the list is a rotation of
the list, so if no entry occurs twice in the list, every entry occurs once in such a part.
-/

namespace LifeSim.Lib

variable {α : Type*} {ring log window : List α} {a : α} {place : ℕ}

/-- The log reads the list in a circle, beginning at this place. -/
def TakesTurns (ring : List α) (place : ℕ) (log : List α) : Prop :=
  ∀ i < log.length, log[i]? = ring[(i + place) % ring.length]?

namespace TakesTurns

theorem nil (ring : List α) (place : ℕ) : TakesTurns ring place [] := fun _ hi => absurd hi (Nat.not_lt_zero _)

/-- One more entry in front: the list has been rotated by one since. -/
theorem cons (ha : ring[place % ring.length]? = some a) (h : TakesTurns ring (place + 1) log) :
    TakesTurns ring place (a :: log) := by
  intro i hi
  cases i with
  | zero => rw [List.getElem?_cons_zero, Nat.zero_add, ha]
  | succ i =>
    rw [List.getElem?_cons_succ, h i (Nat.lt_of_succ_lt_succ hi), Nat.add_right_comm i 1 place, Nat.add_assoc]

/-- A part of the log that is as long as the list is a rotation of it. -/
theorem window_eq (h : TakesTurns ring place log) (hwindow : window <:+: log) (hlen : window.length = ring.length) :
    ∃ k, window = ring.rotate k := by
  obtain ⟨before, after, hlog⟩ := hwindow
  refine ⟨before.length + place, List.ext_getElem? fun i => ?_⟩
  by_cases hi : i < window.length
  · have hplace : log[before.length + i]? = window[i]? := by
      rw [← hlog, List.append_assoc, List.getElem?_append_right (Nat.le_add_right ..), Nat.add_sub_cancel_left,
        List.getElem?_append_left hi]
    have hlt : before.length + i < log.length := by
      rw [← hlog, List.length_append, List.length_append]
      omega
    rw [← hplace, h _ hlt, List.getElem?_rotate (hlen ▸ hi)]
    congr 2
    omega
  · rw [List.getElem?_eq_none (Nat.le_of_not_lt hi), List.getElem?_eq_none]
    rw [List.length_rotate, ← hlen]
    exact Nat.le_of_not_lt hi

end TakesTurns

end LifeSim.Lib
