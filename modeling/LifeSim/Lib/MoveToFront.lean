import Mathlib.Data.List.Basic
import Mathlib.Data.List.Nodup

/-!
# Move to front

A list of things in the order of their last use, the latest first. A use brings its thing to the front, and the place of
every other thing changes by one at most. After any uses two members stand in the list in the order in which the history
of the uses names them first.
-/

namespace LifeSim.Lib

variable {α : Type*} [DecidableEq α] {l start uses : List α} {a b c : α}

/-- Bring a member to the front. -/
def touch (a : α) (l : List α) : List α := a :: l.erase a

/-- The list after some uses, which are given with the latest first. -/
def recency (start : List α) : List α → List α
  | [] => start
  | a :: uses => touch a (recency start uses)

theorem touch_perm (ha : a ∈ l) : (touch a l).Perm l := (List.perm_cons_erase ha).symm

/-- The used one is in front, those before it are one place further back, and the others stay. -/
theorem idxOf_touch (hc : c ∈ l) (a : α) : (touch c l).idxOf a =
    if a = c then 0 else if l.idxOf a < l.idxOf c then l.idxOf a + 1 else l.idxOf a := by
  by_cases hac : a = c
  · rw [if_pos hac, hac, touch, List.idxOf_cons_self]
  rw [if_neg hac, touch, List.idxOf_cons_ne _ (Ne.symm hac)]
  induction l with
  | nil => exact absurd hc List.not_mem_nil
  | cons x l ih =>
    by_cases hx : x = c
    · subst hx
      rw [List.erase_cons_head, List.idxOf_cons_self, if_neg (Nat.not_lt_zero _), List.idxOf_cons_ne _ (Ne.symm hac)]
    · rw [List.erase_cons_tail (by simpa using hx), List.idxOf_cons_ne _ hx]
      by_cases hxa : x = a
      · subst hxa
        rw [List.idxOf_cons_self, List.idxOf_cons_self, if_pos (Nat.succ_pos _)]
      · have hrest := ih ((List.mem_cons.1 hc).resolve_left (Ne.symm hx))
        rw [List.idxOf_cons_ne _ hxa, List.idxOf_cons_ne _ hxa, hrest]
        split_ifs <;> omega

/-- A use does not change the order of the others. -/
theorem idxOf_touch_lt_iff (hc : c ∈ l) (ha : a ≠ c) (hb : b ≠ c) :
    (touch c l).idxOf a < (touch c l).idxOf b ↔ l.idxOf a < l.idxOf b := by
  have hac : l.idxOf a ≠ l.idxOf c := fun h => ha ((List.idxOf_inj hc).1 h.symm).symm
  have hbc : l.idxOf b ≠ l.idxOf c := fun h => hb ((List.idxOf_inj hc).1 h.symm).symm
  rw [idxOf_touch hc, idxOf_touch hc, if_neg ha, if_neg hb]
  split_ifs <;> omega

theorem recency_perm (huses : ∀ a ∈ uses, a ∈ start) : (recency start uses).Perm start := by
  induction uses with
  | nil => exact List.Perm.refl _
  | cons a uses ih =>
    have hrest := ih fun b hb => huses b (List.mem_cons_of_mem _ hb)
    have ha : a ∈ recency start uses := hrest.mem_iff.2 (huses a List.mem_cons_self)
    exact (touch_perm ha).trans hrest

/-- The order in the list is the order of the first mention in the history. -/
theorem idxOf_recency_lt_iff (huses : ∀ a ∈ uses, a ∈ start) (a b : α) :
    (recency start uses).idxOf a < (recency start uses).idxOf b ↔ (uses ++ start).idxOf a < (uses ++ start).idxOf b := by
  induction uses with
  | nil => exact Iff.rfl
  | cons c uses ih =>
    have huses' := fun b hb => huses b (List.mem_cons_of_mem c hb)
    have hc : c ∈ recency start uses := (recency_perm huses').mem_iff.2 (huses c List.mem_cons_self)
    have hmove := idxOf_touch hc
    rw [recency, List.cons_append]
    by_cases hb : b = c
    · subst hb
      rw [hmove b, if_pos rfl, List.idxOf_cons_self]
      exact iff_of_false (Nat.not_lt_zero _) (Nat.not_lt_zero _)
    · by_cases ha : a = c
      · subst ha
        rw [hmove a, if_pos rfl, hmove b, if_neg hb, List.idxOf_cons_self, List.idxOf_cons_ne _ (Ne.symm hb)]
        have hne : (recency start uses).idxOf b ≠ (recency start uses).idxOf a :=
          fun h => hb ((List.idxOf_inj hc).1 h.symm).symm
        split_ifs <;> omega
      · rw [idxOf_touch_lt_iff hc ha hb, ih huses', List.idxOf_cons_ne _ (Ne.symm ha), List.idxOf_cons_ne _ (Ne.symm hb)]
        omega

/-- The last member is the one that has not been used for the longest time. -/
theorem idxOf_le_of_last (hlast : l.idxOf a + 1 = l.length) (hb : b ∈ l) : l.idxOf b ≤ l.idxOf a := by
  have hlt := List.idxOf_lt_length_of_mem hb
  omega

end LifeSim.Lib
