import Mathlib.Data.Nat.Count
import Mathlib.Data.List.Range

/-!
# Ranks among the elements that stay

When some positions of a list go and the others close up, a position that stays moves to its rank: the number of those
before it that stay. The positions that stay in an interval move to an interval.
-/

namespace LifeSim.Lib

variable (p : ℕ → Prop) [DecidablePred p]

/-- The positions of an interval that stay have consecutive ranks. -/
theorem map_count_filter (low n : ℕ) : ((List.range' low n).filter p).map (Nat.count p) =
    List.range' (Nat.count p low) (Nat.count p (low + n) - Nat.count p low) := by
  induction n generalizing low with
  | zero => simp
  | succ n ih =>
    have hmono : Nat.count p (low + 1) ≤ Nat.count p (low + 1 + n) := Nat.count_monotone p (Nat.le_add_right _ _)
    have hsum : low + (n + 1) = low + 1 + n := by omega
    rw [List.range'_succ, List.filter_cons, hsum]
    by_cases hp : p low
    · have hcount : Nat.count p (low + 1) = Nat.count p low + 1 := Nat.count_succ_eq_succ_count hp
      have hlength : Nat.count p (low + 1 + n) - Nat.count p low =
          Nat.count p (low + 1 + n) - Nat.count p (low + 1) + 1 := by omega
      rw [if_pos (by simp [hp]), List.map_cons, ih, hlength, List.range'_succ, hcount]
    · have hcount : Nat.count p (low + 1) = Nat.count p low := Nat.count_succ_eq_count hp
      rw [if_neg (by simp [hp]), ih, hcount]

/-- A condition on the elements of a list, as one on their positions. -/
theorem count_getElem? {α : Type*} (q : α → Bool) (l : List α) (n : ℕ) :
    Nat.count (fun i => (l[i]?).any q = true) n = (l.take n).countP q := by
  induction n with
  | zero => rfl
  | succ n ih =>
    rw [Nat.count_succ, ih, List.take_add_one, List.countP_append]
    cases l[n]? with
    | none => rfl
    | some a =>
      rw [Option.any_some, Option.toList_some, List.countP_singleton]

end LifeSim.Lib
