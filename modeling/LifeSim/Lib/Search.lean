import Mathlib.Data.List.Pairwise
import Mathlib.Data.List.Range

/-!
# Searching a range in parts

A search for the first number that passes a test can go through the parts of a range, each searched in turn. Searching on
behind the number that was found last finds all of them in ascending order.
-/

namespace LifeSim.Lib

variable {α β : Type*}

theorem findSome?_congr_mem {f g : α → Option β} {l : List α} (h : ∀ a ∈ l, f a = g a) :
    l.findSome? f = l.findSome? g := by
  induction l with
  | nil => rfl
  | cons a l ih =>
    rw [List.findSome?_cons, List.findSome?_cons, h a List.mem_cons_self,
      ih fun b hb => h b (List.mem_cons_of_mem a hb)]

/-- A test whose success has a value. -/
theorem findSome?_ite (p : α → Bool) (g : α → β) (l : List α) :
    (l.findSome? fun a => if p a then some (g a) else none) = (l.find? p).map g := by
  induction l with
  | nil => rfl
  | cons a l ih =>
    by_cases ha : p a = true
    · rw [List.findSome?_cons, List.find?_cons_of_pos ha, if_pos ha, Option.map_some]
    · rw [List.findSome?_cons, List.find?_cons_of_neg ha, if_neg ha, ih]

/-- A search in parts of equal length. -/
theorem findSome?_range_mul (f : ℕ → Option β) (a b : ℕ) :
    (List.range (b * a)).findSome? f =
      (List.range a).findSome? fun i => (List.range b).findSome? fun j => f (b * i + j) := by
  induction a with
  | zero => rfl
  | succ a ih =>
    rw [Nat.mul_succ, List.range_add, List.findSome?_append, ih, List.range_succ, List.findSome?_append,
      List.findSome?_map, List.findSome?_singleton]
    rfl

/-- A search that finds nothing below a bound may begin there. -/
theorem findSome?_range'_eq (f : ℕ → Option β) {low n : ℕ} (hlow : low ≤ n) (hnone : ∀ i < low, f i = none) :
    (List.range' low (n - low)).findSome? f = (List.range n).findSome? f := by
  have hsplit : List.range n = List.range low ++ List.range' low (n - low) := by
    have hadd : List.range' 0 low 1 ++ List.range' (0 + 1 * low) (n - low) 1 = List.range' 0 (low + (n - low)) 1 :=
      List.range'_append
    rw [Nat.zero_add, Nat.one_mul, Nat.add_sub_cancel' hlow] at hadd
    rw [List.range_eq_range', List.range_eq_range', hadd]
  have hprefix : (List.range low).findSome? f = none :=
    List.findSome?_eq_none_iff.2 fun i hi => hnone i (List.mem_range.1 hi)
  rw [hsplit, List.findSome?_append, hprefix, Option.none_or]

/-- Among those that are greater than the first one, the others remain. -/
theorem filter_gt_head {a : ℕ} {rest : List ℕ} (h : (a :: rest).Pairwise (· < ·)) :
    (a :: rest).filter (fun i => a < i) = rest := by
  rw [List.filter_cons_of_neg (by simp)]
  exact List.filter_eq_self.2 fun b hb => by simpa using List.rel_of_pairwise_cons h hb

/-- What a search finds next is the first of those that are left, and behind it the others are left. -/
theorem filter_behind {p : ℕ → Bool} {n a : ℕ} {last : ℤ} {rest : List ℕ}
    (h : (List.range n).filter (fun i => p i && decide (last < (i : ℤ))) = a :: rest) :
    (List.range n).find? (fun i => p i && decide (last < (i : ℤ))) = some a ∧
      (List.range n).filter (fun i => p i && decide ((a : ℤ) < (i : ℤ))) = rest := by
  have hsorted : (a :: rest).Pairwise (· < ·) := by
    rw [← h]
    exact List.Pairwise.filter _ List.pairwise_lt_range
  have hmem : a ∈ (List.range n).filter fun i => p i && decide (last < (i : ℤ)) := by
    rw [h]
    exact List.mem_cons_self
  have hlast : last < (a : ℤ) := by
    have htest := List.of_mem_filter hmem
    rw [Bool.and_eq_true, decide_eq_true_eq] at htest
    exact htest.2
  refine ⟨by rw [← List.head?_filter, h, List.head?_cons], ?_⟩
  rw [← filter_gt_head hsorted, ← h, List.filter_filter]
  apply List.filter_congr
  intro i _
  by_cases hi : a < i
  · have hlt : last < (i : ℤ) := by omega
    simp [hi, hlt]
  · simp [hi]

end LifeSim.Lib
