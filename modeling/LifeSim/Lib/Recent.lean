import Mathlib.Data.List.Basic
import Mathlib.Data.List.Pairwise

/-!
# Lists with a moving bound

A log keeps its members in the order of a key and forgets those below a bound. Dropping the prefix below the bound is
filtering, and the latest member that meets a test is the same one, if it is not below the bound.
-/

namespace LifeSim.Lib

variable {α : Type*} {key : α → ℕ}

/-- In ascending order the members below a bound come first. -/
theorem dropWhile_eq_filter (key : α → ℕ) {l : List α} (h : l.Pairwise fun a b => key a ≤ key b) (bound : ℕ) :
    l.dropWhile (fun a => key a < bound) = l.filter fun a => bound ≤ key a := by
  induction l with
  | nil => rfl
  | cons a l ih =>
    obtain ⟨hhead, htail⟩ := List.pairwise_cons.1 h
    by_cases ha : key a < bound
    · rw [List.dropWhile_cons_of_pos (by simpa using ha), List.filter_cons_of_neg (by simpa using ha), ih htail]
    · rw [List.dropWhile_cons_of_neg (by simpa using ha), List.filter_cons_of_pos (by simpa using ha)]
      have hall : l.filter (fun b => bound ≤ key b) = l := by
        refine List.filter_eq_self.2 fun b hb => ?_
        have hle := hhead b hb
        simp only [decide_eq_true_eq]
        omega
      rw [hall]

/-- In descending order the first member that meets a test is found among those from a bound on, if it is one. -/
theorem find?_filter_bound {l : List α} (h : l.Pairwise fun a b => key b < key a) (p : α → Bool) (bound : ℕ) :
    (l.filter fun a => bound ≤ key a).find? p = (l.find? p).filter fun a => bound ≤ key a := by
  induction l with
  | nil => rfl
  | cons a l ih =>
    obtain ⟨hhead, htail⟩ := List.pairwise_cons.1 h
    by_cases ha : bound ≤ key a
    · rw [List.filter_cons_of_pos (by simpa using ha), List.find?_cons, List.find?_cons]
      cases p a with
      | true => simp [Option.filter, ha]
      | false => exact ih htail
    · have hnone : l.filter (fun b => bound ≤ key b) = [] := by
        refine List.filter_eq_nil_iff.2 fun b hb => ?_
        have hlt := hhead b hb
        simp only [decide_eq_true_eq]
        omega
      have hrest := ih htail
      rw [hnone] at hrest
      rw [List.filter_cons_of_neg (by simpa using ha), hnone, List.find?_cons]
      cases p a with
      | true => simp [Option.filter, ha]
      | false => exact hrest

end LifeSim.Lib
