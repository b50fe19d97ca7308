import Mathlib

/-!
# Lines of a stream that arrives in pieces

A stream is split into its non-empty lines while it is read. What has been read of the last line is carried
to the next piece, so that the lines do not depend on where the stream is cut.
-/

namespace LifeSim.Lib

variable {α : Type*} (isBreak : α → Bool)

/-- The non-empty lines that end in the input, and what is left, after what was carried. -/
def splitLines : List α → List α → List (List α) × List α
  | carry, [] => ([], carry)
  | carry, x :: xs =>
    if isBreak x then
      ((if carry = [] then [] else [carry]) ++ (splitLines [] xs).1, (splitLines [] xs).2)
    else splitLines (carry ++ [x]) xs

variable {isBreak} {carry piece xs ys : List α} {x : α}

/-- At a break the line that was carried ends. -/
theorem splitLines_cons_break (hx : isBreak x = true) : splitLines isBreak carry (x :: xs) =
    ((if carry = [] then [] else [carry]) ++ (splitLines isBreak [] xs).1, (splitLines isBreak [] xs).2) := by
  rw [splitLines, if_pos hx]

/-- A piece of a line is carried on. -/
theorem splitLines_append_piece (h : ∀ x ∈ piece, isBreak x = false) :
    splitLines isBreak carry (piece ++ xs) = splitLines isBreak (carry ++ piece) xs := by
  induction piece generalizing carry with
  | nil => rw [List.nil_append, List.append_nil]
  | cons x piece ih =>
    have hx : ¬ isBreak x = true := by simp [h x List.mem_cons_self]
    rw [List.cons_append, splitLines, if_neg hx, ih fun y hy => h y (List.mem_cons_of_mem _ hy), List.append_assoc,
      List.singleton_append]

/-- A piece of a line alone. -/
theorem splitLines_piece (h : ∀ x ∈ piece, isBreak x = false) :
    splitLines isBreak carry piece = ([], carry ++ piece) := by
  have hsplit : splitLines isBreak carry (piece ++ []) = _ := splitLines_append_piece h
  rw [List.append_nil] at hsplit
  rw [hsplit, splitLines]

/-- Breaks at the front end no line. -/
theorem splitLines_dropWhile : splitLines isBreak [] (xs.dropWhile isBreak) = splitLines isBreak [] xs := by
  induction xs with
  | nil => rfl
  | cons x xs ih =>
    by_cases hx : isBreak x = true
    · rw [List.dropWhile_cons_of_pos hx, splitLines_cons_break hx, ih, if_pos rfl, List.nil_append]
    · rw [List.dropWhile_cons_of_neg hx]

/-- The lines of a stream in two pieces. -/
theorem splitLines_append : splitLines isBreak carry (xs ++ ys) =
    ((splitLines isBreak carry xs).1 ++ (splitLines isBreak (splitLines isBreak carry xs).2 ys).1,
      (splitLines isBreak (splitLines isBreak carry xs).2 ys).2) := by
  induction xs generalizing carry with
  | nil => rfl
  | cons x xs ih =>
    rw [List.cons_append]
    by_cases hx : isBreak x = true
    · rw [splitLines_cons_break hx, splitLines_cons_break hx, ih, List.append_assoc]
    · rw [splitLines, if_neg hx, splitLines, if_neg hx, ih]

end LifeSim.Lib
