import Mathlib.Data.List.Basic

/-!
# Greedy repetition

A matcher reads a prefix of its input, or fails. The repetition of a matcher applies it as long as it succeeds, and
never goes back. It needs a bound on the number of rounds, and for a matcher that consumes input the length of the input
is one.
-/

namespace LifeSim.Lib

/-- A matcher returns what it has read, and the rest of the input. -/
abbrev Matcher (σ α : Type*) := List σ → Option (α × List σ)

namespace Matcher

variable {σ α : Type*} {p : Matcher σ α} {s rest : List σ} {a : α} {n m : ℕ}

/-- At most `n` rounds. -/
def manyFrom (p : Matcher σ α) : ℕ → List σ → List α × List σ
  | 0, s => ([], s)
  | n + 1, s => match p s with
    | some (a, rest) => (a :: (manyFrom p n rest).1, (manyFrom p n rest).2)
    | none => ([], s)

/-- As many rounds as possible. -/
def many (p : Matcher σ α) (s : List σ) : List α × List σ := p.manyFrom s.length s

/-- The matcher does not succeed without reading anything. -/
def Consumes (p : Matcher σ α) : Prop := ∀ s a rest, p s = some (a, rest) → rest.length < s.length

theorem manyFrom_of_none (h : p s = none) : p.manyFrom n s = ([], s) := by
  cases n with
  | zero => rfl
  | succ n => rw [manyFrom, h]

/-- More rounds than there is input make no difference. -/
theorem Consumes.manyFrom_eq (hp : p.Consumes) (hn : s.length ≤ n) (hm : s.length ≤ m) :
    p.manyFrom n s = p.manyFrom m s := by
  induction n generalizing s m with
  | zero =>
    have hnone : p s = none := by
      cases h : p s with
      | none => rfl
      | some x => exact absurd (hp s x.1 x.2 h) (by omega)
    rw [manyFrom_of_none hnone, manyFrom_of_none hnone]
  | succ n ih =>
    cases h : p s with
    | none => rw [manyFrom_of_none h, manyFrom_of_none h]
    | some x =>
      have hlt := hp s x.1 x.2 h
      obtain ⟨m, rfl⟩ : ∃ k, m = k + 1 := ⟨m - 1, by omega⟩
      rw [manyFrom, manyFrom, h]
      dsimp only
      rw [ih (m := m) (by omega) (by omega)]

theorem many_of_none (h : p s = none) : p.many s = ([], s) := manyFrom_of_none h

/-- One round, and the rest. -/
theorem Consumes.many_of_some (hp : p.Consumes) (h : p s = some (a, rest)) :
    p.many s = (a :: (p.many rest).1, (p.many rest).2) := by
  have hlt := hp s a rest h
  obtain ⟨n, hn⟩ : ∃ k, s.length = k + 1 := ⟨s.length - 1, by omega⟩
  rw [many, hn, manyFrom, h]
  dsimp only
  rw [hp.manyFrom_eq (by omega) (Nat.le_refl rest.length)]
  rfl

/-- What is left is not longer. -/
theorem Consumes.many_length (hp : p.Consumes) (s : List σ) : (p.many s).2.length ≤ s.length := by
  have h (n : ℕ) (s : List σ) : (p.manyFrom n s).2.length ≤ s.length := by
    induction n generalizing s with
    | zero => exact Nat.le_refl _
    | succ n ih =>
      rw [manyFrom]
      split
      · rename_i a rest hsome
        exact Nat.le_trans (ih rest) (Nat.le_of_lt (hp s a rest hsome))
      · exact Nat.le_refl _
  exact h _ s

end Matcher

end LifeSim.Lib
