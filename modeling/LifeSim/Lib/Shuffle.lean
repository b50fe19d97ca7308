import Mathlib.Data.Set.Function
import Mathlib.Order.Interval.Set.Basic

/-!
# The inside-out shuffle

A table is filled and shuffled at the same time: in round `i` the value at some place `j ≤ i` moves to place `i`, and `i`
takes its place. Whatever places are chosen and whatever the table held before, its first `n` entries are a
permutation of the numbers below `n`.
-/

namespace LifeSim.Lib

/-- One round. -/
def shuffleRound (t : ℕ → ℕ) (i j : ℕ) : ℕ → ℕ :=
  Function.update (Function.update t i (t j)) j i

/-- The table after the rounds below `n`, the first of which only fills place 0. -/
def shuffle (t : ℕ → ℕ) (place : ℕ → ℕ) : ℕ → ℕ → ℕ
  | 0 => t
  | 1 => Function.update t 0 0
  | n + 2 => shuffleRound (shuffle t place (n + 1)) (n + 1) (place (n + 1))

variable {t : ℕ → ℕ} {i j k : ℕ}

/-- The place that was chosen. -/
theorem shuffleRound_self : shuffleRound t i j j = i := Function.update_self ..

/-- The new place, unless it was chosen. -/
theorem shuffleRound_new (h : j ≠ i) : shuffleRound t i j i = t j := by
  rw [shuffleRound, Function.update_of_ne h.symm, Function.update_self]

/-- The other places. -/
theorem shuffleRound_of_ne (hj : k ≠ j) (hi : k ≠ i) : shuffleRound t i j k = t k := by
  rw [shuffleRound, Function.update_of_ne hj, Function.update_of_ne hi]

/-- A round makes a permutation of one number more. -/
theorem bijOn_shuffleRound (h : Set.BijOn t (Set.Iio i) (Set.Iio i)) (hj : j ≤ i) :
    Set.BijOn (shuffleRound t i j) (Set.Iio (i + 1)) (Set.Iio (i + 1)) := by
  have hlt (k : ℕ) (hk : k < i) : t k < i := h.mapsTo hk
  refine ⟨fun k hk => ?_, fun k hk l hl hkl => ?_, fun v hv => ?_⟩
  · rw [Set.mem_Iio] at hk ⊢
    by_cases hkj : k = j
    · rw [hkj, shuffleRound_self]
      omega
    by_cases hki : k = i
    · subst hki
      rw [shuffleRound_new fun hjk => hkj hjk.symm]
      have := hlt j (by omega)
      omega
    · rw [shuffleRound_of_ne hkj hki]
      have := hlt k (by omega)
      omega
  · rw [Set.mem_Iio] at hk hl
    -- only the chosen place holds the new number, and the others hold what one place held before
    have hnew (m : ℕ) (hm : m < i + 1) (hmj : m ≠ j) :
        ∃ m' < i, shuffleRound t i j m = t m' ∧ (m = i → m' = j) ∧ (m ≠ i → m' = m) := by
      by_cases hmi : m = i
      · refine ⟨j, by omega, ?_, fun _ => rfl, fun h => absurd hmi h⟩
        rw [hmi, shuffleRound_new (by omega)]
      · exact ⟨m, by omega, shuffleRound_of_ne hmj hmi, fun h => absurd h hmi, fun _ => rfl⟩
    by_cases hkj : k = j
    · by_cases hlj : l = j
      · rw [hkj, hlj]
      · obtain ⟨l', hl', heq, -⟩ := hnew l hl hlj
        rw [hkj, shuffleRound_self, heq] at hkl
        have := hlt l' hl'
        omega
    · obtain ⟨k', hk', hkeq, hki, hkn⟩ := hnew k hk hkj
      by_cases hlj : l = j
      · rw [hlj, shuffleRound_self, hkeq] at hkl
        have := hlt k' hk'
        omega
      · obtain ⟨l', hl', hleq, hli, hln⟩ := hnew l hl hlj
        rw [hkeq, hleq] at hkl
        have := h.injOn hk' hl' hkl
        omega
  · rw [Set.mem_Iio] at hv
    by_cases hvi : v = i
    · exact ⟨j, by rw [Set.mem_Iio]; omega, by rw [shuffleRound_self, hvi]⟩
    · obtain ⟨k, hk, hkv⟩ := h.surjOn (show v ∈ Set.Iio i by rw [Set.mem_Iio]; omega)
      rw [Set.mem_Iio] at hk
      by_cases hkj : k = j
      · refine ⟨i, by rw [Set.mem_Iio]; omega, ?_⟩
        rw [shuffleRound_new (by omega), ← hkj, hkv]
      · refine ⟨k, by rw [Set.mem_Iio]; omega, ?_⟩
        rw [shuffleRound_of_ne hkj (by omega), hkv]

/-- The first `n` entries are a permutation. -/
theorem bijOn_shuffle (t : ℕ → ℕ) {place : ℕ → ℕ} (h : ∀ i, place i ≤ i) (n : ℕ) :
    Set.BijOn (shuffle t place n) (Set.Iio n) (Set.Iio n) := by
  induction n using shuffle.induct with
  | case1 =>
    have hzero : Set.Iio 0 = (∅ : Set ℕ) := Set.eq_empty_iff_forall_notMem.2 fun k hk => Nat.not_lt_zero k hk
    rw [hzero]
    exact Set.bijOn_empty _
  | case2 =>
    have hone : Set.Iio 1 = ({0} : Set ℕ) := by
      ext k
      rw [Set.mem_Iio, Set.mem_singleton_iff, Nat.lt_one_iff]
    rw [hone, shuffle, Set.bijOn_singleton, Function.update_self]
  | case3 n ih => exact bijOn_shuffleRound ih (h (n + 1))

end LifeSim.Lib
