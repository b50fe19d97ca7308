import Mathlib.Data.Int.GCD
import Mathlib.Data.Nat.ModEq
import Mathlib.Dynamics.PeriodicPts.Defs

/-!
# Functions that go round

A function on the numbers below `n` goes round when every number is reached from every other one. Then `n` steps see all
of them, and a search that goes on until a test succeeds finds every number that passes the test within `n` rounds.
Steps of a fixed width go round exactly when the width and the modulus have no common divisor.
-/

namespace LifeSim.Lib

open Function

/-- The function leads from every number below `n` to all of them. -/
structure Cycle (f : ℕ → ℕ) (n : ℕ) : Prop where
  lt : ∀ c < n, f c < n
  reach : ∀ c < n, ∀ d < n, ∃ j, f^[j] c = d

namespace Cycle

variable {f : ℕ → ℕ} {n c d : ℕ}

theorem iterate_lt (h : Cycle f n) (hc : c < n) (j : ℕ) : f^[j] c < n := by
  induction j generalizing c with
  | zero => exact hc
  | succ j ih => exact ih (h.lt c hc)

/-- A number comes again after at most `n` steps. -/
theorem exists_return (h : Cycle f n) (hc : c < n) : ∃ p, 0 < p ∧ p ≤ n ∧ IsPeriodicPt f p c := by
  obtain ⟨j, hj⟩ := h.reach (f c) (h.lt c hc) c hc
  have hperiod : IsPeriodicPt f (j + 1) c := hj
  refine ⟨minimalPeriod f c, hperiod.minimalPeriod_pos (Nat.succ_pos j), ?_, isPeriodicPt_minimalPeriod f c⟩
  have hinj : Set.InjOn (fun i => f^[i] c) (Finset.range (minimalPeriod f c) : Set ℕ) := by
    rw [Finset.coe_range]
    exact iterate_injOn_Iio_minimalPeriod
  have hmaps : Set.MapsTo (fun i => f^[i] c) (Finset.range (minimalPeriod f c) : Set ℕ) (Finset.range n : Set ℕ) :=
    fun i _ => Finset.mem_coe.2 (Finset.mem_range.2 (h.iterate_lt hc i))
  have hcard := Finset.card_le_card_of_injOn _ hmaps hinj
  rwa [Finset.card_range, Finset.card_range] at hcard

/-- Every number is seen within `n` steps. -/
theorem exists_iterate (h : Cycle f n) (hc : c < n) (hd : d < n) : ∃ j, 1 ≤ j ∧ j ≤ n ∧ f^[j] c = d := by
  obtain ⟨p, hpos, hle, hperiod⟩ := h.exists_return hc
  obtain ⟨j, hj⟩ := h.reach c hc d hd
  have hmod : f^[j % p] c = d := by rw [hperiod.iterate_mod_apply, hj]
  rcases Nat.eq_zero_or_pos (j % p) with hzero | hjpos
  · refine ⟨p, hpos, hle, ?_⟩
    rw [hzero] at hmod
    exact Eq.trans hperiod hmod
  · exact ⟨j % p, hjpos, (Nat.mod_lt j hpos).le.trans hle, hmod⟩

end Cycle

/-! ### Searching along the iterates -/

section Search

variable {f : ℕ → ℕ} {p : ℕ → Prop} {c : ℕ}

/-- The first one of the next `m` numbers that passes the test. -/
structure FirstHit (f : ℕ → ℕ) (p : ℕ → Prop) (c m : ℕ) : Prop where
  pos : 1 ≤ m
  hit : p (f^[m] c)
  before : ∀ i, 1 ≤ i → i < m → ¬ p (f^[i] c)

theorem exists_firstHit {m : ℕ} (hpos : 1 ≤ m) (hm : p (f^[m] c)) : ∃ i ≤ m, FirstHit f p c i := by
  classical
  have hex : ∃ i, 1 ≤ i ∧ p (f^[i] c) := ⟨m, hpos, hm⟩
  refine ⟨Nat.find hex, Nat.find_min' hex ⟨hpos, hm⟩, (Nat.find_spec hex).1, (Nat.find_spec hex).2, ?_⟩
  intro i hi hlt hp
  exact Nat.find_min hex hlt ⟨hi, hp⟩

/-- Going from hit to hit passes by every number that is one. -/
theorem exists_iterate_of_firstHit {g : ℕ → ℕ} {good : ℕ → Prop} (hgood : ∀ c, good c → good (f c))
    (hg : ∀ c, good c → ∀ m, FirstHit f p c m → g c = f^[m] c) {m : ℕ} (hc : good c) (hpos : 1 ≤ m)
    (hm : p (f^[m] c)) : ∃ j, 1 ≤ j ∧ j ≤ m ∧ g^[j] c = f^[m] c := by
  induction m using Nat.strong_induction_on generalizing c with
  | _ m ih =>
    obtain ⟨i, hle, hfirst⟩ := exists_firstHit hpos hm
    have hnext := hg c hc i hfirst
    rcases Nat.eq_or_lt_of_le hle with rfl | hlt
    · exact ⟨1, le_rfl, hpos, hnext⟩
    · have hiterate : ∀ k, good (f^[k] c) := fun k => by
        induction k with
        | zero => exact hc
        | succ k ihk =>
          rw [iterate_succ_apply']
          exact hgood _ ihk
      have hrest : f^[m - i] (f^[i] c) = f^[m] c := by
        rw [← iterate_add_apply, Nat.sub_add_cancel hle]
      have hpos' := hfirst.pos
      obtain ⟨j, hj, hjle, hjeq⟩ := ih (m - i) (by omega) (hiterate i) (by omega) (by rwa [hrest])
      refine ⟨j + 1, by omega, by omega, ?_⟩
      rw [iterate_succ_apply, hnext, hjeq, hrest]

end Search

/-! ### Steps of a fixed width -/

/-- Steps of a width without a common divisor with the modulus meet all residues. -/
theorem exists_add_mul_modEq {k n : ℕ} (h : Nat.Coprime k n) (hn : 0 < n) (c d : ℕ) :
    ∃ j, c + j * k ≡ d [MOD n] := by
  obtain ⟨i, hi⟩ : ∃ i, k * i ≡ 1 [MOD n] := by
    rcases Nat.lt_or_ge 1 n with hone | hone
    · obtain ⟨i, -, hi⟩ := Nat.exists_mul_mod_eq_one_of_coprime h hone
      exact ⟨i, hi.trans (Nat.mod_eq_of_lt hone).symm⟩
    · have hn' : n = 1 := by omega
      rw [hn']
      exact ⟨0, Nat.modEq_one⟩
  refine ⟨i * (d + (n - 1) * c), ?_⟩
  have hstep : i * (d + (n - 1) * c) * k ≡ d + (n - 1) * c [MOD n] := by
    have hmul := hi.mul_right (d + (n - 1) * c)
    rw [one_mul] at hmul
    rwa [Nat.mul_comm, ← Nat.mul_assoc]
  have hsum : c + (d + (n - 1) * c) = d + n * c := by
    obtain ⟨m, rfl⟩ : ∃ m, n = m + 1 := ⟨n - 1, by omega⟩
    rw [Nat.add_sub_cancel, Nat.add_mul, Nat.one_mul]
    omega
  calc c + i * (d + (n - 1) * c) * k ≡ c + (d + (n - 1) * c) [MOD n] := Nat.ModEq.add_left c hstep
    _ = d + n * c := hsum
    _ ≡ d [MOD n] := by
      rw [Nat.ModEq, Nat.add_mul_mod_self_left]

end LifeSim.Lib
