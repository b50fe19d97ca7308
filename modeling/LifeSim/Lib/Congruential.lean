import Mathlib
import LifeSim.Lib.Cycle

/-!
# Congruential generators

A generator multiplies its state by a constant, adds another one and takes the remainder by a power of two. If the first
constant is one more than a multiple of four and the second one is odd, it goes round: `2 ^ m` steps change the bit `m`
and leave the lower bits, so that every value can be reached bit by bit.
-/

namespace LifeSim.Lib

open Function

variable {a c : ℕ}

/-- `2 ^ m` steps, without taking remainders. -/
theorem exists_iterate_two_pow (ha : a % 4 = 1) (hc : c % 2 = 1) (m : ℕ) :
    ∃ b d, ∀ x, (fun y => a * y + c)^[2 ^ m] x = x + 2 ^ m + 2 ^ (m + 1) * (2 * b * x + d) := by
  induction m with
  | zero =>
    refine ⟨a / 4, c / 2, fun x => ?_⟩
    have ha' : a = 1 + 4 * (a / 4) := by omega
    have hc' : c = 1 + 2 * (c / 2) := by omega
    calc a * x + c = (1 + 4 * (a / 4)) * x + (1 + 2 * (c / 2)) := by rw [← ha', ← hc']
      _ = x + 2 ^ 0 + 2 ^ (0 + 1) * (2 * (a / 4) * x + c / 2) := by ring
  | succ m ih =>
    obtain ⟨b, d, hstep⟩ := ih
    refine ⟨b + 2 ^ (m + 1) * b * b, d + 2 ^ m * b * (2 * d + 1), fun x => ?_⟩
    rw [pow_succ, mul_two, iterate_add_apply, hstep, hstep]
    ring

/-- Two numbers that agree in the lower bits and not in the bit `m`. -/
theorem add_modEq_of_not_modEq {m y t : ℕ} (hlow : y ≡ t [MOD 2 ^ m]) (hbit : ¬ y ≡ t [MOD 2 ^ (m + 1)]) :
    y + 2 ^ m ≡ t [MOD 2 ^ (m + 1)] := by
  have hpos : 0 < 2 ^ m := Nat.two_pow_pos m
  rw [Nat.ModEq, pow_succ, Nat.mod_mul, Nat.mod_mul (x := t), hlow] at hbit
  have hparity : y / 2 ^ m % 2 ≠ t / 2 ^ m % 2 := fun h => hbit (by rw [h])
  have hflip : (y / 2 ^ m + 1) % 2 = t / 2 ^ m % 2 := by omega
  rw [Nat.ModEq, pow_succ, Nat.mod_mul, Nat.mod_mul (x := t), Nat.add_mod_right, Nat.add_div_right _ hpos, hlow, hflip]

/-- Every value is met up to multiples of `2 ^ m`. -/
theorem exists_iterate_modEq (ha : a % 4 = 1) (hc : c % 2 = 1) (m x t : ℕ) :
    ∃ n, (fun y => a * y + c)^[n] x ≡ t [MOD 2 ^ m] := by
  induction m with
  | zero => exact ⟨0, Nat.modEq_one⟩
  | succ m ih =>
    obtain ⟨n, hn⟩ := ih
    by_cases hbit : (fun y => a * y + c)^[n] x ≡ t [MOD 2 ^ (m + 1)]
    · exact ⟨n, hbit⟩
    · -- the bit `m` is wrong, and `2 ^ m` steps more change it
      obtain ⟨b, d, hstep⟩ := exists_iterate_two_pow ha hc m
      refine ⟨2 ^ m + n, ?_⟩
      rw [iterate_add_apply, hstep]
      generalize (fun y => a * y + c)^[n] x = y at hn hbit ⊢
      have hother := add_modEq_of_not_modEq hn hbit
      calc y + 2 ^ m + 2 ^ (m + 1) * (2 * b * y + d) ≡ y + 2 ^ m [MOD 2 ^ (m + 1)] := by
            rw [Nat.ModEq, Nat.add_mul_mod_self_left]
        _ ≡ t [MOD 2 ^ (m + 1)] := hother

/-- Taking remainders at every step or at the end is the same. -/
theorem iterate_mod_modEq (k n x : ℕ) :
    (fun y => (a * y + c) % 2 ^ k)^[n] x ≡ (fun y => a * y + c)^[n] x [MOD 2 ^ k] := by
  induction n with
  | zero => exact Nat.ModEq.refl x
  | succ n ih =>
    rw [iterate_succ_apply', iterate_succ_apply']
    exact (Nat.mod_modEq _ _).trans ((ih.mul_left a).add_right c)

/-- The generator goes round. -/
theorem cycle_congruential (ha : a % 4 = 1) (hc : c % 2 = 1) (k : ℕ) :
    Cycle (fun x => (a * x + c) % 2 ^ k) (2 ^ k) := by
  have hpos : 0 < 2 ^ k := Nat.two_pow_pos k
  have hlt : ∀ x < 2 ^ k, (a * x + c) % 2 ^ k < 2 ^ k := fun x _ => Nat.mod_lt _ hpos
  refine ⟨hlt, fun x hx t ht => ?_⟩
  obtain ⟨n, hn⟩ := exists_iterate_modEq ha hc k x t
  have hbelow : (fun y => (a * y + c) % 2 ^ k)^[n] x < 2 ^ k := by
    cases n with
    | zero => exact hx
    | succ n =>
      rw [iterate_succ_apply']
      exact Nat.mod_lt _ hpos
  exact ⟨n, Nat.ModEq.eq_of_lt_of_lt ((iterate_mod_modEq k n x).trans hn) hbelow ht⟩

end LifeSim.Lib
