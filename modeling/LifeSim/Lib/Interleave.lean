import Mathlib

/-!
# Numbers that are dealt out in turn

The numbers are cut into pieces of equal length, and the pieces are dealt out to several parts in turn. Within its part a
number has a place: the pieces of the part follow each other without a gap.
-/

namespace LifeSim.Lib

variable {u m d a b x : ℕ}

/-- The part that gets a number. -/
def dealtPart (u m a : ℕ) : ℕ := a / u % m

/-- The place of a number within its part. -/
def dealtPlace (u m a : ℕ) : ℕ := a / u / m * u + a % u

theorem dealtPlace_div (hu : 0 < u) : dealtPlace u m a / u = a / u / m := by
  rw [dealtPlace, Nat.add_comm, Nat.add_mul_div_right _ _ hu, Nat.div_eq_of_lt (Nat.mod_lt _ hu), Nat.zero_add]

theorem dealtPlace_mod : dealtPlace u m a % u = a % u := by
  rw [dealtPlace, Nat.mul_add_mod_self_right, Nat.mod_mod]

/-- A number is known by its part and its place. -/
theorem dealt_injective (hu : 0 < u) (hpart : dealtPart u m a = dealtPart u m b)
    (hplace : dealtPlace u m a = dealtPlace u m b) : a = b := by
  have hdiv : a / u / m = b / u / m := by rw [← dealtPlace_div hu, hplace, dealtPlace_div hu]
  have hmod : a % u = b % u := by rw [← dealtPlace_mod (m := m), hplace, dealtPlace_mod]
  have hpiece : a / u = b / u := by
    rw [← Nat.div_add_mod (a / u) m, hdiv]
    rw [dealtPart, dealtPart] at hpart
    rw [hpart, Nat.div_add_mod]
  rw [← Nat.div_add_mod a u, hpiece, hmod, Nat.div_add_mod]

/-- All numbers of a divisor of the pieces' length stay together. -/
theorem dealt_block (hd : d ∣ u) (h : a / d = b / d) :
    dealtPart u m a = dealtPart u m b ∧ dealtPlace u m a / d = dealtPlace u m b / d := by
  obtain ⟨e, rfl⟩ := hd
  have hpiece : a / (d * e) = b / (d * e) := by rw [← Nat.div_div_eq_div_mul, ← Nat.div_div_eq_div_mul, h]
  refine ⟨by rw [dealtPart, dealtPart, hpiece], ?_⟩
  rcases Nat.eq_zero_or_pos d with rfl | hd
  · rw [Nat.div_zero, Nat.div_zero]
  · have hoffset : a % (d * e) / d = b % (d * e) / d := by rw [Nat.mod_mul_right_div_self, Nat.mod_mul_right_div_self, h]
    have hmul : ∀ q : ℕ, q * (d * e) = q * e * d := fun q => by ring
    rw [dealtPlace, dealtPlace, hpiece, hmul, Nat.add_comm, Nat.add_mul_div_right _ _ hd, hoffset,
      ← Nat.add_mul_div_right _ _ hd, Nat.add_comm]

/-- Every smaller place of a part is that of a smaller number. -/
theorem exists_dealt (hu : 0 < u) (hm : 0 < m) (hx : x < dealtPlace u m a) :
    ∃ b ≤ a, dealtPart u m b = dealtPart u m a ∧ dealtPlace u m b = x := by
  have hoffset := Nat.mod_lt x hu
  have hpart : dealtPart u m a < m := Nat.mod_lt _ hm
  have hdiv : ((x / u * m + dealtPart u m a) * u + x % u) / u = x / u * m + dealtPart u m a := by
    rw [Nat.add_comm, Nat.add_mul_div_right _ _ hu, Nat.div_eq_of_lt hoffset, Nat.zero_add]
  have hmod : ((x / u * m + dealtPart u m a) * u + x % u) % u = x % u := by
    rw [Nat.mul_add_mod_self_right, Nat.mod_mod]
  refine ⟨(x / u * m + dealtPart u m a) * u + x % u, ?_, ?_, ?_⟩
  · have hle : x / u ≤ a / u / m := by
      rw [← dealtPlace_div hu (m := m)]
      exact Nat.div_le_div_right hx.le
    rcases Nat.lt_or_eq_of_le hle with hlt | heq
    · -- an earlier piece
      have hpiece : x / u * m + dealtPart u m a + 1 ≤ a / u := by
        have hmul := Nat.mul_le_mul_right m (Nat.succ_le_of_lt hlt)
        have hself := Nat.div_mul_le_self (a / u) m
        rw [Nat.succ_mul] at hmul
        omega
      have hmul := Nat.mul_le_mul_right u hpiece
      have hself := Nat.div_mul_le_self a u
      rw [Nat.succ_mul] at hmul
      omega
    · -- the same piece, and an earlier number in it
      have hpiece : x / u * m + dealtPart u m a = a / u := by
        rw [heq, dealtPart, Nat.mul_comm, Nat.div_add_mod]
      rw [dealtPlace, ← heq] at hx
      have hself := Nat.div_add_mod a u
      have hself' := Nat.div_add_mod x u
      rw [Nat.mul_comm] at hself hself'
      rw [hpiece]
      omega
  · rw [dealtPart, hdiv, Nat.add_comm, Nat.add_mul_mod_self_right, Nat.mod_eq_of_lt hpart]
  · have hpiece : (x / u * m + dealtPart u m a) / m = x / u := by
      rw [Nat.add_comm, Nat.add_mul_div_right _ _ hm, Nat.div_eq_of_lt hpart, Nat.zero_add]
    rw [dealtPlace, hdiv, hmod, hpiece, Nat.mul_comm, Nat.div_add_mod]

/-- With one part the place of a number is the number. -/
theorem dealtPlace_one (a : ℕ) : dealtPlace u 1 a = a := by
  rw [dealtPlace, Nat.div_one, Nat.mul_comm, Nat.div_add_mod]

end LifeSim.Lib
