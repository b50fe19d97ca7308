import Mathlib

/-!
# Signed numbers of 32 bits

A number that is stored with 32 bits and read with a sign.
-/

namespace LifeSim.Lib

/-- A number as it is read with a sign. -/
@[irreducible]
def toSInt32 (x : ℤ) : ℤ := x.bmod (2 ^ 32)

theorem toSInt32_of_small {x : ℤ} (hlow : -2 ^ 31 ≤ x) (hhigh : x < 2 ^ 31) : toSInt32 x = x := by
  unfold toSInt32
  apply Int.bmod_eq_of_le_mul_two
  · norm_num at hlow ⊢
    omega
  · norm_num at hhigh ⊢
    omega

/-- Only the low 32 bits count. -/
theorem toSInt32_congr {x y : ℤ} (h : x % 2 ^ 32 = y % 2 ^ 32) : toSInt32 x = toSInt32 y := by
  unfold toSInt32
  have hcast : ((2 ^ 32 : ℕ) : ℤ) = 2 ^ 32 := by norm_num
  rw [← Int.emod_bmod x, ← Int.emod_bmod y, hcast, h]

theorem toSInt32_lt (x : ℤ) : toSInt32 x < 2 ^ 31 := by
  have hlt : x.bmod (2 ^ 32) < _ := Int.bmod_lt (by norm_num)
  unfold toSInt32
  norm_num at hlt ⊢
  exact hlt

/-- A number whose highest bit is set is negative. -/
theorem toSInt32_of_large {x : ℤ} (hlow : 2 ^ 31 ≤ x) (hhigh : x < 2 ^ 32) : toSInt32 x = x - 2 ^ 32 := by
  have hsub := toSInt32_of_small (x := x - 2 ^ 32) (by omega) (by omega)
  rw [← hsub]
  unfold toSInt32
  have hcast : ((2 ^ 32 : ℕ) : ℤ) = 2 ^ 32 := by norm_num
  rw [← hcast, Int.sub_bmod_right]

end LifeSim.Lib
