import Mathlib

/-!
# Walking around a ring

Positions `0, …, n - 1`, with a link between neighbours and, if the ring is closed, one between the ends. A walk that
goes the direct way, or around the end if the target is more than `t` positions away, decides anew at every position.
-/

namespace LifeSim.Lib.RingWalk

theorem dist_eq (s d : ℕ) : Nat.dist s d = s - d + (d - s) := rfl

/-- The target is reached around the end. -/
def aroundEnd (closed : Bool) (t s d : ℕ) : Bool := closed && decide (t < Nat.dist s d)

/-- The next position is the one below. -/
def descends (closed : Bool) (t s d : ℕ) : Bool := xor (decide (d < s)) (aroundEnd closed t s d)

/-- The neighbour below. -/
def below (n s : ℕ) : ℕ := (s + n - 1) % n

/-- The neighbour above. -/
def above (n s : ℕ) : ℕ := (s + 1) % n

/-- The number of links that the walk still takes. -/
def remaining (closed : Bool) (n t s d : ℕ) : ℕ := if aroundEnd closed t s d = true then n - Nat.dist s d else Nat.dist s d

/-- The length of a shortest way. -/
def distance (closed : Bool) (n s d : ℕ) : ℕ := if closed = true then min (Nat.dist s d)
    (n - Nat.dist s d) else Nat.dist s d

variable {closed : Bool} {n t s d : ℕ}

theorem below_of_pos (hpos : 0 < s) (hs : s < n) : below n s = s - 1 := by
  rw [below, show s + n - 1 = s - 1 + n by omega, Nat.add_mod_right]
  exact Nat.mod_eq_of_lt (by omega)

theorem below_zero (hn : 0 < n) : below n 0 = n - 1 := by
  rw [below, Nat.zero_add]
  exact Nat.mod_eq_of_lt (by omega)

theorem above_of_lt (hs : s + 1 < n) : above n s = s + 1 := Nat.mod_eq_of_lt hs

theorem above_last (hs : s + 1 = n) : above n s = 0 := by rw [above, hs, Nat.mod_self]

theorem below_lt (hn : 0 < n) : below n s < n := Nat.mod_lt _ hn

theorem above_lt (hn : 0 < n) : above n s < n := Nat.mod_lt _ hn

/-- The neighbour above the neighbour below. -/
theorem above_below (hs : s < n) : above n (below n s) = s := by
  rcases Nat.eq_zero_or_pos s with hzero | hpos
  · rw [hzero, below_zero (by omega), above_last (by omega)]
  · rw [below_of_pos hpos hs, above_of_lt (by omega)]
    omega

theorem aroundEnd_iff : aroundEnd closed t s d = true ↔ closed = true ∧ t < Nat.dist s d := by
  rw [aroundEnd, Bool.and_eq_true, decide_eq_true_eq]

theorem descends_iff : descends closed t s d = true ↔ (d < s ↔ ¬ (closed = true ∧ t < Nat.dist s d)) := by
  rw [← aroundEnd_iff, descends]
  cases aroundEnd closed t s d with
  | false => simp
  | true => simp

/-- A walk that descends is not at its target. -/
theorem ne_of_descends (h : descends closed t s d = true) : s ≠ d := by
  rintro rfl
  rw [descends_iff, Nat.dist_self] at h
  omega

theorem remaining_eq_zero_iff (hs : s < n) (hd : d < n) : remaining closed n t s d = 0 ↔ s = d := by
  rw [remaining]
  split_ifs with h
  · rw [aroundEnd_iff] at h
    unfold Nat.dist at h ⊢
    omega
  · unfold Nat.dist
    omega

/-- A step down. -/
theorem remaining_below (ht : n ≤ 2 * t + 2) (hs : s < n) (hd : d < n) (h : descends closed t s d = true) :
    remaining closed n t (below n s) d + 1 = remaining closed n t s d := by
  have hne := ne_of_descends h
  have hdist := dist_eq s d
  rw [descends_iff] at h
  simp only [remaining, aroundEnd_iff]
  rcases Nat.eq_zero_or_pos s with hzero | hpos
  · have hlast := dist_eq (n - 1) d
    have hfar : closed = true ∧ t < Nat.dist s d := by
      by_contra hnot
      have hlt := h.2 hnot
      omega
    have hover := hfar.2
    rw [if_pos hfar, hzero, below_zero (by omega), ← hzero, if_neg]
    · omega
    · omega
  · have hnext := dist_eq (s - 1) d
    rw [below_of_pos hpos hs]
    by_cases hfar : closed = true ∧ t < Nat.dist s d
    · have hlt : s < d := by
        have hnot : ¬ d < s := fun hlt => h.1 hlt hfar
        omega
      have hover := hfar.2
      rw [if_pos hfar, if_pos]
      · omega
      · exact ⟨hfar.1, by omega⟩
    · have hlt : d < s := h.2 hfar
      rw [if_neg hfar, if_neg]
      · omega
      · rintro ⟨hclosed, hover⟩
        exact hfar ⟨hclosed, by omega⟩

/-- A step up. -/
theorem remaining_above (ht : n ≤ 2 * t + 2) (hs : s < n) (hd : d < n) (hne : s ≠ d) (h : descends closed t s d = false) :
    remaining closed n t (above n s) d + 1 = remaining closed n t s d := by
  have hdist := dist_eq s d
  rw [← Bool.not_eq_true, descends_iff] at h
  simp only [remaining, aroundEnd_iff]
  by_cases hlast : s + 1 = n
  · have hfar : closed = true ∧ t < Nat.dist s d := by
      by_contra hnot
      exact h (iff_of_true (by omega) hnot)
    have hover := hfar.2
    have hfirst := dist_eq 0 d
    rw [if_pos hfar, above_last hlast, if_neg]
    · omega
    · omega
  · have hnext := dist_eq (s + 1) d
    rw [above_of_lt (by omega)]
    by_cases hfar : closed = true ∧ t < Nat.dist s d
    · have hlt : d < s := by
        by_contra hnot
        exact h (iff_of_false hnot (not_not_intro hfar))
      have hover := hfar.2
      rw [if_pos hfar, if_pos]
      · omega
      · exact ⟨hfar.1, by omega⟩
    · have hlt : s < d := by
        have hnot : ¬ d < s := fun hlt => h (iff_of_true hlt hfar)
        omega
      rw [if_neg hfar, if_neg]
      · omega
      · rintro ⟨hclosed, hover⟩
        exact hfar ⟨hclosed, by omega⟩

/-- The walk takes no more links than the ring has. -/
theorem remaining_le (hs : s < n) (hd : d < n) : remaining closed n t s d ≤ n := by
  rw [remaining]
  split_ifs
  · exact Nat.sub_le ..
  · unfold Nat.dist
    omega

theorem distance_eq_zero_iff (hs : s < n) (hd : d < n) : distance closed n s d = 0 ↔ s = d := by
  rw [distance]
  split_ifs
  · unfold Nat.dist
    omega
  · unfold Nat.dist
    omega

/-- The walk takes no fewer links than a shortest way. -/
theorem distance_le_remaining (closed : Bool) (n t s d : ℕ) : distance closed n s d ≤ remaining closed n t s d := by
  rw [distance, remaining]
  split_ifs with hclosed hfar hfar
  · exact Nat.min_le_right ..
  · exact Nat.min_le_left ..
  · exact absurd (aroundEnd_iff.1 hfar).1 hclosed
  · exact Nat.le_refl _

/-- With the rounded half as the threshold, the walk is a shortest way unless the target is exactly half of `n + 1`
away. -/
theorem remaining_half_eq_distance_iff (closed : Bool) (hs : s < n) (hd : d < n) :
    remaining closed n ((n + 1) / 2) s d = distance closed n s d ↔ (closed = true → 2 * Nat.dist s d ≠ n + 1) := by
  have hlt : Nat.dist s d < n := by
    unfold Nat.dist
    omega
  rw [distance, remaining]
  simp only [aroundEnd_iff]
  split_ifs with hfar hclosed hclosed
  · omega
  · exact absurd hfar.1 hclosed
  · have hnear : ¬ (n + 1) / 2 < Nat.dist s d := fun hdist => hfar ⟨hclosed, hdist⟩
    rw [forall_prop_of_true hclosed]
    omega
  · exact iff_of_true rfl fun h => absurd h hclosed

end LifeSim.Lib.RingWalk
