import Mathlib.Data.List.Range
import Mathlib.Data.Nat.ModEq
import Mathlib.Logic.Function.Basic

/-!
# Arrays that are used as a ring

Entries that follow each other from a place of the ring on, round the end. As long as they are no more than the ring has
places, an entry behind them can be written without a change to them.
-/

namespace LifeSim.Lib

variable {α β : Type*} {f : ℕ → α} {m last n i j : ℕ}

/-- The entries from a place on. -/
def circularRead (f : ℕ → α) (m last n : ℕ) : List α := (List.range n).map fun i => f ((last + i) % m)

/-- Places that are less than the size of the ring apart are different. -/
theorem add_mod_injective (hi : i < m) (hj : j < m) (h : (last + i) % m = (last + j) % m) : i = j :=
  Nat.ModEq.eq_of_lt_of_lt (Nat.ModEq.add_left_cancel' last h) hi hj

@[simp] theorem circularRead_zero : circularRead f m last 0 = [] := rfl

@[simp] theorem length_circularRead : (circularRead f m last n).length = n := by simp [circularRead]

theorem getElem?_circularRead (hi : i < n) : (circularRead f m last n)[i]? = some (f ((last + i) % m)) := by
  simp [circularRead, hi]

theorem mem_circularRead {a : α} : a ∈ circularRead f m last n ↔ ∃ i < n, f ((last + i) % m) = a := by
  simp [circularRead]

/-- The place may be reduced. -/
theorem circularRead_mod : circularRead f m (last % m) n = circularRead f m last n := by
  apply List.map_congr_left
  intro i _
  rw [Nat.mod_add_mod]

theorem circularRead_congr {g : ℕ → α} (h : ∀ i < n, f ((last + i) % m) = g ((last + i) % m)) :
    circularRead f m last n = circularRead g m last n := by
  apply List.map_congr_left
  intro i hi
  exact h i (List.mem_range.1 hi)

/-- The first entry, then the rest. -/
theorem circularRead_succ : circularRead f m last (n + 1) = f (last % m) :: circularRead f m (last + 1) n := by
  rw [circularRead, List.range_succ_eq_map, List.map_cons, List.map_map]
  congr 1
  apply List.map_congr_left
  intro i _
  have hadd : last + (i + 1) = last + 1 + i := by omega
  rw [Function.comp_apply, Nat.succ_eq_add_one, hadd]

/-- Some entries, then those behind them. -/
theorem circularRead_add (k : ℕ) :
    circularRead f m last (n + k) = circularRead f m last n ++ circularRead f m (last + n) k := by
  rw [circularRead, List.range_add, List.map_append, List.map_map]
  congr 1
  apply List.map_congr_left
  intro i _
  rw [Function.comp_apply, Nat.add_assoc]

/-- An entry behind those that are read is written. -/
theorem circularRead_update (hn : n ≤ i) (hi : i < m) (a : α) :
    circularRead (Function.update f ((last + i) % m) a) m last n = circularRead f m last n := by
  apply circularRead_congr
  intro j hj
  apply Function.update_of_ne
  intro heq
  have hji := add_mod_injective (by omega) hi heq
  omega

/-- An entry is appended. -/
theorem circularRead_push (hn : n < m) (a : α) :
    circularRead (Function.update f ((last + n) % m) a) m last (n + 1) = circularRead f m last n ++ [a] := by
  rw [circularRead_add, circularRead_update le_rfl hn, circularRead_succ, Function.update_self, circularRead_zero]

/-- How far a place lies behind another one. -/
theorem add_sub_mod (hlast : last < m) (hn : n < m) : ((last + n) % m + m - last) % m = n := by
  by_cases hwrap : last + n < m
  · rw [Nat.mod_eq_of_lt hwrap]
    have hsub : last + n + m - last = n + m := by omega
    rw [hsub, Nat.add_mod_right, Nat.mod_eq_of_lt hn]
  · have hmod : (last + n) % m = last + n - m := by
      rw [Nat.mod_eq_sub_mod (by omega), Nat.mod_eq_of_lt (by omega)]
    rw [hmod]
    have hsub : last + n - m + m - last = n := by omega
    rw [hsub, Nat.mod_eq_of_lt hn]

end LifeSim.Lib
